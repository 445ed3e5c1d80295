import Mathlib.Tactic.Linarith

/-! Two binary searches over `[0, count)`, one for the last index below a threshold,
one for an index that compares equal, and a scan for the best of several values. -/
namespace Strata.Library.Search

/-- `while (left <= right)`: keep the last index seen below, and go right of it. -/
def searchLast (below : Nat → Bool) : Nat → Int → Int → Nat → Nat
  | 0, _, _, found => found
  | fuel + 1, left, right, found =>
    if left ≤ right then
      let mid := left + (right - left) / 2
      if below mid.toNat then searchLast below fuel (mid + 1) right mid.toNat
      else searchLast below fuel left (mid - 1) found
    else found

/-- The same search with its rounds counted: nothing where they are not enough. -/
def searchLastWithin (below : Nat → Bool) : Nat → Int → Int → Nat → Option Nat
  | 0, _, _, _ => none
  | rounds + 1, left, right, found =>
    if left ≤ right then
      let mid := left + (right - left) / 2
      if below mid.toNat then searchLastWithin below rounds (mid + 1) right mid.toNat
      else searchLastWithin below rounds left (mid - 1) found
    else some found

/-- `while (left <= right)`: stop at the first index that compares equal. -/
def searchHit (compare : Nat → Ordering) : Nat → Int → Int → Option Nat
  | 0, _, _ => none
  | fuel + 1, left, right =>
    if left ≤ right then
      let mid := left + (right - left) / 2
      match compare mid.toNat with
      | .lt => searchHit compare fuel (mid + 1) right
      | .gt => searchHit compare fuel left (mid - 1)
      | .eq => some mid.toNat
    else none

/-- The indices that `searchLast` looks at. -/
def probes (below : Nat → Bool) : Nat → Int → Int → List Nat
  | 0, _, _ => []
  | fuel + 1, left, right =>
    if left ≤ right then
      let mid := left + (right - left) / 2
      mid.toNat :: (if below mid.toNat then probes below fuel (mid + 1) right
        else probes below fuel left (mid - 1))
    else []

theorem mid_between {left right : Int} (h : left ≤ right) :
    left ≤ left + (right - left) / 2 ∧ left + (right - left) / 2 ≤ right := by
  omega

/-- Whatever the order of the indices, the result is one that was seen below,
or the one the search started with. -/
theorem searchLast_spec {below : Nat → Bool} {count : Nat} (fuel : Nat) (left right : Int)
    (found : Nat) (hleft : 0 ≤ left) (hright : right < count) (hfound : found < count)
    (hseen : below found = true ∨ found = 0) :
    searchLast below fuel left right found < count ∧
      (below (searchLast below fuel left right found) = true ∨
        searchLast below fuel left right found = 0) := by
  induction fuel generalizing left right found with
  | zero => exact ⟨hfound, hseen⟩
  | succ fuel ih =>
    unfold searchLast
    split
    · rename_i hle
      have hmid := mid_between hle
      simp only
      generalize left + (right - left) / 2 = mid at hmid
      split
      · rename_i hbelow
        exact ih (mid + 1) right mid.toNat (by omega) hright (by omega) (Or.inl hbelow)
      · exact ih left (mid - 1) found hleft (by omega) hfound hseen
    · exact ⟨hfound, hseen⟩

theorem searchLastWithin_eq {below : Nat → Bool} {fuel rounds : Nat} {left right : Int}
    {found : Nat} (hfuel : right - left < fuel) (hrounds : right - left + 1 < rounds)
    (hpos : 0 < rounds) :
    searchLastWithin below rounds left right found =
      some (searchLast below fuel left right found) := by
  induction fuel generalizing rounds left right found with
  | zero =>
    obtain ⟨rounds, rfl⟩ := Nat.exists_eq_succ_of_ne_zero hpos.ne'
    have hlt : ¬ left ≤ right := by
      have : right - left < (0 : Int) := by exact_mod_cast hfuel
      omega
    rw [searchLastWithin, if_neg hlt, searchLast]
  | succ fuel ih =>
    obtain ⟨rounds, rfl⟩ := Nat.exists_eq_succ_of_ne_zero hpos.ne'
    push_cast at hfuel hrounds
    rw [searchLastWithin, searchLast]
    by_cases hle : left ≤ right
    · have hmid := mid_between hle
      rw [if_pos hle, if_pos hle]
      simp only
      generalize left + (right - left) / 2 = mid at hmid
      split
      · exact ih (by omega) (by omega) (by omega)
      · exact ih (by omega) (by omega) (by omega)
    · rw [if_neg hle, if_neg hle]

theorem searchLastWithin_some {below : Nat → Bool} {fuel rounds : Nat} {left right : Int}
    {found result : Nat} (h : searchLastWithin below rounds left right found = some result)
    (hfuel : right - left < fuel) : result = searchLast below fuel left right found := by
  induction rounds generalizing fuel left right found with
  | zero => cases h
  | succ rounds ih =>
    unfold searchLastWithin at h
    split at h
    · rename_i hle
      have hmid := mid_between hle
      obtain ⟨fuel, rfl⟩ : ∃ less, fuel = less + 1 := Nat.exists_eq_succ_of_ne_zero (by omega)
      push_cast at hfuel
      rw [searchLast, if_pos hle]
      simp only at h ⊢
      generalize left + (right - left) / 2 = mid at hmid h
      split at h
      · rename_i hbelow
        rw [if_pos hbelow]
        exact ih h (by omega)
      · rename_i hbelow
        rw [if_neg hbelow]
        exact ih h (by omega)
    · rename_i hgt
      cases h
      cases fuel with
      | zero => rfl
      | succ fuel => rw [searchLast, if_neg hgt]

theorem searchLast_congr {below below' : Nat → Bool} {count : Nat}
    (h : ∀ index < count, below index = below' index) (fuel : Nat) (left right : Int) (found : Nat)
    (hleft : 0 ≤ left) (hright : right < count) :
    searchLast below fuel left right found = searchLast below' fuel left right found := by
  induction fuel generalizing left right found with
  | zero => rfl
  | succ fuel ih =>
    rw [searchLast, searchLast]
    split
    · rename_i hle
      have hmid := mid_between hle
      simp only
      generalize left + (right - left) / 2 = mid at hmid
      rw [h mid.toNat (by omega)]
      split
      · exact ih (mid + 1) right mid.toNat (by omega) hright
      · exact ih left (mid - 1) found hleft (by omega)
    · rfl

theorem searchLast_whole (below : Nat → Bool) {count : Nat} (hcount : 0 < count) :
    searchLast below count 0 (count - 1) 0 < count ∧
      (below (searchLast below count 0 (count - 1) 0) = true ∨
        searchLast below count 0 (count - 1) 0 = 0) :=
  searchLast_spec count 0 (count - 1) 0 (le_refl 0) (by omega) hcount (Or.inr rfl)

theorem probes_lt {below : Nat → Bool} {count : Nat} (fuel : Nat) (left right : Int)
    (hleft : 0 ≤ left) (hright : right < count) :
    ∀ index ∈ probes below fuel left right, index < count := by
  induction fuel generalizing left right with
  | zero => exact fun _ h => (List.not_mem_nil h).elim
  | succ fuel ih =>
    unfold probes
    split
    · rename_i hle
      have hmid := mid_between hle
      simp only
      generalize left + (right - left) / 2 = mid at hmid
      intro index hindex
      rcases List.mem_cons.mp hindex with rfl | hindex
      · omega
      · split at hindex
        · exact ih (mid + 1) right (by omega) hright index hindex
        · exact ih left (mid - 1) hleft (by omega) index hindex
    · exact fun _ h => (List.not_mem_nil h).elim

theorem searchHit_sound {compare : Nat → Ordering} {count : Nat} (fuel : Nat) (left right : Int)
    (hleft : 0 ≤ left) (hright : right < count) {index : Nat}
    (h : searchHit compare fuel left right = some index) :
    index < count ∧ compare index = .eq := by
  induction fuel generalizing left right with
  | zero => cases h
  | succ fuel ih =>
    unfold searchHit at h
    split at h
    · rename_i hle
      have hmid := mid_between hle
      simp only at h
      generalize left + (right - left) / 2 = mid at hmid h
      split at h
      · exact ih (mid + 1) right (by omega) hright h
      · exact ih left (mid - 1) hleft (by omega) h
      · rename_i heq
        obtain rfl := Option.some.inj h
        exact ⟨by omega, heq⟩
    · cases h

/-- With `hit` in the range and nothing on the wrong side of it, an index that
compares equal is found. -/
theorem searchHit_complete {compare : Nat → Ordering} {count hit : Nat}
    (hbefore : ∀ i, i < hit → compare i ≠ .gt)
    (hafter : ∀ i, hit < i → i < count → compare i ≠ .lt) (heq : compare hit = .eq)
    (fuel : Nat) (left right : Int) (hleft : 0 ≤ left) (hright : right < count)
    (hin : left ≤ hit ∧ (hit : Int) ≤ right) (hfuel : right - left < fuel) :
    ∃ index, searchHit compare fuel left right = some index := by
  induction fuel generalizing left right with
  | zero =>
    have : right - left < (0 : Int) := by exact_mod_cast hfuel
    omega
  | succ fuel ih =>
    unfold searchHit
    rw [if_pos (by omega)]
    have hmid := mid_between (show left ≤ right by omega)
    have hbound : right - left < (fuel : Int) + 1 := by exact_mod_cast hfuel
    simp only
    generalize left + (right - left) / 2 = mid at hmid
    cases hmidCompare : compare mid.toNat with
    | eq => exact ⟨mid.toNat, rfl⟩
    | lt =>
      -- the hit is right of the middle
      have hne : mid.toNat ≠ hit := fun h => by rw [h, heq] at hmidCompare; cases hmidCompare
      have hnot : ¬ hit < mid.toNat := fun h => hafter mid.toNat h (by omega) hmidCompare
      exact ih (mid + 1) right (by omega) hright (by omega) (by omega)
    | gt =>
      have hne : mid.toNat ≠ hit := fun h => by rw [h, heq] at hmidCompare; cases hmidCompare
      have hnot : ¬ mid.toNat < hit := fun h => hbefore mid.toNat h hmidCompare
      exact ih left (mid - 1) hleft (by omega) (by omega) (by omega)

/-- The scan from position `index` on, with the best value so far: a value that is
there replaces it where it wins. -/
def best {α : Type} (wins : α → α → Prop) [DecidableRel wins] :
    List (Option α) → Nat → Option (Nat × α) → Option (Nat × α)
  | [], _, so => so
  | none :: rest, index, so => best wins rest (index + 1) so
  | some x :: rest, index, none => best wins rest (index + 1) (some (index, x))
  | some x :: rest, index, some (i, e) =>
    if wins x e then best wins rest (index + 1) (some (index, x))
    else best wins rest (index + 1) (some (i, e))

section Best

variable {α : Type} {wins : α → α → Prop} [DecidableRel wins]

theorem best_none {values : List (Option α)} {index : Nat} {so : Option (Nat × α)}
    (h : best wins values index so = none) : so = none ∧ ∀ x, some x ∉ values := by
  induction values generalizing index so with
  | nil => exact ⟨h, fun _ hx => (List.not_mem_nil hx).elim⟩
  | cons value rest ih =>
    cases value with
    | none =>
      have hrest := ih h
      exact ⟨hrest.1, fun x hx => hrest.2 x (by simpa using hx)⟩
    | some x =>
      cases so with
      | none => exact nomatch (ih h).1
      | some so =>
        rw [best] at h
        split at h
        · exact nomatch (ih h).1
        · exact nomatch (ih h).1

/-- What the scan ends with was the best before or is one of the values, and no value
wins over it. -/
theorem best_some (hasymm : ∀ a b, wins a b → ¬ wins b a)
    (htrans : ∀ a b c, ¬ wins a b → ¬ wins b c → ¬ wins a c) {values : List (Option α)}
    {index i : Nat} {so : Option (Nat × α)} {e : α}
    (h : best wins values index so = some (i, e)) :
    (so = some (i, e) ∨ ∃ j, i = index + j ∧ values[j]? = some (some e)) ∧
      (∀ b, so = some b → ¬ wins b.2 e) ∧ ∀ x, some x ∈ values → ¬ wins x e := by
  induction values generalizing index so with
  | nil =>
    refine ⟨Or.inl h, fun b hb hwins => ?_, fun _ hx => (List.not_mem_nil hx).elim⟩
    have heq : b = (i, e) := Option.some.inj (hb.symm.trans h)
    rw [heq] at hwins
    exact hasymm e e hwins hwins
  | cons value rest ih =>
    -- the value at hand has become the best so far
    have htaken : ∀ x, value = some x → best wins rest (index + 1) (some (index, x)) = some (i, e) →
        (∃ j, i = index + j ∧ (value :: rest)[j]? = some (some e)) ∧ ¬ wins x e ∧
          ∀ y, some y ∈ value :: rest → ¬ wins y e := by
      rintro x rfl hbest
      obtain ⟨horigin, hold, hothers⟩ := ih hbest
      have hx := hold _ rfl
      refine ⟨?_, hx, fun y hy => ?_⟩
      · rcases horigin with hsame | ⟨j, hj, hget⟩
        · cases hsame
          exact ⟨0, rfl, rfl⟩
        · exact ⟨j + 1, by omega, hget⟩
      · rcases List.mem_cons.mp hy with heq | hy
        · cases heq
          exact hx
        · exact hothers y hy
    cases value with
    | none =>
      obtain ⟨horigin, hold, hothers⟩ := ih h
      refine ⟨?_, hold, fun x hx => hothers x (by simpa using hx)⟩
      rcases horigin with hsame | ⟨j, hj, hget⟩
      · exact Or.inl hsame
      · exact Or.inr ⟨j + 1, by omega, hget⟩
    | some x =>
      cases so with
      | none =>
        obtain ⟨horigin, _, hothers⟩ := htaken x rfl h
        exact ⟨Or.inr horigin, fun b hb => (nomatch hb), hothers⟩
      | some so =>
        rw [best] at h
        split at h
        · rename_i hwins
          obtain ⟨horigin, hx, hothers⟩ := htaken x rfl h
          refine ⟨Or.inr horigin, fun b hb => ?_, hothers⟩
          cases hb
          exact htrans _ x e (hasymm x _ hwins) hx
        · rename_i hnot
          obtain ⟨horigin, hold, hothers⟩ := ih h
          refine ⟨?_, hold, fun y hy => ?_⟩
          · rcases horigin with hsame | ⟨j, hj, hget⟩
            · exact Or.inl hsame
            · exact Or.inr ⟨j + 1, by omega, hget⟩
          · rcases List.mem_cons.mp hy with heq | hy
            · cases heq
              exact htrans x _ e hnot (hold _ rfl)
            · exact hothers y hy

end Best

end Strata.Library.Search
