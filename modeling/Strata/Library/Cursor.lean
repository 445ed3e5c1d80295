import Mathlib.Data.List.Basic

/-! Cursors over a list. A cursor stands at an item or nowhere. One rule carries a
relation between an implementation and the cursor through any sequence of moves and of
the steps that others make in between. Over a sorted list a move goes to the first item
with some property, and the rule at the end says when the first of what several
cursors show is that item. -/
namespace Strata.Library.Cursor

inductive Move (κ : Type) where
  | first
  | last
  | seek (target : κ)
  | next
  | prev
  deriving DecidableEq, Repr

/-- `next` and `prev` start from the item the cursor stands at. -/
def Move.relative {κ : Type} : Move κ → Bool
  | .next => true
  | .prev => true
  | _ => false

variable {κ α σ : Type}

/-- At the index, or nowhere where the list has no such item. -/
def place (items : List α) (index : Nat) : Option Nat :=
  if index < items.length then some index else none

/-- `reached target item` tells whether a search for the target may stop there. -/
def moved (reached : κ → α → Bool) (items : List α) : Option Nat → Move κ → Option Nat
  | _, .first => place items 0
  | _, .last => place items (items.length - 1)
  | _, .seek target => place items (items.findIdx (reached target))
  | some index, .next => place items (index + 1)
  | some (index + 1), .prev => some index
  | _, _ => none

/-- Where the cursor is after a sequence of moves; `none` is a step of others. -/
def walked (reached : κ → α → Bool) (items : List α) (start : Option Nat)
    (labels : List (Option (Move κ))) : Option Nat :=
  labels.foldl (fun position label => (label.map (moved reached items position)).getD position)
    start

def itemAt (items : List α) (position : Option Nat) : Option α := position.bind fun i => items[i]?

inductive Path (step : σ → Option (Move κ) → σ → Prop) : σ → List (Option (Move κ)) → σ → Prop
  | stay (s : σ) : Path step s [] s
  | go {s middle t : σ} {label : Option (Move κ)} {labels : List (Option (Move κ))}
      (hstep : step s label middle) (hrest : Path step middle labels t) :
      Path step s (label :: labels) t

theorem Path.keeps {step : σ → Option (Move κ) → σ → Prop} {P : σ → Prop}
    (hkeeps : ∀ s label t, P s → step s label t → P t) {s t : σ}
    {labels : List (Option (Move κ))} (hpath : Path step s labels t) (h : P s) : P t := by
  induction hpath with
  | stay s => exact h
  | go hstep _ ih => exact ih (hkeeps _ _ _ h hstep)

theorem Path.simulates {step : σ → Option (Move κ) → σ → Prop} {reached : κ → α → Bool}
    {items : List α} {R : σ → Option Nat → Prop}
    (hothers : ∀ s t position, R s position → step s none t → R t position)
    (hmoves : ∀ s t position move, R s position → step s (some move) t →
      R t (moved reached items position move))
    {s t : σ} {labels : List (Option (Move κ))} (hpath : Path step s labels t)
    {position : Option Nat} (h : R s position) :
    R t (walked reached items position labels) := by
  induction hpath generalizing position with
  | stay s => exact h
  | @go s middle t label labels hstep _ ih =>
    cases label with
    | none => exact ih (hothers _ _ _ h hstep)
    | some move => exact ih (hmoves _ _ _ move h hstep)

/-! The first in an order. The order turned round gives the last. -/

/-- The first of these in the order, if there are any. -/
def IsFirst (before : α → α → Prop) (among : α → Prop) : Option α → Prop
  | none => ∀ x, ¬ among x
  | some e => among e ∧ ∀ x, among x → ¬ before x e

/-- Any two of the items are the same or one is before the other. -/
def Compares (before : α → α → Prop) (items : List α) : Prop :=
  ∀ a ∈ items, ∀ b ∈ items, a = b ∨ before a b ∨ before b a

theorem compares_of_pairwise {before : α → α → Prop} {items : List α}
    (h : items.Pairwise before) : Compares before items := by
  intro a ha b hb
  obtain ⟨i, hi, rfl⟩ := List.getElem_of_mem ha
  obtain ⟨j, hj, rfl⟩ := List.getElem_of_mem hb
  rw [List.pairwise_iff_getElem] at h
  rcases Nat.lt_trichotomy i j with hij | hij | hij
  · exact Or.inr (Or.inl (h i j hi hj hij))
  · subst hij
    exact Or.inl rfl
  · exact Or.inr (Or.inr (h j i hj hi hij))

theorem Compares.flip {before : α → α → Prop} {items : List α} (h : Compares before items) :
    Compares (fun a b => before b a) items := by
  intro a ha b hb
  exact (h a ha b hb).imp_right Or.symm

theorem IsFirst.unique {before : α → α → Prop} {items : List α} {among : α → Prop}
    (hcompares : Compares before items) (hmem : ∀ x, among x → x ∈ items) {r r' : Option α}
    (h : IsFirst before among r) (h' : IsFirst before among r') : r = r' := by
  cases r with
  | none =>
    cases r' with
    | none => rfl
    | some e' => exact absurd h'.1 (h e')
  | some e =>
    cases r' with
    | none => exact absurd h.1 (h' e)
    | some e' =>
      rcases hcompares e (hmem e h.1) e' (hmem e' h'.1) with heq | hbefore | hbefore
      · rw [heq]
      · exact absurd hbefore (h'.2 e h.1)
      · exact absurd hbefore (h.2 e' h'.1)

theorem itemAt_place (items : List α) (index : Nat) :
    itemAt items (place items index) = items[index]? := by
  unfold place itemAt
  split
  · rfl
  · rename_i hout
    simp [List.getElem?_eq_none (Nat.not_lt.mp hout)]

section Sorted

variable {before : α → α → Prop} {items : List α} {among : α → Prop} {index : Nat}

theorem isFirst_getElem? (hsorted : items.Pairwise before)
    (hasymm : ∀ a b, before a b → ¬ before b a)
    (hfront : ∀ j < index, ∀ x, items[j]? = some x → ¬ among x)
    (hat : ∀ x, items[index]? = some x → among x) :
    IsFirst before (fun x => x ∈ items ∧ among x) items[index]? := by
  cases hget : items[index]? with
  | none =>
    rintro x ⟨hx, hamong⟩
    obtain ⟨j, hj⟩ := List.mem_iff_getElem?.mp hx
    have hlt := (List.getElem?_eq_some_iff.mp hj).1
    have hlength := List.getElem?_eq_none_iff.mp hget
    exact hfront j (by omega) x hj hamong
  | some e =>
    refine ⟨⟨List.mem_of_getElem? hget, hat e hget⟩, ?_⟩
    rintro x ⟨hx, hamong⟩ hbefore
    obtain ⟨j, hj⟩ := List.mem_iff_getElem?.mp hx
    obtain ⟨hj', rfl⟩ := List.getElem?_eq_some_iff.mp hj
    obtain ⟨hi', rfl⟩ := List.getElem?_eq_some_iff.mp hget
    rw [List.pairwise_iff_getElem] at hsorted
    rcases Nat.lt_trichotomy j index with hlt | heq | hgt
    · exact hfront j hlt _ hj hamong
    · subst heq
      exact hasymm _ _ hbefore hbefore
    · exact hasymm _ _ hbefore (hsorted index j hi' hj' hgt)

theorem isFirst_head? {front back : List α} (hsorted : (front ++ back).Pairwise before)
    (hasymm : ∀ a b, before a b → ¬ before b a) (hfront : ∀ x ∈ front, ¬ among x)
    (hback : ∀ x ∈ back, among x) :
    IsFirst before (fun x => x ∈ front ++ back ∧ among x) back.head? := by
  have hget : (front ++ back)[front.length]? = back.head? := by
    simp [List.getElem?_append_right, List.head?_eq_getElem?]
  rw [← hget]
  apply isFirst_getElem? hsorted hasymm
  · intro j hj x hx
    rw [List.getElem?_append_left hj] at hx
    exact hfront x (List.mem_of_getElem? hx)
  · intro x hx
    rw [hget] at hx
    exact hback x (List.mem_of_head? hx)

theorem isLast_getElem? (hsorted : items.Pairwise before)
    (hasymm : ∀ a b, before a b → ¬ before b a) (hindex : index < items.length)
    (hbehind : ∀ j, index < j → ∀ x, items[j]? = some x → ¬ among x)
    (hat : ∀ x, items[index]? = some x → among x) :
    IsFirst (fun a b => before b a) (fun x => x ∈ items ∧ among x) items[index]? := by
  have hget := List.getElem?_eq_getElem hindex
  rw [hget]
  refine ⟨⟨List.getElem_mem hindex, hat _ hget⟩, ?_⟩
  rintro x ⟨hx, hamong⟩ hbefore
  obtain ⟨j, hj⟩ := List.mem_iff_getElem?.mp hx
  obtain ⟨hj', rfl⟩ := List.getElem?_eq_some_iff.mp hj
  rw [List.pairwise_iff_getElem] at hsorted
  rcases Nat.lt_trichotomy j index with hlt | heq | hgt
  · exact hasymm _ _ hbefore (hsorted j index hj' hindex hlt)
  · subst heq
    exact hasymm _ _ hbefore hbefore
  · exact hbehind j hgt _ hj hamong

variable {reached : κ → α → Bool} {position : Option Nat}

theorem isFirst_first (hsorted : items.Pairwise before)
    (hasymm : ∀ a b, before a b → ¬ before b a) :
    IsFirst before (fun x => x ∈ items ∧ True)
      (itemAt items (moved reached items position .first)) := by
  rw [moved, itemAt_place]
  apply isFirst_getElem? hsorted hasymm
  · omega
  · exact fun _ _ => trivial

theorem isFirst_seek (hsorted : items.Pairwise before)
    (hasymm : ∀ a b, before a b → ¬ before b a) (target : κ) :
    IsFirst before (fun x => x ∈ items ∧ reached target x = true)
      (itemAt items (moved reached items position (.seek target))) := by
  rw [moved, itemAt_place]
  apply isFirst_getElem? hsorted hasymm
  · intro j hj x hx
    obtain ⟨hlt, rfl⟩ := List.getElem?_eq_some_iff.mp hx
    simp [List.not_of_lt_findIdx hj]
  · intro x hx
    obtain ⟨hlt, rfl⟩ := List.getElem?_eq_some_iff.mp hx
    exact List.findIdx_getElem

theorem isFirst_next (hsorted : items.Pairwise before)
    (hasymm : ∀ a b, before a b → ¬ before b a) {e : α} (he : items[index]? = some e) :
    IsFirst before (fun x => x ∈ items ∧ before e x)
      (itemAt items (moved reached items (some index) .next)) := by
  rw [moved, itemAt_place]
  obtain ⟨hindex, rfl⟩ := List.getElem?_eq_some_iff.mp he
  have hpairs := List.pairwise_iff_getElem.mp hsorted
  apply isFirst_getElem? hsorted hasymm
  · intro j hj x hx hbefore
    obtain ⟨hlt, rfl⟩ := List.getElem?_eq_some_iff.mp hx
    rcases Nat.lt_or_eq_of_le (Nat.le_of_lt_succ hj) with hless | heq
    · exact hasymm _ _ hbefore (hpairs j index hlt hindex hless)
    · subst heq
      exact hasymm _ _ hbefore hbefore
  · intro x hx
    obtain ⟨hlt, rfl⟩ := List.getElem?_eq_some_iff.mp hx
    exact hpairs index (index + 1) hindex hlt (by omega)

theorem isLast_last (hsorted : items.Pairwise before)
    (hasymm : ∀ a b, before a b → ¬ before b a) :
    IsFirst (fun a b => before b a) (fun x => x ∈ items ∧ True)
      (itemAt items (moved reached items position .last)) := by
  rw [moved, itemAt_place]
  rcases Nat.eq_zero_or_pos items.length with hzero | hpos
  · rw [List.eq_nil_of_length_eq_zero hzero]
    exact fun x hx => List.not_mem_nil hx.1
  · apply isLast_getElem? hsorted hasymm (by omega)
    · intro j hj x hx
      have hlt := (List.getElem?_eq_some_iff.mp hx).1
      omega
    · exact fun _ _ => trivial

theorem isLast_prev (hsorted : items.Pairwise before)
    (hasymm : ∀ a b, before a b → ¬ before b a) {e : α} (he : items[index]? = some e) :
    IsFirst (fun a b => before b a) (fun x => x ∈ items ∧ before x e)
      (itemAt items (moved reached items (some index) .prev)) := by
  obtain ⟨hindex, rfl⟩ := List.getElem?_eq_some_iff.mp he
  have hpairs := List.pairwise_iff_getElem.mp hsorted
  cases index with
  | zero =>
    rintro x ⟨hx, hbefore⟩
    obtain ⟨j, hj⟩ := List.mem_iff_getElem?.mp hx
    obtain ⟨hlt, rfl⟩ := List.getElem?_eq_some_iff.mp hj
    rcases Nat.eq_zero_or_pos j with rfl | hpos
    · exact hasymm _ _ hbefore hbefore
    · exact hasymm _ _ hbefore (hpairs 0 j hindex hlt hpos)
  | succ index =>
    change IsFirst _ _ items[index]?
    apply isLast_getElem? hsorted hasymm (by omega)
    · intro j hj x hx hbefore
      obtain ⟨hlt, rfl⟩ := List.getElem?_eq_some_iff.mp hx
      rcases Nat.lt_or_eq_of_le (Nat.succ_le_of_lt hj) with hless | heq
      · exact hasymm _ _ hbefore (hpairs (index + 1) j hindex hlt hless)
      · subst heq
        exact hasymm _ _ hbefore hbefore
    · intro x hx
      obtain ⟨hlt, rfl⟩ := List.getElem?_eq_some_iff.mp hx
      exact hpairs index (index + 1) hlt hindex (by omega)

end Sorted

section Merging

variable {before : α → α → Prop} {merged : List α} {among shows : α → Prop}

/-- The first of what is shown is the first of those wanted, where only those are
shown and none of them is before all that is shown. -/
theorem IsFirst.of_shown (hcompares : Compares before merged)
    (htrans : ∀ a b c, before a b → before b c → before a c)
    (hshown : ∀ x, shows x → x ∈ merged ∧ among x)
    (hwanted : ∀ y ∈ merged, among y → ∃ x, shows x ∧ ¬ before y x) {r : Option α}
    (h : IsFirst before shows r) : IsFirst before (fun x => x ∈ merged ∧ among x) r := by
  cases r with
  | none =>
    rintro y ⟨hy, hamong⟩
    obtain ⟨x, hx, _⟩ := hwanted y hy hamong
    exact h x hx
  | some e =>
    refine ⟨hshown e h.1, ?_⟩
    rintro y ⟨hy, hamong⟩ hbefore
    obtain ⟨x, hx, hnot⟩ := hwanted y hy hamong
    rcases hcompares x (hshown x hx).1 e (hshown e h.1).1 with heq | hxe | hex
    · subst heq
      exact hnot hbefore
    · exact h.2 x hx hxe
    · exact hnot (htrans y e x hbefore hex)

/-- One of several cursors has moved on from `e` over its own items, and the others
still show what they showed. The first of all they show is the one behind `e`
exactly if the others show nothing that is not behind `e`, and what follows `e` is an
item of the one that moved or is shown by another. -/
theorem isFirst_step_iff (hcompares : Compares before merged)
    (htrans : ∀ a b c, before a b → before b c → before a c) {own : List α}
    (hown : ∀ x ∈ own, x ∈ merged) {others : α → Prop} (hothers : ∀ x, others x → x ∈ merged)
    {e : α} {value r goal : Option α}
    (hvalue : IsFirst before (fun x => x ∈ own ∧ before e x) value)
    (hr : IsFirst before (fun x => value = some x ∨ others x) r)
    (hgoal : IsFirst before (fun x => x ∈ merged ∧ before e x) goal) :
    r = goal ↔ (∀ x, others x → before e x) ∧ ∀ y, goal = some y → y ∈ own ∨ others y := by
  have hmoved : ∀ x, value = some x → x ∈ own ∧ before e x := by
    rintro x rfl
    exact hvalue.1
  constructor
  · rintro rfl
    constructor
    · intro x hx
      cases r with
      | none => exact absurd (Or.inr hx) (hr x)
      | some y =>
        have hnot := hr.2 x (Or.inr hx)
        rcases hcompares x (hothers x hx) y hgoal.1.1 with heq | hxy | hyx
        · rw [heq]
          exact hgoal.1.2
        · exact absurd hxy hnot
        · exact htrans e y x hgoal.1.2 hyx
    · rintro y rfl
      exact hr.1.imp (fun hy => (hmoved y hy).1) id
  · rintro ⟨hahead, hnext⟩
    refine IsFirst.unique hcompares (fun x hx => hx.1) ?_ hgoal
    apply IsFirst.of_shown hcompares htrans _ _ hr
    · rintro x (hx | hx)
      · exact ⟨hown x (hmoved x hx).1, (hmoved x hx).2⟩
      · exact ⟨hothers x hx, hahead x hx⟩
    · intro y hy hey
      cases goal with
      | none => exact absurd ⟨hy, hey⟩ (hgoal y)
      | some next =>
        have hfirst := hgoal.2 y ⟨hy, hey⟩
        rcases hnext next rfl with hin | hother
        -- the item that follows is the one that was moved to
        · cases value with
          | none => exact absurd ⟨hin, hgoal.1.2⟩ (hvalue next)
          | some x =>
            have hx := hmoved x rfl
            have hnot := hvalue.2 next ⟨hin, hgoal.1.2⟩
            rcases hcompares x (hown x hx.1) next hgoal.1.1 with heq | hxn | hnx
            · subst heq
              exact ⟨x, Or.inl rfl, hfirst⟩
            · exact absurd hxn (hgoal.2 x ⟨hown x hx.1, hx.2⟩)
            · exact absurd hnx hnot
        · exact ⟨next, Or.inr hother, hfirst⟩

end Merging

end Strata.Library.Cursor
