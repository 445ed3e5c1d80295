import Mathlib.Data.List.Basic

/-! Layered stores. Every item has a key and a rank, a list of items is a
source, and a lookup stops at the first source that knows the key. An item may
be dead: it answers for its key and hides what lies below, but stands for no
value. -/
namespace Strata.Library.Layers

class Ranked (ε : Type) (κ : outParam Type) where
  key : ε → κ
  rank : ε → Nat
  dead : ε → Prop

open Ranked

variable {ε κ : Type} [Ranked ε κ]

def IsTop (items : List ε) (k : κ) (e : ε) : Prop :=
  e ∈ items ∧ key e = k ∧ ∀ x ∈ items, key x = k → rank x ≤ rank e

/-- The items of a key stand in descending order of rank. -/
def TopFirst (source : List ε) : Prop :=
  source.Pairwise fun a b => key a = key b → rank b ≤ rank a

/-- Items of the newer source outrank those of the older one: each of them, or
under `loose` at least one of each key. -/
def Newer (loose : Prop) (newer older : List ε) : Prop :=
  ∀ x ∈ newer, ∀ y ∈ older, key x = key y →
    ∃ z ∈ newer, key z = key x ∧ rank y ≤ rank z ∧ (z = x ∨ loose)

structure Ordered (loose : Prop) (sources : List (List ε)) : Prop where
  sorted : ∀ source ∈ sources, TopFirst source
  newer : sources.Pairwise (Newer loose)

def Distinct (items : List ε) : Prop :=
  ∀ x ∈ items, ∀ y ∈ items, key x = key y → rank x = rank y → x = y

theorem Distinct.mono {items fewer : List ε} (h : Distinct items) (hsub : ∀ e ∈ fewer, e ∈ items) :
    Distinct fewer :=
  fun x hx y hy => h x (hsub x hx) y (hsub y hy)

theorem Distinct.insert {items : List ε} (h : Distinct items) {e : ε}
    (hnew : ∀ x ∈ items, rank x < rank e) : Distinct (e :: items) := by
  intro x hx y hy hkey hrank
  rcases List.mem_cons.mp hx with hxe | hx
  · rcases List.mem_cons.mp hy with hye | hy
    · exact hxe.trans hye.symm
    · have hlt := hnew y hy
      rw [← hrank, hxe] at hlt
      exact absurd hlt (Nat.lt_irrefl _)
  · rcases List.mem_cons.mp hy with hye | hy
    · have hlt := hnew x hx
      rw [hrank, hye] at hlt
      exact absurd hlt (Nat.lt_irrefl _)
    · exact h x hx y hy hkey hrank

namespace Newer

variable {loose : Prop} {newer older : List ε}

theorem mono {looser : Prop} (h : Newer loose newer older) (himp : loose → looser) :
    Newer looser newer older := by
  intro x hx y hy hkey
  obtain ⟨z, hz, hzk, hle, hwhich⟩ := h x hx y hy hkey
  exact ⟨z, hz, hzk, hle, hwhich.imp_right himp⟩

theorem of_mem {newer' older' : List ε} (h : Newer loose newer older)
    (hnewer : ∀ e, e ∈ newer' ↔ e ∈ newer) (holder : ∀ e ∈ older', e ∈ older) :
    Newer loose newer' older' := by
  intro x hx y hy hkey
  obtain ⟨z, hz, hzk, hle, hwhich⟩ := h x ((hnewer x).mp hx) y (holder y hy) hkey
  exact ⟨z, (hnewer z).mpr hz, hzk, hle, hwhich⟩

theorem copy (hloose : loose) (h : ∀ e ∈ older, e ∈ newer) : Newer loose newer older :=
  fun _ _ y hy hkey => ⟨y, h y hy, hkey.symm, Nat.le_refl _, Or.inr hloose⟩

theorem snoc (h : Newer loose newer older) {e : ε} (hnew : ∀ y ∈ older, rank y ≤ rank e) :
    Newer loose (newer ++ [e]) older := by
  intro x hx y hy hkey
  rcases List.mem_append.mp hx with hx | hx
  · obtain ⟨z, hz, hrest⟩ := h x hx y hy hkey
    exact ⟨z, List.mem_append_left _ hz, hrest⟩
  · rw [List.mem_singleton] at hx
    subst hx
    exact ⟨x, by simp, rfl, hnew y hy, Or.inl rfl⟩

theorem append {more : List ε} (h : Newer loose newer older) (h' : Newer loose newer more) :
    Newer loose newer (older ++ more) := by
  intro x hx y hy hkey
  rcases List.mem_append.mp hy with hy | hy
  · exact h x hx y hy hkey
  · exact h' x hx y hy hkey

end Newer

section Lookup

variable [DecidableEq κ]

def find (k : κ) (source : List ε) : Option ε := source.find? fun e => key e = k

def firstHit (sources : List (List ε)) (k : κ) : Option ε := sources.findSome? (find k)

theorem find_none {source : List ε} {k : κ} : find k source = none ↔ ∀ x ∈ source, key x ≠ k := by
  simp [find]

theorem find_top {source : List ε} (h : TopFirst source) {k : κ} {e : ε}
    (hfind : find k source = some e) : IsTop source k e := by
  induction source with
  | nil => cases hfind
  | cons first rest ih =>
    obtain ⟨hfirst, hrest⟩ := List.pairwise_cons.mp h
    by_cases hkey : key first = k
    · have heq : first = e := by simpa [find, hkey] using hfind
      subst heq
      refine ⟨by simp, hkey, fun x hx hxk => ?_⟩
      rcases List.mem_cons.mp hx with rfl | hx
      · exact Nat.le_refl _
      · exact hfirst x hx (hkey.trans hxk.symm)
    · have hfind' : find k rest = some e := by simpa [find, hkey] using hfind
      obtain ⟨hmem, hek, htop⟩ := ih hrest hfind'
      refine ⟨List.mem_cons_of_mem _ hmem, hek, fun x hx hxk => ?_⟩
      rcases List.mem_cons.mp hx with rfl | hx
      · exact absurd hxk hkey
      · exact htop x hx hxk

theorem firstHit_none {sources : List (List ε)} {k : κ} :
    firstHit sources k = none ↔ ∀ x ∈ sources.flatten, key x ≠ k := by
  simp only [firstHit, List.findSome?_eq_none_iff, find_none, List.mem_flatten]
  constructor
  · rintro h x ⟨source, hsource, hx⟩
    exact h source hsource x hx
  · intro h source hsource x hx
    exact h x ⟨source, hsource, hx⟩

theorem firstHit_top {loose : Prop} {sources : List (List ε)} (h : Ordered loose sources) {k : κ}
    {e : ε} (hhit : firstHit sources k = some e) : IsTop sources.flatten k e := by
  induction sources with
  | nil => cases hhit
  | cons source rest ih =>
    obtain ⟨hnewer, hrest⟩ := List.pairwise_cons.mp h.newer
    have hrestOrdered : Ordered loose rest := ⟨fun s hs => h.sorted s (by simp [hs]), hrest⟩
    cases hfind : find k source with
    | none =>
      have hhit' : firstHit rest k = some e := by simpa [firstHit, hfind] using hhit
      obtain ⟨hmem, hek, htop⟩ := ih hrestOrdered hhit'
      refine ⟨by simp [List.mem_flatten.mp hmem], hek, fun x hx hxk => ?_⟩
      rw [List.flatten_cons, List.mem_append] at hx
      rcases hx with hx | hx
      · exact absurd hxk (find_none.mp hfind x hx)
      · exact htop x hx hxk
    | some found =>
      have heq : found = e := by simpa [firstHit, hfind] using hhit
      subst heq
      obtain ⟨hmem, hek, htop⟩ := find_top (h.sorted source (by simp)) hfind
      refine ⟨by simp [hmem], hek, fun x hx hxk => ?_⟩
      rw [List.flatten_cons, List.mem_append] at hx
      rcases hx with hx | hx
      · exact htop x hx hxk
      -- an item of an older source is outranked by one of this source
      · obtain ⟨older, holder, hxolder⟩ := List.mem_flatten.mp hx
        obtain ⟨z, hz, hzk, hle, _⟩ :=
          hnewer older holder found hmem x hxolder (hek.trans hxk.symm)
        exact Nat.le_trans hle (htop z hz (hzk.trans hek))

theorem find_merged {loose : Prop} {sources : List (List ε)} (h : Ordered loose sources)
    (hdistinct : Distinct sources.flatten) {merged : List ε} (hsorted : TopFirst merged)
    (hmem : ∀ e, e ∈ merged ↔ e ∈ sources.flatten) (k : κ) : find k merged = firstHit sources k := by
  cases hhit : firstHit sources k with
  | none => exact find_none.mpr fun x hx => firstHit_none.mp hhit x ((hmem x).mp hx)
  | some e =>
    obtain ⟨he, hek, htop⟩ := firstHit_top h hhit
    cases hfind : find k merged with
    | none => exact absurd hek (find_none.mp hfind e ((hmem e).mpr he))
    | some x =>
      obtain ⟨hx, hxk, hxtop⟩ := find_top hsorted hfind
      have hx' := (hmem x).mp hx
      have hrank := Nat.le_antisymm (htop x hx' hxk) (hxtop e ((hmem e).mpr he) hek)
      exact congrArg some (hdistinct x hx' e he (hxk.trans hek.symm) hrank)

end Lookup

/-- Fewer items with the same meaning: an item that is gone is outranked by one
of its key that is left, or nothing of the key is left and a dead item of the
key outranked it. -/
structure Reduces (all left : List ε) : Prop where
  subset : ∀ e ∈ left, e ∈ all
  covered : ∀ e ∈ all, (∃ x ∈ left, key x = key e ∧ rank e ≤ rank x) ∨
    (∀ x ∈ left, key x ≠ key e) ∧ ∃ t ∈ all, key t = key e ∧ dead t ∧ rank e ≤ rank t

namespace Reduces

variable {all left more : List ε}

theorem refl (items : List ε) : Reduces items items :=
  ⟨fun _ h => h, fun e he => Or.inl ⟨e, he, rfl, Nat.le_refl _⟩⟩

theorem trans (h : Reduces all left) (h' : Reduces left more) : Reduces all more := by
  refine ⟨fun e he => h.subset e (h'.subset e he), fun e he => ?_⟩
  rcases h.covered e he with ⟨x, hx, hkey, hle⟩ | ⟨hnone, hdead⟩
  · rcases h'.covered x hx with ⟨y, hy, hkey', hle'⟩ | ⟨hnone, t, ht, htk, hdead, hle'⟩
    · exact Or.inl ⟨y, hy, hkey'.trans hkey, Nat.le_trans hle hle'⟩
    · exact Or.inr ⟨fun y hy hyk => hnone y hy (hyk.trans hkey.symm), t, h.subset t ht,
        htk.trans hkey, hdead, Nat.le_trans hle hle'⟩
  · exact Or.inr ⟨fun y hy => hnone y (h'.subset y hy), hdead⟩

theorem of_mem_iff {all' left' : List ε} (h : Reduces all left) (hall : ∀ e, e ∈ all' ↔ e ∈ all)
    (hleft : ∀ e, e ∈ left' ↔ e ∈ left) : Reduces all' left' := by
  refine ⟨fun e he => (hall e).mpr (h.subset e ((hleft e).mp he)), fun e he => ?_⟩
  rcases h.covered e ((hall e).mp he) with ⟨x, hx, hkey⟩ | ⟨hnone, t, ht, hdead⟩
  · exact Or.inl ⟨x, (hleft x).mpr hx, hkey⟩
  · exact Or.inr ⟨fun x hx => hnone x ((hleft x).mp hx), t, (hall t).mpr ht, hdead⟩

theorem insert (h : Reduces all left) (e : ε) (hnew : ∀ x ∈ all, key x = key e → rank x ≤ rank e) :
    Reduces (e :: all) (e :: left) := by
  refine ⟨fun x hx => ?_, fun x hx => ?_⟩
  · rcases List.mem_cons.mp hx with rfl | hx
    · simp
    · exact List.mem_cons_of_mem _ (h.subset x hx)
  · by_cases hkey : key x = key e
    · refine Or.inl ⟨e, by simp, hkey.symm, ?_⟩
      rcases List.mem_cons.mp hx with rfl | hx
      · exact Nat.le_refl _
      · exact hnew x hx hkey
    · have hx' : x ∈ all := (List.mem_cons.mp hx).resolve_left fun heq => hkey (heq ▸ rfl)
      rcases h.covered x hx' with ⟨y, hy, hyk, hle⟩ | ⟨hnone, t, ht, htk, hdead, hle⟩
      · exact Or.inl ⟨y, List.mem_cons_of_mem _ hy, hyk, hle⟩
      · refine Or.inr ⟨fun y hy => ?_, t, List.mem_cons_of_mem _ ht, htk, hdead, hle⟩
        rcases List.mem_cons.mp hy with rfl | hy
        · exact fun heq => hkey heq.symm
        · exact hnone y hy

/-- Part of the items is replaced. A key of which nothing is left there lost its
items to a dead one, and where the rest knows the key it outranks them. -/
theorem replace {rest inputs outputs : List ε} (hsubset : ∀ e ∈ outputs, e ∈ inputs)
    (hcovered : ∀ e ∈ inputs, (∃ x ∈ outputs, key x = key e ∧ rank e ≤ rank x) ∨
      (∀ x ∈ outputs, key x ≠ key e) ∧ (∃ t ∈ inputs, key t = key e ∧ dead t ∧ rank e ≤ rank t) ∧
        ∀ x ∈ rest, key x = key e → ∃ y ∈ rest, key y = key e ∧ rank e ≤ rank y) :
    Reduces (rest ++ inputs) (rest ++ outputs) := by
  refine ⟨fun e he => ?_, fun e he => ?_⟩
  · rw [List.mem_append] at he ⊢
    exact he.imp id (hsubset e)
  · rw [List.mem_append] at he
    rcases he with he | he
    · exact Or.inl ⟨e, by simp [he], rfl, Nat.le_refl _⟩
    · rcases hcovered e he with ⟨x, hx, hkey, hle⟩ | ⟨hnone, ⟨t, ht, htk, hdead, hle⟩, hrest⟩
      · exact Or.inl ⟨x, by simp [hx], hkey, hle⟩
      · by_cases hknown : ∃ x ∈ rest, key x = key e
        · obtain ⟨x, hx, hkey⟩ := hknown
          obtain ⟨y, hy, hyk, hyle⟩ := hrest x hx hkey
          exact Or.inl ⟨y, by simp [hy], hyk, hyle⟩
        · refine Or.inr ⟨fun x hx => ?_, t, by simp [ht], htk, hdead, hle⟩
          rcases List.mem_append.mp hx with hx | hx
          · exact fun hkey => hknown ⟨x, hx, hkey⟩
          · exact hnone x hx

theorem under {upper : List ε} (h : Reduces all left)
    (hover : ∀ x ∈ upper, ∀ y ∈ all, key x = key y → ∃ z ∈ upper, key z = key x ∧ rank y ≤ rank z) :
    Reduces (upper ++ all) (upper ++ left) := by
  apply replace h.subset
  intro e he
  rcases h.covered e he with hleft | ⟨hnone, hdead⟩
  · exact Or.inl hleft
  · refine Or.inr ⟨hnone, hdead, fun x hx hkey => ?_⟩
    obtain ⟨z, hz, hzk, hle⟩ := hover x hx e he hkey
    exact ⟨z, hz, hzk.trans hkey, hle⟩

/-- A lookup in what is left finds the highest rank of all items, or nothing
where that one is dead. -/
theorem firstHit [DecidableEq κ] {loose : Prop} {sources : List (List ε)}
    (h : Reduces all sources.flatten) (hordered : Ordered loose sources) (hdistinct : Distinct all)
    {k : κ} {e : ε} (htop : IsTop all k e) :
    Layers.firstHit sources k = some e ∨ Layers.firstHit sources k = none ∧ dead e := by
  obtain ⟨hmem, hek, hmax⟩ := htop
  have hequal : ∀ x ∈ all, key x = k → rank e ≤ rank x → x = e := fun x hx hxk hle =>
    hdistinct x hx e hmem (hxk.trans hek.symm) (Nat.le_antisymm (hmax x hx hxk) hle)
  rcases h.covered e hmem with ⟨x, hx, hkey, hle⟩ | ⟨hnone, t, ht, htk, hdead, hle⟩
  · cases hhit : Layers.firstHit sources k with
    | none => exact absurd (hkey.trans hek) (firstHit_none.mp hhit x hx)
    | some found =>
      obtain ⟨hfound, hfk, hfmax⟩ := firstHit_top hordered hhit
      have hrank := Nat.le_trans hle (hfmax x hx (hkey.trans hek))
      exact Or.inl (congrArg some (hequal found (h.subset found hfound) hfk hrank))
  · refine Or.inr ⟨firstHit_none.mpr fun x hx hxk => hnone x hx (hxk.trans hek.symm), ?_⟩
    rwa [← hequal t ht (htk.trans hek) hle]

end Reduces

end Strata.Library.Layers
