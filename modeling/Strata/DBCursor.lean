import Strata.MergingCursor
import Strata.ScanDamage

/-! The user's iterator as a cursor. Its sources may grow while it is used, as long as what
they gain is above its sequence number; `Prev` and `SeekToLast` start again from the front. -/
namespace Strata

open Library Cursor InternalIterator Memtable Layers

variable {ι : Type} [InternalIterator ι] {seq bound : Nat} {seen : List Entry}

/-! Sources. -/

/-- In each of its states a source shows a sorted list from its position on. What it shows
behind a seek of what is visible at the sequence number is always the same. -/
structure IsSource (seq bound : Nat) (seen : List Entry) (R : ι → Prop) : Prop where
  ahead : ∀ it, R it → ∃ es, Yields it es ∧ Sorted es ∧ (∀ e ∈ es, e.HasType) ∧ es.length ≤ bound
  first : ∀ it, R it → R (seekToFirst it) ∧ ∀ es, Yields (seekToFirst it) es →
    ∀ e, e.seq ≤ seq → (e ∈ es ↔ e ∈ seen)
  seek : ∀ it target, R it → R (seek it target) ∧ ∀ es, Yields (seek it target) es →
    ∀ e, e.seq ≤ seq → (e ∈ es ↔ e ∈ seen ∧ target ≤ e.userKey)
  next : ∀ it, R it → valid it = true → R (next it)

def SourceOf (seq bound : Nat) (seen : List Entry) (it : ι) : Prop :=
  ∃ R : ι → Prop, IsSource seq bound seen R ∧ R it

theorem SourceOf.next {it : ι} (h : SourceOf seq bound seen it) (hvalid : valid it = true) :
    SourceOf seq bound seen (next it) := by
  obtain ⟨R, hsource, hit⟩ := h
  exact ⟨R, hsource, hsource.next it hit hvalid⟩

theorem SourceOf.seekToFirst {it : ι} (h : SourceOf seq bound seen it) :
    SourceOf seq bound seen (seekToFirst it) ∧ ∀ es, Yields (seekToFirst it) es →
      ∀ e, e.seq ≤ seq → (e ∈ es ↔ e ∈ seen ∧ True) := by
  obtain ⟨R, hsource, hit⟩ := h
  obtain ⟨hfirst, hshows⟩ := hsource.first it hit
  refine ⟨⟨R, hsource, hfirst⟩, fun es hyields e he => ?_⟩
  rw [and_true]
  exact hshows es hyields e he

theorem SourceOf.seek {it : ι} (h : SourceOf seq bound seen it) (target : Key) :
    SourceOf seq bound seen (seek it target) ∧ ∀ es, Yields (InternalIterator.seek it target) es →
      ∀ e, e.seq ≤ seq → (e ∈ es ↔ e ∈ seen ∧ target ≤ e.userKey) := by
  obtain ⟨R, hsource, hit⟩ := h
  obtain ⟨hseek, hshows⟩ := hsource.seek it target hit
  exact ⟨⟨R, hsource, hseek⟩, hshows⟩

namespace MergingIterator

variable {seens : List (List Entry)}

def Sources (seq bound : Nat) (seens : List (List Entry)) (it : MergingIterator ι) : Prop :=
  List.Forall₂ (SourceOf seq bound) seens it.children

theorem Sources.next {it : MergingIterator ι} (h : Sources seq bound seens it)
    (hvalid : it.valid = true) : Sources seq bound seens it.next := by
  unfold MergingIterator.next
  cases hcurrent : it.current with
  | none => exact h
  | some index =>
    have hchild : ∀ child, it.children[index]? = some child → InternalIterator.valid child = true := by
      intro child hget
      simpa [MergingIterator.valid, MergingIterator.child, hcurrent, hget] using hvalid
    have hmodify : ∀ {seens : List (List Entry)} {children : List ι} {index : Nat},
        List.Forall₂ (SourceOf seq bound) seens children →
        (∀ child, children[index]? = some child → InternalIterator.valid child = true) →
        List.Forall₂ (SourceOf seq bound) seens (children.modify index InternalIterator.next) := by
      intro seens children index hall
      induction hall generalizing index with
      | nil =>
        intro _
        rw [List.modify_nil]
        exact List.Forall₂.nil
      | cons hfirst hrest ih =>
        intro hchild
        cases index with
        | zero => exact List.Forall₂.cons (hfirst.next (hchild _ rfl)) hrest
        | succ index => exact List.Forall₂.cons hfirst (ih fun child hget => hchild child hget)
    exact hmodify h hchild

structure Shows (seq bound : Nat) (seens : List (List Entry)) (it : MergingIterator ι)
    (es : List Entry) : Prop where
  sources : Sources seq bound seens it
  yields : Yields it es
  sorted : Sorted es
  types : ∀ e ∈ es, e.HasType
  length : es.length ≤ seens.length * bound

theorem shows_findSmallest {children : List ι} {wanted : Entry → Prop}
    (hsources : List.Forall₂ (SourceOf seq bound) seens children)
    (hwanted : List.Forall₂ (fun seen child => ∀ es, Yields child es → ∀ e, e.seq ≤ seq →
      (e ∈ es ↔ e ∈ seen ∧ wanted e)) seens children) (current : Option Nat) :
    ∃ es, Shows seq bound seens (findSmallest ⟨children, current⟩) es ∧
      ∀ e, e.seq ≤ seq → (e ∈ es ↔ e ∈ seens.flatten ∧ wanted e) := by
  have hpairs : ∃ pairs : List (ι × List Entry), pairs.map Prod.fst = children ∧
      (∀ p ∈ pairs, Yields p.1 p.2 ∧ Sorted p.2 ∧ ∀ e ∈ p.2, e.HasType) ∧
      (pairs.map Prod.snd).flatten.length ≤ seens.length * bound ∧
      ∀ e, e.seq ≤ seq →
        (e ∈ (pairs.map Prod.snd).flatten ↔ e ∈ seens.flatten ∧ wanted e) := by
    induction hsources with
    | nil =>
      refine ⟨[], rfl, fun p hp => (List.not_mem_nil hp).elim, Nat.zero_le _, fun e _ => ?_⟩
      simp
    | @cons seen child seens children hfirst hrest ih =>
      cases hwanted with
      | cons hone hothers =>
        obtain ⟨pairs, rfl, hpairs, hlength, hmem⟩ := ih hothers
        obtain ⟨R, hsource, hit⟩ := hfirst
        obtain ⟨es, hyields, hsorted, htypes, hbound⟩ := hsource.ahead child hit
        refine ⟨(child, es) :: pairs, rfl, fun p hp => ?_, ?_, fun e he => ?_⟩
        · rcases List.mem_cons.mp hp with rfl | hp
          · exact ⟨hyields, hsorted, htypes⟩
          · exact hpairs p hp
        · rw [List.map_cons, List.flatten_cons, List.length_append, List.length_cons, Nat.succ_mul]
          simp only
          omega
        · have hhere := hone es hyields e he
          have hthere := hmem e he
          simp only [List.map_cons, List.flatten_cons, List.mem_append, hhere, hthere]
          exact or_and_right.symm
  obtain ⟨pairs, rfl, hpairs, hlength, hmem⟩ := hpairs
  have hmerged := @findSmallest_merged ι _ pairs ⟨pairs.map Prod.fst, current⟩ rfl
    fun p hp => (hpairs p hp).1
  obtain ⟨merged, hyields, hperm, hsorted⟩ := hmerged.yields_sorted fun p hp => (hpairs p hp).2.1
  refine ⟨merged, ⟨hsources, hyields, hsorted, fun e he => ?_, ?_⟩, fun e he => ?_⟩
  · obtain ⟨es, hes, he⟩ := List.mem_flatten.mp (hperm.mem_iff.mp he)
    obtain ⟨p, hp, rfl⟩ := List.mem_map.mp hes
    exact (hpairs p hp).2.2 e he
  · rw [hperm.length_eq]
    exact hlength
  · rw [hperm.mem_iff]
    exact hmem e he

theorem Sources.seekToFirst {it : MergingIterator ι} (h : Sources seq bound seens it) :
    ∃ es, Shows seq bound seens it.seekToFirst es ∧
      ∀ e, e.seq ≤ seq → (e ∈ es ↔ e ∈ seens.flatten ∧ True) := by
  apply shows_findSmallest
  · exact List.forall₂_map_right_iff.mpr (h.imp fun _ _ hchild => hchild.seekToFirst.1)
  · exact List.forall₂_map_right_iff.mpr (h.imp fun _ _ hchild => hchild.seekToFirst.2)

theorem Sources.seek {it : MergingIterator ι} (h : Sources seq bound seens it) (target : Key) :
    ∃ es, Shows seq bound seens (it.seek target) es ∧
      ∀ e, e.seq ≤ seq → (e ∈ es ↔ e ∈ seens.flatten ∧ target ≤ e.userKey) := by
  apply shows_findSmallest
  · exact List.forall₂_map_right_iff.mpr (h.imp fun _ _ hchild => (hchild.seek target).1)
  · exact List.forall₂_map_right_iff.mpr (h.imp fun _ _ hchild => (hchild.seek target).2)

end MergingIterator

/-! The pairs that a user sees. -/

/-- The pairs that are visible at the sequence number, in the order of the keys. -/
structure Lists (seq : Nat) (visible : List Entry) (items : List (Key × Bytes)) : Prop where
  sorted : items.Pairwise fun a b => a.1 < b.1
  mem : ∀ key value, (key, value) ∈ items ↔ IsVisible visible seq key value

theorem eq_of_keys_lt {left right : List (Key × Bytes)}
    (hleft : left.Pairwise fun a b => a.1 < b.1) (hright : right.Pairwise fun a b => a.1 < b.1)
    (h : ∀ p, p ∈ left ↔ p ∈ right) : left = right := by
  have hnodup : ∀ {items : List (Key × Bytes)}, (items.Pairwise fun a b => a.1 < b.1) →
      items.Nodup := fun hitems => hitems.imp fun hlt heq => absurd (heq ▸ hlt) (lt_irrefl _)
  have hperm := (List.perm_ext_iff_of_nodup (hnodup hleft) (hnodup hright)).mpr h
  exact hperm.eq_of_pairwise (fun a b _ _ hab hba => absurd hab (lt_asymm hba)) hleft hright

theorem filter_eq_drop_findIdx {α : Type} {items : List α} {p : α → Bool}
    (h : items.Pairwise fun a b => p a = true → p b = true) :
    items.filter p = items.drop (items.findIdx p) := by
  induction items with
  | nil => rfl
  | cons a rest ih =>
    obtain ⟨hfirst, hrest⟩ := List.pairwise_cons.mp h
    cases hp : p a with
    | true =>
      have hall : (a :: rest).filter p = a :: rest := by
        rw [List.filter_eq_self]
        intro b hb
        rcases List.mem_cons.mp hb with rfl | hb
        · exact hp
        · exact hfirst b hb hp
      rw [hall, List.findIdx_cons, hp]
      rfl
    | false =>
      rw [List.filter_cons_of_neg (by simp [hp]), ih hrest, List.findIdx_cons, hp]
      rfl

theorem Lists.view_eq {visible es : List Entry} {items : List (Key × Bytes)}
    (h : Lists seq visible items) (wanted : Key → Bool) (hdistinct : Distinct visible) (hsorted : Sorted es)
    (hes : ∀ e, e.seq ≤ seq → (e ∈ es ↔ e ∈ visible ∧ wanted e.userKey = true)) :
    view (upTo seq es) = items.filter fun p => wanted p.1 := by
  have hup : Sorted (upTo seq es) := List.Pairwise.sublist List.filter_sublist hsorted
  have hmem : ∀ e, e ∈ upTo seq es ↔ e.seq ≤ seq ∧ e ∈ visible ∧ wanted e.userKey = true := by
    intro e
    rw [upTo, List.mem_filter, decide_eq_true_iff]
    exact ⟨fun he => ⟨he.2, (hes e he.2).mp he.1⟩, fun he => ⟨(hes e he.1).mpr he.2, he.1⟩⟩
  have htwice : upTo seq (upTo seq es) = upTo seq es := by simp [upTo]
  have hdistinct' : Distinct (upTo seq es) := fun a ha b hb =>
    hdistinct a ((hmem a).mp ha).2.1 b ((hmem b).mp hb).2.1
  apply eq_of_keys_lt (view_keys_lt (keysSorted_of_sorted hup)) (h.sorted.sublist List.filter_sublist)
  intro p
  rw [List.mem_filter, ← htwice, mem_view_upTo hup hdistinct' seq p.1 p.2, h.mem p.1 p.2]
  constructor
  · rintro ⟨e, hnewest, hvalue⟩
    obtain ⟨hseq, hin, hwanted⟩ := (hmem e).mp hnewest.mem
    rw [hnewest.hasKey] at hwanted
    refine ⟨⟨e, ⟨hin, hnewest.hasKey, hseq, fun x hx hkey hxseq => ?_⟩, hvalue⟩, hwanted⟩
    exact hnewest.largest x ((hmem x).mpr ⟨hxseq, hx, by rw [hkey]; exact hwanted⟩) hkey hxseq
  · rintro ⟨⟨e, hnewest, hvalue⟩, hwanted⟩
    refine ⟨e, ⟨(hmem e).mpr ⟨hnewest.visible, hnewest.mem, ?_⟩, hnewest.hasKey, hnewest.visible,
      fun x hx => hnewest.largest x ((hmem x).mp hx).2.1⟩, hvalue⟩
    rw [hnewest.hasKey]
    exact hwanted

theorem length_view_le (es : List Entry) : (view es).length ≤ es.length := by
  have hfirsts : ∀ last, (firsts last es).length ≤ es.length := by
    induction es with
    | nil => exact fun _ => le_refl _
    | cons e rest ih =>
      intro last
      unfold firsts
      split
      · exact (ih last).trans (Nat.le_succ _)
      · exact Nat.succ_le_succ (ih _)
  rw [view, List.length_map]
  exact (List.length_filter_le _ _).trans (hfirsts none)

theorem takeWhile_lt {items : List (Key × Bytes)} (h : items.Pairwise fun a b => a.1 < b.1)
    {index : Nat} (hindex : index < items.length) {key : Key} (hkey : key = items[index].1) :
    items.takeWhile (fun p => p.1 < key) = items.take index := by
  have hpairs := List.pairwise_iff_getElem.mp h
  have hfront : ∀ p ∈ items.take index, decide (p.1 < key) = true := by
    intro p hp
    obtain ⟨j, hj, rfl⟩ := List.mem_iff_getElem.mp hp
    rw [List.length_take] at hj
    rw [List.getElem_take, hkey]
    exact decide_eq_true (hpairs j index (by omega) hindex (by omega))
  have hback : (items.drop index).takeWhile (fun p => p.1 < key) = [] := by
    rw [List.drop_eq_getElem_cons hindex, List.takeWhile_cons_of_neg (by simp [hkey])]
  calc items.takeWhile (fun p => p.1 < key)
      = (items.take index ++ items.drop index).takeWhile (fun p => p.1 < key) := by
        rw [List.take_append_drop]
    _ = items.take index := by
        rw [List.takeWhile_append_of_pos hfront, hback, List.append_nil]

namespace DBIterator

def shown (d : DBIterator ι) : Option (Key × Bytes) :=
  if d.valid then some (d.savedKey, d.savedValue) else none

def operate (fuel : Nat) (d : DBIterator ι) : Move Key → DBIterator ι
  | .first => d.seekToFirst fuel
  | .last => d.seekToLast fuel
  | .seek target => d.seek fuel target
  | .next => d.next fuel
  | .prev => d.prev fuel

/-- The order of `Seek`: the first pair whose key is not below the target. -/
def reached (target : Key) (p : Key × Bytes) : Bool := target ≤ p.1

/-! The loops call `Next` only where the merging iterator is valid. -/

theorem skipKey_keeps {P : MergingIterator ι → Prop}
    (hnext : ∀ it, P it → it.valid = true → P it.next) (key : Key) (fuel : Nat)
    {it : MergingIterator ι} (h : P it) : P (skipKey key fuel it) := by
  induction fuel generalizing it with
  | zero => exact h
  | succ fuel ih =>
    unfold skipKey
    split
    · rename_i hgoes
      exact ih (hnext it h hgoes.1)
    · exact h

theorem findEntry_keeps {P : MergingIterator ι → Prop}
    (hnext : ∀ it, P it → it.valid = true → P it.next) (sequence fuel : Nat)
    {it : MergingIterator ι} (h : P it) : P (findEntry sequence fuel it).1 := by
  induction fuel generalizing it with
  | zero => exact h
  | succ fuel ih =>
    unfold findEntry
    split
    · rename_i hvalid
      split
      · exact ih (hnext it h hvalid)
      · split
        · exact h
        · split
          · exact ih (skipKey_keeps hnext _ _ h)
          · exact ih (hnext it h hvalid)
    · exact h

theorem findEntry_some {sequence fuel : Nat} {it it' : MergingIterator ι} {e : Entry}
    (h : findEntry sequence fuel it = (it', some e)) :
    e.seq ≤ sequence ∧ e.type = kTypeValue := by
  induction fuel generalizing it with
  | zero => cases h
  | succ fuel ih =>
    unfold findEntry at h
    split at h
    · split at h
      · exact ih h
      · rename_i hseq
        split at h
        · rename_i htype
          cases h
          exact ⟨Nat.not_lt.mp hseq, htype⟩
        · split at h
          · exact ih h
          · exact ih h
    · cases h

theorem drains_invalid {it : MergingIterator ι} {es : List Entry} (h : Yields it es) :
    Drains (fun last : MergingIterator ι => InternalIterator.valid last = false) it es := by
  induction es generalizing it with
  | nil => exact ⟨h, h⟩
  | cons e rest ih => exact ⟨h.1, h.2.1, ih h.2.2⟩

/-! Where the iterator stands. -/

variable {seens : List (List Entry)} {items : List (Key × Bytes)}

/-- The merging iterator stands at the entry of the pair with this index, or at the end, and
from there on the user sees the pairs from this index on. -/
structure Inner (seq bound : Nat) (seens : List (List Entry)) (items : List (Key × Bytes))
    (it : MergingIterator ι) (index : Nat) (es : List Entry) : Prop extends
    MergingIterator.Shows seq bound seens it es where
  view : view (upTo seq es) = items.drop index
  head : ∀ e, es.head? = some e → e.seq ≤ seq ∧ e.type = kTypeValue ∧
    items[index]? = some (e.userKey, e.value)

/-- The iterator shows the pair with this index, and its merging iterator stands there. -/
def PlacedAt (seq bound : Nat) (seens : List (List Entry)) (items : List (Key × Bytes))
    (d : DBIterator ι) (index : Nat) : Prop :=
  d.sequence = seq ∧ d.shown = items[index]? ∧
    ∃ it es, d.iter = some it ∧ Inner seq bound seens items it index es

/-- The iterator shows what the cursor shows. Behind `Prev` and `SeekToLast` its merging
iterator stands one pair further on. -/
def Placed (seq bound : Nat) (seens : List (List Entry)) (items : List (Key × Bytes))
    (d : DBIterator ι) (position : Option Nat) : Prop :=
  d.sequence = seq ∧ d.shown = itemAt items position ∧
    ∃ it index es, d.iter = some it ∧ Inner seq bound seens items it index es ∧
      ∀ i, position = some i → index = i ∨ index = i + 1

theorem PlacedAt.placed {d : DBIterator ι} {index : Nat}
    (h : PlacedAt seq bound seens items d index) :
    Placed seq bound seens items d (place items index) := by
  obtain ⟨hsequence, hshown, it, es, hiter, hinner⟩ := h
  refine ⟨hsequence, by rw [itemAt_place, hshown], it, index, es, hiter, hinner, fun i hi => ?_⟩
  unfold place at hi
  split at hi
  · exact Or.inl (Option.some.inj hi)
  · cases hi

theorem findNextUserEntry_placed {d : DBIterator ι} {it : MergingIterator ι} {es : List Entry}
    {index fuel : Nat} (hsequence : d.sequence = seq)
    (h : MergingIterator.Shows seq bound seens it es)
    (hview : Strata.view (upTo seq es) = items.drop index)
    (hfuel : seens.length * bound < fuel) :
    PlacedAt seq bound seens items (d.findNextUserEntry fuel it) index := by
  have hlength := h.length
  have hsources := findEntry_keeps
    (fun it hit hvalid => MergingIterator.Sources.next hit hvalid) seq fuel h.sources
  unfold findNextUserEntry
  rw [hsequence]
  rcases findEntry_view (drains_invalid h.yields) (keysSorted_of_sorted h.sorted) h.types
      (show es.length < fuel by omega) with
    ⟨it', hfound, hend, hnone⟩ | ⟨it', e, rest, hfound, hdrains, hpart, hsome⟩
  · rw [hfound] at hsources ⊢
    rw [hnone] at hview
    have hover : items.length ≤ index := List.drop_eq_nil_iff.mp hview.symm
    refine ⟨rfl, ?_, it', [], rfl, ⟨hsources, hend, List.Pairwise.nil, ?_, Nat.zero_le _⟩,
      ?_, ?_⟩
    · rw [List.getElem?_eq_none hover]
      rfl
    · exact fun e he => (List.not_mem_nil he).elim
    · exact hview
    · intro e he
      cases he
  · rw [hfound] at hsources ⊢
    rw [hview] at hsome
    have hat : items[index]? = some (e.userKey, e.value) := by
      rw [← List.head?_drop, hsome]
      rfl
    have hless := hpart.length_le
    obtain ⟨hseq, hvalue⟩ := findEntry_some hfound
    refine ⟨rfl, hat.symm, it', e :: rest, rfl, ⟨hsources, hdrains.yields,
      List.Pairwise.sublist hpart h.sorted, fun x hx => h.types x (hpart.subset hx), by omega⟩, ?_, ?_⟩
    · rw [view_upTo_cons hseq (keysSorted_of_sorted (List.Pairwise.sublist hpart h.sorted)),
        if_pos hvalue]
      exact hsome.symm
    · intro x hx
      cases hx
      exact ⟨hseq, hvalue, hat⟩

section Moves

variable {d : DBIterator ι} {fuel : Nat} {position : Option Nat}
  (hlists : Lists seq seens.flatten items) (hdistinct : Distinct seens.flatten)
  (hfuel : seens.length * bound < fuel)

include hlists hdistinct hfuel

theorem Placed.seekToFirst (h : Placed seq bound seens items d position) :
    PlacedAt seq bound seens items (d.seekToFirst fuel) 0 := by
  obtain ⟨hsequence, _, it, _, _, hiter, hinner, _⟩ := h
  obtain ⟨es, hshows, hmem⟩ := hinner.sources.seekToFirst
  have hview := hlists.view_eq (fun _ => true) hdistinct hshows.sorted fun e he => by
    rw [hmem e he]
    simp
  unfold DBIterator.seekToFirst
  rw [hiter]
  apply findNextUserEntry_placed hsequence hshows _ hfuel
  rw [hview, List.filter_true, List.drop_zero]

theorem Placed.seek (h : Placed seq bound seens items d position) (target : Key) :
    PlacedAt seq bound seens items (d.seek fuel target) (items.findIdx (reached target)) := by
  obtain ⟨hsequence, _, it, _, _, hiter, hinner, _⟩ := h
  obtain ⟨es, hshows, hmem⟩ := hinner.sources.seek target
  have hview := hlists.view_eq (fun key => target ≤ key) hdistinct hshows.sorted
    fun e he => by
      rw [hmem e he]
      simp
  unfold DBIterator.seek
  rw [hiter]
  apply findNextUserEntry_placed hsequence hshows _ hfuel
  rw [hview]
  apply filter_eq_drop_findIdx
  apply hlists.sorted.imp
  intro a b hlt hreached
  simp only [decide_eq_true_eq] at hreached ⊢
  exact le_trans hreached (le_of_lt hlt)

omit hdistinct in
theorem Placed.next {index : Nat} (h : Placed seq bound seens items d (some index))
    (hindex : index < items.length) :
    PlacedAt seq bound seens items (d.next fuel) (index + 1) := by
  obtain ⟨hsequence, hshown, it, inner, es, hiter, hinner, hwhere⟩ := h
  have hlength := hinner.length
  have hitem : itemAt items (some index) = some items[index] := List.getElem?_eq_getElem hindex
  have hkey : d.savedKey = items[index].1 := by
    rw [hitem, DBIterator.shown] at hshown
    split at hshown
    · exact congrArg Prod.fst (Option.some.inj hshown)
    · cases hshown
  unfold DBIterator.next
  rw [hiter]
  simp only
  have hskip := skipKey_drains d.savedKey (drains_invalid hinner.yields)
    (show es.length ≤ fuel by omega)
  have hsub := List.dropWhile_sublist (fun e => decide (e.userKey = d.savedKey)) (l := es)
  have hless := hsub.length_le
  refine findNextUserEntry_placed hsequence ⟨skipKey_keeps (fun it hit hvalid =>
    MergingIterator.Sources.next hit hvalid) _ _ hinner.sources, hskip.yields,
    List.Pairwise.sublist hsub hinner.sorted, fun e he => hinner.types e (hsub.subset he), by omega⟩
    ?_ hfuel
  have hview := hinner.view
  rcases hwhere index rfl with rfl | rfl
  · -- it stands at the entry of the pair, and the loop leaves the entries of the key behind
    rw [List.drop_eq_getElem_cons hindex] at hview
    cases es with
    | nil => cases hview
    | cons e rest =>
      obtain ⟨hseq, hvalue, hat⟩ := hinner.head e rfl
      rw [List.getElem?_eq_getElem hindex] at hat
      have hsame : e.userKey = d.savedKey := by rw [hkey, Option.some.inj hat]
      rw [view_upTo_cons hseq (keysSorted_of_sorted hinner.sorted), if_pos hvalue] at hview
      rw [List.dropWhile_cons_of_pos (by simpa using hsame), ← hsame]
      exact (List.cons.inj hview).2
  · -- it stands at the next pair, and the loop has nothing to do
    cases es with
    | nil => exact hview
    | cons e rest =>
      obtain ⟨_, _, hat⟩ := hinner.head e rfl
      obtain ⟨hnext, hpair⟩ := List.getElem?_eq_some_iff.mp hat
      have hlt := List.pairwise_iff_getElem.mp hlists.sorted index (index + 1) hindex hnext (by omega)
      rw [hpair, ← hkey] at hlt
      rw [List.dropWhile_cons_of_neg (by simpa using ne_of_gt hlt)]
      exact hview

omit hdistinct in
theorem PlacedAt.passWhile {index : Nat} (goesOn : Key → Bool) (passed : Option (Key × Bytes))
    (h : PlacedAt seq bound seens items d index) (turns : Nat)
    (hturns : items.length < index + turns) :
    ∃ d', DBIterator.passWhile goesOn fuel turns d passed =
        (d', (((items.drop index).takeWhile fun p => goesOn p.1).getLast?).or passed) ∧
      PlacedAt seq bound seens items d'
        (index + ((items.drop index).takeWhile fun p => goesOn p.1).length) := by
  induction turns generalizing d index passed with
  | zero =>
    have hnone : items.drop index = [] := List.drop_eq_nil_iff.mpr (by omega)
    rw [hnone]
    exact ⟨d, rfl, h⟩
  | succ turns ih =>
    have hshown := h.2.1
    unfold DBIterator.passWhile
    by_cases hindex : index < items.length
    · rw [List.getElem?_eq_getElem hindex, DBIterator.shown] at hshown
      split at hshown
      · rename_i hvalid
        have hpair : (d.savedKey, d.savedValue) = items[index] := Option.some.inj hshown
        rw [List.drop_eq_getElem_cons hindex, ← hpair, List.takeWhile_cons]
        simp only [hvalid, Bool.true_and]
        cases hgoes : goesOn d.savedKey with
        | false => exact ⟨d, by simp, by simpa using h⟩
        | true =>
          have hplaced := h.placed
          rw [place, if_pos hindex] at hplaced
          have hmoved := hplaced.next hlists hfuel hindex
          obtain ⟨d', hpass, hend⟩ := ih (some (d.savedKey, d.savedValue)) hmoved (by omega)
          refine ⟨d', ?_, ?_⟩
          · simp only [if_true]
            rw [hpass, List.getLast?_cons]
            cases hlast : ((items.drop (index + 1)).takeWhile fun p => goesOn p.1).getLast? with
            | none => simp
            | some p => simp
          · simp only [if_true, List.length_cons]
            rw [Nat.add_assoc, Nat.add_comm 1] at hend
            exact hend
      · cases hshown
    · have hnone : items.drop index = [] := List.drop_eq_nil_iff.mpr (by omega)
      rw [List.getElem?_eq_none (by omega), DBIterator.shown] at hshown
      split at hshown
      · cases hshown
      · rename_i hinvalid
        rw [hnone]
        simp only [hinvalid, Bool.false_and]
        exact ⟨d, by simp, h⟩

omit hdistinct hlists in
theorem PlacedAt.length_lt (h : PlacedAt seq bound seens items d 0) : items.length < fuel := by
  obtain ⟨_, _, it, es, _, hinner⟩ := h
  have hview := congrArg List.length hinner.view
  have hle := (length_view_le (upTo seq es)).trans (List.length_filter_le _ _)
  have hlength := hinner.length
  rw [List.drop_zero] at hview
  omega

omit hlists hdistinct hfuel in
theorem PlacedAt.back {index : Nat} {p : Key × Bytes}
    (h : PlacedAt seq bound seens items d (index + 1)) (hp : items[index]? = some p) :
    Placed seq bound seens items { d with savedKey := p.1, savedValue := p.2, valid := true }
      (some index) := by
  obtain ⟨hsequence, _, it, es, hiter, hinner⟩ := h
  refine ⟨hsequence, hp.symm, it, index + 1, es, hiter, hinner, fun i hi => ?_⟩
  exact Or.inr (congrArg (· + 1) (Option.some.inj hi))

theorem Placed.seekToLast (h : Placed seq bound seens items d position) :
    Placed seq bound seens items (d.seekToLast fuel) (place items (items.length - 1)) := by
  have hfirst := h.seekToFirst hlists hdistinct hfuel
  obtain ⟨_, _, it, _, _, hiter, _⟩ := h
  have hturns := hfirst.length_lt hfuel
  obtain ⟨d', hpass, hend⟩ := hfirst.passWhile hlists hfuel (fun _ => true) none fuel (by omega)
  have hall : items.takeWhile (fun _ => true) = items := by
    rw [← List.append_nil items, List.takeWhile_append_of_pos fun _ _ => rfl]
    rfl
  rw [List.drop_zero, hall, Option.or_none] at hpass
  rw [List.drop_zero, hall, Nat.zero_add] at hend
  unfold DBIterator.seekToLast
  rw [hiter]
  simp only
  rw [hpass]
  cases hlast : items.getLast? with
  | none =>
    have hempty : items = [] := List.getLast?_eq_none_iff.mp hlast
    subst hempty
    exact hend.placed
  | some p =>
    have hne : items.length ≠ 0 := by
      intro hzero
      rw [List.eq_nil_of_length_eq_zero hzero] at hlast
      cases hlast
    rw [place, if_pos (by omega)]
    rw [← Nat.sub_add_cancel (Nat.one_le_iff_ne_zero.mpr hne)] at hend
    apply hend.back
    rw [← List.getLast?_eq_getElem?]
    exact hlast

theorem Placed.prev {index : Nat} (h : Placed seq bound seens items d (some index))
    (hindex : index < items.length) :
    Placed seq bound seens items (d.prev fuel)
      (if index = 0 then none else some (index - 1)) := by
  have hfirst := h.seekToFirst hlists hdistinct hfuel
  obtain ⟨_, hshown, _⟩ := h
  have hkey : d.savedKey = items[index].1 := by
    have hitem : itemAt items (some index) = some items[index] := List.getElem?_eq_getElem hindex
    rw [hitem, DBIterator.shown] at hshown
    split at hshown
    · exact congrArg Prod.fst (Option.some.inj hshown)
    · cases hshown
  have hturns := hfirst.length_lt hfuel
  obtain ⟨d', hpass, hend⟩ := hfirst.passWhile hlists hfuel (fun key => key < d.savedKey)
    none fuel (by omega)
  have hfront := takeWhile_lt hlists.sorted hindex hkey
  rw [List.drop_zero, hfront, Option.or_none] at hpass
  rw [List.drop_zero, hfront, List.length_take, Nat.zero_add, min_eq_left (le_of_lt hindex)] at hend
  unfold DBIterator.prev
  rw [hpass]
  by_cases hzero : index = 0
  · subst hzero
    obtain ⟨hsequence, _, it, es, hiter, hinner⟩ := hend
    refine ⟨hsequence, rfl, it, 0, es, hiter, hinner, fun i hi => ?_⟩
    cases hi
  · have hlast : (items.take index).getLast? = items[index - 1]? := by
      rw [List.getLast?_eq_getElem?, List.length_take, min_eq_left (le_of_lt hindex),
        List.getElem?_take_of_lt (by omega)]
    have hsome := List.getElem?_eq_getElem (l := items) (i := index - 1) (by omega)
    rw [hlast, hsome, if_neg hzero]
    rw [← Nat.sub_add_cancel (Nat.one_le_iff_ne_zero.mpr hzero)] at hend
    exact hend.back hsome

theorem Placed.operate (h : Placed seq bound seens items d position) (m : Move Key)
    (hrelative : m.relative = true → d.valid = true) :
    Placed seq bound seens items (d.operate fuel m) (moved reached items position m) := by
  -- a move from the current pair starts at one
  have hpair : d.valid = true → ∃ index, position = some index ∧ index < items.length := by
    intro hvalid
    have hshown := h.2.1
    rw [DBIterator.shown, if_pos hvalid] at hshown
    cases position with
    | none => cases hshown
    | some index => exact ⟨index, rfl, (List.getElem?_eq_some_iff.mp hshown.symm).1⟩
  cases m with
  | first => exact (h.seekToFirst hlists hdistinct hfuel).placed
  | last => exact h.seekToLast hlists hdistinct hfuel
  | seek target => exact (h.seek hlists hdistinct hfuel target).placed
  | next =>
    obtain ⟨index, rfl, hindex⟩ := hpair (hrelative rfl)
    exact (h.next hlists hfuel hindex).placed
  | prev =>
    obtain ⟨index, rfl, hindex⟩ := hpair (hrelative rfl)
    have hprev := h.prev hlists hdistinct hfuel hindex
    cases index with
    | zero => exact hprev
    | succ index => exact hprev

end Moves

/-- After each of the moves the iterator shows what the cursor shows. `Next` and `Prev`
are called only while it is valid. -/
def Follows (fuel : Nat) (items : List (Key × Bytes)) :
    DBIterator ι → Option Nat → List (Move Key) → Prop
  | _, _, [] => True
  | d, position, m :: moves => (m.relative = true → d.valid = true) →
    (d.operate fuel m).shown = itemAt items (moved reached items position m) ∧
      Follows fuel items (d.operate fuel m) (moved reached items position m) moves

theorem Placed.follows {d : DBIterator ι} {fuel : Nat} {position : Option Nat}
    (hlists : Lists seq seens.flatten items) (hdistinct : Distinct seens.flatten)
    (hfuel : seens.length * bound < fuel) (h : Placed seq bound seens items d position)
    (moves : List (Move Key)) : Follows fuel items d position moves := by
  induction moves generalizing d position with
  | nil => trivial
  | cons m moves ih =>
    intro hrelative
    have hmoved := h.operate hlists hdistinct hfuel m hrelative
    exact ⟨hmoved.2.1, ih hmoved⟩

theorem new_follows {children : List ι} {fuel : Nat}
    (hsources : List.Forall₂ (SourceOf seq bound) seens children)
    (hlists : Lists seq seens.flatten items) (hdistinct : Distinct seens.flatten)
    (hfuel : seens.length * bound < fuel) (moves : List (Move Key)) :
    Follows fuel items (DBIterator.new (some ⟨children, none⟩) seq) none moves := by
  apply Placed.follows hlists hdistinct hfuel
  refine ⟨rfl, rfl, ⟨children, none⟩, items.length, [], rfl, ⟨⟨hsources, rfl, List.Pairwise.nil,
    fun e he => (List.not_mem_nil he).elim, Nat.zero_le _⟩, ?_, fun e he => ?_⟩, fun i hi => ?_⟩
  · rw [List.drop_length]
    rfl
  · cases he
  · cases hi

end DBIterator

end Strata
