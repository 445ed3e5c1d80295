import Mathlib.Data.List.Forall2
import Strata.Library.Search
import Strata.Memtable
import Strata.MergingIterator
import Strata.Table

/-! What a merging iterator shows: the entries of its children, in order. -/
namespace Strata

open InternalIterator Memtable

theorem not_mergeBefore_iff {a b : Entry} : ¬ mergeBefore a b ↔
    b.userKey ≤ a.userKey ∧ (a.userKey = b.userKey →
      a.seq ≤ b.seq ∧ (a.seq = b.seq → a.type ≤ b.type)) := by
  simp only [mergeBefore, not_or, not_and, not_lt]

theorem not_mergeBefore_trans {a b c : Entry} (hab : ¬ mergeBefore a b) (hbc : ¬ mergeBefore b c) :
    ¬ mergeBefore a c := by
  rw [not_mergeBefore_iff] at *
  refine ⟨le_trans hbc.1 hab.1, fun hac => ?_⟩
  have hkey : a.userKey = b.userKey := le_antisymm (hac ▸ hbc.1) hab.1
  obtain ⟨hseq, htype⟩ := hab.2 hkey
  obtain ⟨hseq', htype'⟩ := hbc.2 (hkey.symm.trans hac)
  exact ⟨le_trans hseq hseq', fun heq => le_trans (htype (by omega)) (htype' (by omega))⟩

theorem mergeBefore_asymm {a b : Entry} (h : mergeBefore a b) : ¬ mergeBefore b a := by
  rw [not_mergeBefore_iff]
  rcases h with h | ⟨hkey, h⟩
  · exact ⟨le_of_lt h, fun heq => absurd h (by simp [heq])⟩
  · refine ⟨le_of_eq hkey, fun _ => ?_⟩
    rcases h with h | ⟨hseq, htype⟩
    · exact ⟨by omega, by omega⟩
    · exact ⟨by omega, fun _ => le_of_lt htype⟩

theorem not_before_of_not_mergeBefore {a b : Entry} (h : ¬ mergeBefore a b) : ¬ a.before b := by
  intro hbefore
  exact h (hbefore.imp id fun ⟨hkey, hseq⟩ => ⟨hkey, Or.inl hseq⟩)

theorem not_before_first {es : List Entry} (h : Sorted es) {x e : Entry} (hx : x ∈ es)
    (hfirst : ∀ y, es.head? = some y → ¬ y.before e) : ¬ x.before e := by
  cases es with
  | nil => cases hx
  | cons first rest =>
    have hhead := hfirst first rfl
    rcases List.mem_cons.mp hx with rfl | hx
    · exact hhead
    · exact not_before_trans hhead ((List.pairwise_cons.mp h).1 x hx)

namespace MergingIterator

variable {ι : Type} [InternalIterator ι] {pairs : List (ι × List Entry)}

def Children (pairs : List (ι × List Entry)) : Prop := ∀ p ∈ pairs, Yields p.1 p.2

theorem smallestFrom_eq (children : List ι) (index : Nat) (best : Option (Nat × Entry)) :
    smallestFrom children index best =
      Library.Search.best mergeBefore (children.map shown) index best := by
  induction children generalizing index best with
  | nil => rfl
  | cons child rest ih =>
    unfold smallestFrom
    rw [List.map_cons, shown]
    by_cases hvalid : InternalIterator.valid child = true
    · rw [if_pos hvalid, if_pos hvalid]
      cases best with
      | none => exact ih _ _
      | some so =>
        obtain ⟨i, e⟩ := so
        simp only [Library.Search.best, ih]
    · rw [if_neg hvalid, if_neg hvalid]
      exact ih _ _

theorem Children.shown (h : Children pairs) :
    (pairs.map Prod.fst).map shown = pairs.map fun p => p.2.head? := by
  rw [List.map_map]
  apply List.map_congr_left
  intro p hp
  exact (h p hp).shown

theorem smallestFrom_none (h : Children pairs)
    (hresult : smallestFrom (pairs.map Prod.fst) 0 none = none) : ∀ p ∈ pairs, p.2 = [] := by
  intro p hp
  rw [smallestFrom_eq, h.shown] at hresult
  cases hes : p.2 with
  | nil => rfl
  | cons e rest =>
    have hnone := (Library.Search.best_none hresult).2 e
    exact absurd (List.mem_map.mpr ⟨p, hp, by rw [hes]; rfl⟩) hnone

theorem smallestFrom_some (h : Children pairs) {i : Nat} {e : Entry}
    (hresult : smallestFrom (pairs.map Prod.fst) 0 none = some (i, e)) :
    (∃ child rest, pairs[i]? = some (child, e :: rest)) ∧
      ∀ p ∈ pairs, ∀ x, p.2.head? = some x → ¬ mergeBefore x e := by
  rw [smallestFrom_eq, h.shown] at hresult
  have hasymm : ∀ a b : Entry, mergeBefore a b → ¬ mergeBefore b a := fun _ _ => mergeBefore_asymm
  obtain ⟨horigin, _, hothers⟩ := Library.Search.best_some hasymm
    (fun _ _ _ => not_mergeBefore_trans) hresult
  constructor
  · rcases horigin with hnone | ⟨j, hj, hget⟩
    · cases hnone
    · rw [Nat.zero_add] at hj
      subst hj
      rw [List.getElem?_map, Option.map_eq_some_iff] at hget
      obtain ⟨⟨child, es⟩, hpair, hhead⟩ := hget
      cases es with
      | nil => cases hhead
      | cons x rest =>
        cases hhead
        exact ⟨child, rest, hpair⟩
  · intro p hp x hx
    exact hothers x (List.mem_map.mpr ⟨p, hp, hx⟩)

structure Merged (it : MergingIterator ι) (pairs : List (ι × List Entry)) : Prop where
  children : it.children = pairs.map Prod.fst
  yields : Children pairs
  current : it.current = (smallestFrom it.children 0 none).map Prod.fst

theorem findSmallest_merged {it : MergingIterator ι} (hchildren : it.children = pairs.map Prod.fst)
    (hyields : Children pairs) : Merged it.findSmallest pairs :=
  ⟨hchildren, hyields, rfl⟩

def advance (pairs : List (ι × List Entry)) (index : Nat) : List (ι × List Entry) :=
  pairs.modify index fun p => (InternalIterator.next p.1, p.2.tail)

theorem advance_children (h : Children pairs) {index : Nat} {it : ι} {e : Entry}
    {rest : List Entry} (hget : pairs[index]? = some (it, e :: rest)) :
    Children (advance pairs index) := by
  intro p hp
  obtain ⟨j, hj⟩ := List.mem_iff_getElem?.mp hp
  rw [advance, List.getElem?_modify] at hj
  obtain ⟨q, hq, rfl⟩ := Option.map_eq_some_iff.mp hj
  split
  · rename_i heq
    subst heq
    rw [hget] at hq
    obtain rfl := Option.some.inj hq
    exact (h _ (List.mem_of_getElem? hget)).2.2
  · exact h q (List.mem_of_getElem? hq)

theorem advance_perm {index : Nat} {it : ι} {e : Entry} {rest : List Entry}
    (hget : pairs[index]? = some (it, e :: rest)) :
    (pairs.map Prod.snd).flatten.Perm (e :: ((advance pairs index).map Prod.snd).flatten) := by
  induction pairs generalizing index with
  | nil => cases hget
  | cons p others ih =>
    cases index with
    | zero =>
      obtain rfl := Option.some.inj hget
      exact List.Perm.refl _
    | succ index =>
      have hrest := (ih (by simpa using hget)).append_left p.2
      exact hrest.trans List.perm_middle

theorem Merged.next {it : MergingIterator ι} (h : Merged it pairs) {index : Nat} {child : ι}
    {e : Entry} {rest : List Entry} (hcurrent : it.current = some index)
    (hget : pairs[index]? = some (child, e :: rest)) :
    Merged it.next (advance pairs index) := by
  unfold MergingIterator.next
  simp only [hcurrent]
  apply findSmallest_merged
  · rw [h.children, advance]
    apply List.ext_getElem?
    intro j
    rw [List.getElem?_modify, List.getElem?_map, List.getElem?_map, List.getElem?_modify]
    by_cases hj : index = j
    · subst hj
      simp [hget]
    · cases pairs[j]? <;> simp [hj]
  · exact advance_children h.yields hget

theorem advance_sorted (h : ∀ p ∈ pairs, Sorted p.2) {index : Nat} :
    ∀ p ∈ advance pairs index, Sorted p.2 := by
  intro p hp
  obtain ⟨j, hj⟩ := List.mem_iff_getElem?.mp hp
  rw [advance, List.getElem?_modify] at hj
  obtain ⟨q, hq, rfl⟩ := Option.map_eq_some_iff.mp hj
  have hq' := h q (List.mem_of_getElem? hq)
  split
  · exact hq'.sublist (List.tail_sublist _)
  · exact hq'

theorem Merged.cases {it : MergingIterator ι} (h : Merged it pairs) :
    (it.valid = false ∧ ∀ p ∈ pairs, p.2 = []) ∨
      ∃ index child e rest, it.current = some index ∧ pairs[index]? = some (child, e :: rest) ∧
        it.valid = true ∧ it.entry = e ∧
        ∀ p ∈ pairs, ∀ x, p.2.head? = some x → ¬ mergeBefore x e := by
  have hcurrent := h.current
  rw [h.children] at hcurrent
  cases hsmallest : smallestFrom (pairs.map Prod.fst) 0 none with
  | none =>
    rw [hsmallest, Option.map_none] at hcurrent
    refine Or.inl ⟨?_, smallestFrom_none h.yields hsmallest⟩
    simp [MergingIterator.valid, MergingIterator.child, hcurrent]
  | some result =>
    obtain ⟨i, e⟩ := result
    obtain ⟨⟨child, rest, hget⟩, hothers⟩ := smallestFrom_some h.yields hsmallest
    rw [hsmallest] at hcurrent
    have hindex : it.current = some i := hcurrent
    have hchild : it.child = some child := by
      simp [MergingIterator.child, hindex, h.children, hget]
    have hyield := h.yields _ (List.mem_of_getElem? hget)
    refine Or.inr ⟨i, child, e, rest, hindex, hget, ?_, ?_, hothers⟩
    · rw [MergingIterator.valid, hchild]
      exact hyield.1
    · rw [MergingIterator.entry, hchild]
      exact hyield.2.1

theorem Merged.yields_sorted {it : MergingIterator ι} (h : Merged it pairs)
    (hsorted : ∀ p ∈ pairs, Sorted p.2) :
    ∃ merged, Yields it merged ∧ merged.Perm (pairs.map Prod.snd).flatten ∧ Sorted merged := by
  generalize hlength : (pairs.map Prod.snd).flatten.length = n
  induction n using Nat.strong_induction_on generalizing it pairs with
  | _ n ih =>
  rcases h.cases with ⟨hinvalid, hnone⟩ |
    ⟨index, child, e, rest, hindex, hget, hvalid, hentry, hothers⟩
  · have hempty : (pairs.map Prod.snd).flatten = [] := by
      rw [List.flatten_eq_nil_iff]
      intro es hes
      obtain ⟨p, hp, rfl⟩ := List.mem_map.mp hes
      exact hnone p hp
    exact ⟨[], hinvalid, by rw [hempty], List.Pairwise.nil⟩
  · have hperm := advance_perm hget
    have hless := hperm.length_eq
    rw [List.length_cons] at hless
    obtain ⟨merged, hmerged, hsame, hrest⟩ := ih _ (by omega) (h.next hindex hget)
      (fun p hp => advance_sorted hsorted p hp) rfl
    refine ⟨e :: merged, ⟨hvalid, hentry, hmerged⟩, (hsame.cons e).trans hperm.symm,
      List.pairwise_cons.mpr ⟨fun x hx => ?_, hrest⟩⟩
    have hx' := hperm.symm.subset (List.mem_cons_of_mem _ (hsame.subset hx))
    obtain ⟨es, hes, hxes⟩ := List.mem_flatten.mp hx'
    obtain ⟨p, hp, rfl⟩ := List.mem_map.mp hes
    exact not_before_first (hsorted p hp) hxes
      fun y hy => not_before_of_not_mergeBefore (hothers p hp y hy)

theorem status_isOk (it : MergingIterator ι) :
    it.status.isOk = it.children.all fun child => (InternalIterator.status child).isOk := by
  rw [MergingIterator.status]
  induction it.children with
  | nil => rfl
  | cons child rest ih =>
    rw [List.map_cons, List.all_cons]
    cases hok : (InternalIterator.status child).isOk with
    | true => rw [List.find?_cons_of_neg (by simp [hok]), ih, Bool.true_and]
    | false =>
      rw [List.find?_cons_of_pos (by simp [hok]), Option.getD_some, hok, Bool.false_and]

def Ends (pairs : List (ι × List Entry)) (oks : List Bool) : Prop :=
  List.Forall₂ (fun p ok => Drains (fun last => (InternalIterator.status last).isOk = ok) p.1 p.2)
    pairs oks

theorem Ends.advance {oks : List Bool} (h : Ends pairs oks) {index : Nat} {it : ι} {e : Entry}
    {rest : List Entry} (hget : pairs[index]? = some (it, e :: rest)) :
    Ends (advance pairs index) oks := by
  unfold Ends at h ⊢
  induction h generalizing index with
  | nil => cases hget
  | cons hfirst hrest ih =>
    cases index with
    | zero =>
      cases hget
      exact List.Forall₂.cons hfirst.2.2 hrest
    | succ index => exact List.Forall₂.cons hfirst (ih hget)

theorem Ends.all {oks : List Bool} (h : Ends pairs oks) (hnone : ∀ p ∈ pairs, p.2 = []) :
    ((pairs.map Prod.fst).all fun child => (InternalIterator.status child).isOk) = oks.all id := by
  unfold Ends at h
  induction h with
  | nil => rfl
  | @cons p ok pairs oks hfirst _ ih =>
    have hp := hnone p (by simp)
    rw [hp] at hfirst
    rw [List.map_cons, List.all_cons, List.all_cons, hfirst.2,
      ih fun q hq => hnone q (List.mem_cons_of_mem _ hq)]
    rfl

theorem Merged.drains {it : MergingIterator ι} (h : Merged it pairs) {oks : List Bool}
    (hends : Ends pairs oks) {merged : List Entry} (hyields : Yields it merged) :
    Drains (fun last => last.status.isOk = oks.all id) it merged := by
  induction merged generalizing it pairs with
  | nil =>
    refine ⟨hyields, ?_⟩
    rcases h.cases with ⟨_, hnone⟩ | ⟨_, _, _, _, _, _, hvalid, _⟩
    · rw [status_isOk, h.children]
      exact hends.all hnone
    · have hinvalid : it.valid = false := hyields
      rw [hvalid] at hinvalid
      cases hinvalid
  | cons e rest ih =>
    refine ⟨hyields.1, hyields.2.1, ?_⟩
    rcases h.cases with ⟨hinvalid, _⟩ | ⟨index, child, _, _, hindex, hget, _⟩
    · have hvalid : it.valid = true := hyields.1
      rw [hvalid] at hinvalid
      cases hinvalid
    · exact ih (h.next hindex hget) (hends.advance hget) hyields.2.2

theorem seekToFirst_merged (pairs : List (ι × List Entry)) (current : Option Nat)
    (hyields : ∀ p ∈ pairs, Yields (InternalIterator.seekToFirst p.1) p.2) :
    Merged (MergingIterator.seekToFirst ⟨pairs.map Prod.fst, current⟩)
      (pairs.map fun p => (InternalIterator.seekToFirst p.1, p.2)) := by
  apply findSmallest_merged
  · simp
  · intro p hp
    obtain ⟨q, hq, rfl⟩ := List.mem_map.mp hp
    exact hyields q hq

theorem seekToFirst_sorted (pairs : List (ι × List Entry)) (current : Option Nat)
    (hyields : ∀ p ∈ pairs, Yields (InternalIterator.seekToFirst p.1) p.2)
    (hsorted : ∀ p ∈ pairs, Sorted p.2) :
    ∃ merged, Yields (MergingIterator.seekToFirst ⟨pairs.map Prod.fst, current⟩) merged ∧
      merged.Perm (pairs.map Prod.snd).flatten ∧ Sorted merged := by
  have hchildren := (seekToFirst_merged pairs current hyields).yields_sorted fun p hp => by
    obtain ⟨q, hq, rfl⟩ := List.mem_map.mp hp
    exact hsorted q hq
  simpa [Function.comp_def] using hchildren

end MergingIterator

/-- The first entry of every key, behind an entry of the key `last`. -/
def firsts : Option Key → List Entry → List Entry
  | _, [] => []
  | last, e :: rest =>
    if last = some e.userKey then firsts last rest else e :: firsts (some e.userKey) rest

theorem firsts_subset {last : Option Key} {es : List Entry} {e : Entry} (h : e ∈ firsts last es) :
    e ∈ es := by
  induction es generalizing last with
  | nil => cases h
  | cons first rest ih =>
    unfold firsts at h
    split at h
    · exact List.mem_cons_of_mem _ (ih h)
    · rcases List.mem_cons.mp h with rfl | h
      · simp
      · exact List.mem_cons_of_mem _ (ih h)

theorem firsts_dropWhile (key : Key) (es : List Entry) :
    firsts (some key) es = firsts none (es.dropWhile fun e => e.userKey = key) := by
  induction es with
  | nil => rfl
  | cons e rest ih =>
    by_cases hkey : e.userKey = key
    · simp [firsts, hkey, ih]
    · have hkey' : key ≠ e.userKey := fun h => hkey h.symm
      simp [firsts, hkey, hkey']

theorem mem_firsts {last : Option Key} {es : List Entry} (h : KeysSorted es)
    (hlast : ∀ key, last = some key → ∀ x ∈ es, key ≤ x.userKey) {e : Entry} :
    e ∈ firsts last es ↔ last ≠ some e.userKey ∧
      es.find? (fun x => x.userKey = e.userKey) = some e := by
  induction es generalizing last with
  | nil => simp [firsts]
  | cons x rest ih =>
    obtain ⟨hfirst, hrest⟩ := List.pairwise_cons.mp h
    have hrestIff := ih hrest (fun key hkey y hy => by
      obtain rfl := Option.some.inj hkey
      exact hfirst y hy)
    unfold firsts
    by_cases hx : last = some x.userKey
    · rw [if_pos hx, hx, hrestIff]
      by_cases hkey : x.userKey = e.userKey
      · simp [hkey]
      · simp [hkey]
    · rw [if_neg hx, List.mem_cons, hrestIff]
      by_cases hkey : x.userKey = e.userKey
      · simp only [hkey, ne_eq, not_true_eq_false, false_and, or_false, decide_true,
          List.find?_cons_of_pos, Option.some.injEq]
        rw [hkey] at hx
        exact ⟨fun heq => ⟨hx, heq.symm⟩, fun ⟨_, heq⟩ => heq.symm⟩
      · have hne : e ≠ x := fun heq => hkey (by rw [heq])
        simp only [hne, false_or, ne_eq, Option.some.injEq, hkey, not_false_eq_true, true_and,
          decide_false, Bool.false_eq_true, List.find?_cons_of_neg]
        refine ⟨fun hfind => ⟨fun hlast' => ?_, hfind⟩, fun hfind => hfind.2⟩
        have hle := hlast _ hlast' x (by simp)
        have hge := hfirst e (List.mem_of_find?_eq_some hfind)
        exact hkey (le_antisymm hge hle)

theorem firsts_keys_lt {last : Option Key} {es : List Entry} (h : KeysSorted es) :
    (firsts last es).Pairwise fun a b => a.userKey < b.userKey := by
  induction es generalizing last with
  | nil => exact List.Pairwise.nil
  | cons x rest ih =>
    obtain ⟨hfirst, hrest⟩ := List.pairwise_cons.mp h
    unfold firsts
    split
    · exact ih hrest
    · refine List.pairwise_cons.mpr ⟨fun y hy => ?_, ih hrest⟩
      have hle := hfirst y (firsts_subset hy)
      have hne := ((mem_firsts hrest (fun key hkey z hz => by
        obtain rfl := Option.some.inj hkey
        exact hfirst z hz)).mp hy).1
      exact lt_of_le_of_ne hle fun heq => hne (by rw [heq])

/-- What a user sees of a list of entries: the values of the first entries. -/
def view (es : List Entry) : List (Key × Bytes) :=
  ((firsts none es).filter fun e => e.type = kTypeValue).map fun e => (e.userKey, e.value)

theorem mem_view {es : List Entry} (h : KeysSorted es) {key : Key} {value : Bytes} :
    (key, value) ∈ view es ↔ lookupOf (es.find? fun x => x.userKey = key) = .found value := by
  simp only [view, List.mem_map, List.mem_filter, decide_eq_true_eq, Prod.mk.injEq]
  constructor
  · rintro ⟨e, ⟨hmem, hvalue⟩, rfl, rfl⟩
    rw [((mem_firsts h (by simp)).mp hmem).2, lookupOf, if_pos hvalue]
  · intro hfound
    cases hfind : es.find? fun x => x.userKey = key with
    | none => simp [hfind, lookupOf] at hfound
    | some e =>
      have hkey : e.userKey = key := by simpa using List.find?_some hfind
      by_cases hvalue : e.type = kTypeValue
      · rw [hfind, lookupOf, if_pos hvalue, Lookup.found.injEq] at hfound
        exact ⟨e, ⟨(mem_firsts h (by simp)).mpr ⟨by simp, by rw [hkey, hfind]⟩, hvalue⟩, hkey, hfound⟩
      · simp [hfind, lookupOf, hvalue] at hfound

theorem view_keys_lt {es : List Entry} (h : KeysSorted es) :
    (view es).Pairwise fun a b => a.1 < b.1 := by
  rw [view, List.pairwise_map]
  exact (firsts_keys_lt h).sublist List.filter_sublist

theorem view_congr {left right : List Entry} (hleft : KeysSorted left) (hright : KeysSorted right)
    (h : ∀ key value, lookupOf (left.find? fun x => x.userKey = key) = .found value ↔
      lookupOf (right.find? fun x => x.userKey = key) = .found value) : view left = view right := by
  have hnodup : ∀ {es : List Entry}, KeysSorted es → (view es).Nodup := fun hes =>
    (view_keys_lt hes).imp fun hlt heq => absurd (heq ▸ hlt) (lt_irrefl _)
  have hperm : (view left).Perm (view right) := by
    rw [List.perm_ext_iff_of_nodup (hnodup hleft) (hnodup hright)]
    rintro ⟨key, value⟩
    rw [mem_view hleft, mem_view hright, h]
  exact hperm.eq_of_pairwise (fun a b _ _ hab hba => absurd hab (lt_asymm hba))
    (view_keys_lt hleft) (view_keys_lt hright)

def upTo (sequence : Nat) (es : List Entry) : List Entry := es.filter fun e => e.seq ≤ sequence

theorem upTo_cons_of_gt {sequence : Nat} {e : Entry} (h : e.seq > sequence) (rest : List Entry) :
    upTo sequence (e :: rest) = upTo sequence rest := by
  rw [upTo, List.filter_cons_of_neg (by simpa using h)]
  rfl

theorem upTo_dropWhile {sequence : Nat} {e : Entry} {rest : List Entry}
    (h : KeysSorted (e :: rest)) :
    (upTo sequence rest).dropWhile (fun x => x.userKey = e.userKey) =
      upTo sequence (rest.dropWhile fun x => x.userKey = e.userKey) := by
  induction rest with
  | nil => rfl
  | cons x rest ih =>
    obtain ⟨hfirst, hrest⟩ := List.pairwise_cons.mp h
    have htail : KeysSorted (e :: rest) :=
      h.sublist ((List.sublist_cons_self x rest).cons_cons e)
    by_cases hkey : x.userKey = e.userKey
    · rw [List.dropWhile_cons_of_pos (by simpa using hkey), ← ih htail]
      by_cases hseq : x.seq ≤ sequence
      · simp [upTo, hseq, hkey]
      · simp [upTo, hseq]
    -- nothing behind has the key
    · have hlt : e.userKey < x.userKey := lt_of_le_of_ne (hfirst x (by simp)) (Ne.symm hkey)
      rw [List.dropWhile_cons_of_neg (by simpa using hkey)]
      have hnone : ∀ y ∈ upTo sequence (x :: rest), y.userKey ≠ e.userKey := by
        intro y hy
        have hy' := (List.mem_filter.mp hy).1
        rcases List.mem_cons.mp hy' with rfl | hmem
        · exact hkey
        · exact ne_of_gt (lt_of_lt_of_le hlt ((List.pairwise_cons.mp hrest).1 y hmem))
      cases hup : upTo sequence (x :: rest) with
      | nil => rfl
      | cons y others =>
        rw [List.dropWhile_cons_of_neg]
        simpa using hnone y (by rw [hup]; simp)

theorem view_upTo_cons {sequence : Nat} {e : Entry} (hseq : e.seq ≤ sequence) {rest : List Entry}
    (h : KeysSorted (e :: rest)) :
    view (upTo sequence (e :: rest)) =
      (if e.type = kTypeValue then [(e.userKey, e.value)] else []) ++
        view (upTo sequence (rest.dropWhile fun x => x.userKey = e.userKey)) := by
  have hcons : upTo sequence (e :: rest) = e :: upTo sequence rest := by
    simp [upTo, hseq]
  rw [hcons, ← upTo_dropWhile h]
  simp only [view, firsts, firsts_dropWhile]
  by_cases hvalue : e.type = kTypeValue <;> simp [hvalue]

namespace DBIterator

variable {ι : Type} [InternalIterator ι]

variable {last : MergingIterator ι → Prop}

theorem skipKey_drains (key : Key) {it : MergingIterator ι} {es : List Entry}
    (h : Drains last it es) {fuel : Nat} (hfuel : es.length ≤ fuel) :
    Drains last (skipKey key fuel it) (es.dropWhile fun e => e.userKey = key) := by
  induction fuel generalizing it es with
  | zero =>
    obtain rfl := List.eq_nil_of_length_eq_zero (Nat.le_zero.mp hfuel)
    exact h
  | succ fuel ih =>
    unfold skipKey
    cases es with
    | nil =>
      have hinvalid : it.valid = false := h.1
      simpa [hinvalid] using h
    | cons e rest =>
      obtain ⟨hvalid, hentry, hrest⟩ := h
      have hvalid' : it.valid = true := hvalid
      have hentry' : it.entry = e := hentry
      rw [List.length_cons] at hfuel
      by_cases hkey : e.userKey = key
      · rw [if_pos ⟨hvalid', by rw [hentry', hkey]⟩, List.dropWhile_cons_of_pos (by simpa using hkey)]
        exact ih hrest (by omega)
      · rw [if_neg (by simp [hentry', hkey]), List.dropWhile_cons_of_neg (by simpa using hkey)]
        exact ⟨hvalid, hentry, hrest⟩

/-- Where `FindNextUserEntry` stops: at an entry with a value that is the first
of what is left to see, or at the end with nothing left to see. -/
theorem findEntry_view {sequence : Nat} {it : MergingIterator ι} {es : List Entry}
    (h : Drains last it es) (hsorted : KeysSorted es) (htype : ∀ e ∈ es, e.HasType)
    {fuel : Nat} (hfuel : es.length < fuel) :
    (∃ it', findEntry sequence fuel it = (it', none) ∧ last it' ∧ view (upTo sequence es) = []) ∨
      ∃ it' e rest, findEntry sequence fuel it = (it', some e) ∧ Drains last it' (e :: rest) ∧
        (e :: rest).Sublist es ∧ view (upTo sequence es) = (e.userKey, e.value) ::
          view (upTo sequence (rest.dropWhile fun x => x.userKey = e.userKey)) := by
  induction fuel generalizing it es with
  | zero => omega
  | succ fuel ih =>
    unfold findEntry
    cases es with
    | nil =>
      have hinvalid : it.valid = false := h.1
      exact Or.inl ⟨it, by simp [hinvalid], h.2, rfl⟩
    | cons e rest =>
      obtain ⟨hvalid, hentry, hrest⟩ := h
      have hvalid' : it.valid = true := hvalid
      have hentry' : it.entry = e := hentry
      rw [List.length_cons] at hfuel
      -- the search goes on behind `e`
      have hon : ∀ {it' : MergingIterator ι} {left : List Entry}, Drains last it' left →
          left.Sublist rest → view (upTo sequence (e :: rest)) = view (upTo sequence left) →
          (∃ end', findEntry sequence fuel it' = (end', none) ∧ last end' ∧
              view (upTo sequence (e :: rest)) = []) ∨
            ∃ end' x others, findEntry sequence fuel it' = (end', some x) ∧
              Drains last end' (x :: others) ∧ (x :: others).Sublist (e :: rest) ∧
              view (upTo sequence (e :: rest)) = (x.userKey, x.value) ::
                view (upTo sequence (others.dropWhile fun y => y.userKey = x.userKey)) := by
        intro it' left hleft hsub hview
        have hlen := hsub.length_le
        have hpart := hsub.trans (List.sublist_cons_self e rest)
        rcases ih hleft (hsorted.sublist hpart) (fun x hx => htype x (hpart.subset hx))
          (by omega) with ⟨end', hfound, hend, heq⟩ | ⟨end', x, others, hfound, hdrains, hrest, heq⟩
        · exact Or.inl ⟨end', hfound, hend, hview.trans heq⟩
        · exact Or.inr ⟨end', x, others, hfound, hdrains, hrest.trans hpart, hview.trans heq⟩
      rw [if_pos hvalid', hentry']
      by_cases hseq : e.seq > sequence
      · rw [if_pos hseq]
        exact hon hrest (List.Sublist.refl _) (by rw [upTo_cons_of_gt hseq])
      · rw [if_neg hseq]
        have hview := view_upTo_cons (Nat.not_lt.mp hseq) hsorted
        by_cases hvalue : e.type = kTypeValue
        · rw [if_pos hvalue]
          refine Or.inr ⟨it, e, rest, rfl, ⟨hvalid, hentry, hrest⟩, List.Sublist.refl _, ?_⟩
          rw [hview, if_pos hvalue]
          rfl
        · have hdeleted := (htype e (by simp)).resolve_left hvalue
          rw [if_neg hvalue, if_pos hdeleted]
          have hall : Drains last it (e :: rest) := ⟨hvalid, hentry, hrest⟩
          have hskip := skipKey_drains e.userKey hall
            (show (e :: rest).length ≤ fuel + 1 by rw [List.length_cons]; omega)
          rw [List.dropWhile_cons_of_pos (by simp)] at hskip
          apply hon hskip (List.dropWhile_sublist _)
          rw [hview, if_neg hvalue, List.nil_append]

theorem scanFrom_view {sequence fuel : Nat} (all : List Entry) (hlength : all.length < fuel)
    (hsorted : KeysSorted all) (htype : ∀ e ∈ all, e.HasType) {d : DBIterator ι}
    (hsequence : d.sequence = sequence) {it : MergingIterator ι} {es : List Entry}
    (h : Drains last it es) (hsub : es.Sublist all) {turns : Nat} (hturns : es.length < turns) :
    scanFrom fuel turns (d.findNextUserEntry fuel it) = view (upTo sequence es) ∧
      ∃ it', (endFrom fuel turns (d.findNextUserEntry fuel it)).iter = some it' ∧ last it' ∧
        (endFrom fuel turns (d.findNextUserEntry fuel it)).valid = false := by
  induction turns generalizing d it es with
  | zero => omega
  | succ turns ih =>
    have hlen := hsub.length_le
    unfold findNextUserEntry
    rw [hsequence]
    rcases findEntry_view h (hsorted.sublist hsub)
      (fun e he => htype e (hsub.subset he)) (show es.length < fuel by omega) with
      ⟨it', hfound, hend, hview⟩ | ⟨it', e, rest, hfound, hdrains, hpart, hview⟩
    · rw [hfound, hview]
      exact ⟨by simp [scanFrom], it', by simp [endFrom], hend, by simp [endFrom]⟩
    · rw [hfound, hview]
      have hdrop := List.dropWhile_sublist (fun x => decide (x.userKey = e.userKey)) (l := rest)
      have hless := hdrop.length_le
      have hwhole := hpart.length_le
      rw [List.length_cons] at hwhole
      have hskip := skipKey_drains e.userKey hdrains
        (show (e :: rest).length ≤ fuel by rw [List.length_cons]; omega)
      rw [List.dropWhile_cons_of_pos (by simp)] at hskip
      simp only [scanFrom, endFrom, ↓reduceIte, List.cons.injEq, true_and]
      rw [DBIterator.next]
      simp only
      apply ih
      · rfl
      · exact hskip
      · exact (hdrop.trans (List.sublist_cons_self _ _)).trans (hpart.trans hsub)
      · omega

theorem scan_drains {iter : MergingIterator ι} {es : List Entry}
    (h : Drains last iter.seekToFirst es) (hsorted : KeysSorted es) (sequence : Nat)
    (htype : ∀ e ∈ es, e.HasType) {fuel : Nat} (hfuel : es.length < fuel) :
    (DBIterator.new (some iter) sequence).scan fuel = view (upTo sequence es) ∧
      ∃ it', ((DBIterator.new (some iter) sequence).scanEnd fuel).iter = some it' ∧ last it' ∧
        ((DBIterator.new (some iter) sequence).scanEnd fuel).valid = false :=
  scanFrom_view es hfuel hsorted htype rfl h (List.Sublist.refl _) hfuel

theorem scan_view {iter : MergingIterator ι} {es : List Entry} (h : Yields iter.seekToFirst es)
    (hsorted : KeysSorted es) {sequence : Nat} (hseq : ∀ e ∈ es, e.seq ≤ sequence)
    (htype : ∀ e ∈ es, e.HasType) {fuel : Nat} (hfuel : es.length < fuel) :
    (DBIterator.new (some iter) sequence).scan fuel = view es := by
  rw [(scan_drains h.drains hsorted sequence htype hfuel).1, upTo, List.filter_eq_self.mpr]
  simpa using hseq

end DBIterator

end Strata
