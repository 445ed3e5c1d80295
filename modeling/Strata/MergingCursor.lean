import Mathlib.Data.List.Forall2
import Strata.Merge
import Strata.TableCursor

/-! The merging iterator against a cursor over the sorted merge of its children. A step
moves only the current child, so the iterator follows the cursor exactly as long as the
other children stand on the right side of it. -/
namespace Strata

open Library Cursor

def ReversibleIterator.operate {ι : Type} [ReversibleIterator ι] (it : ι) : Move Key → ι
  | .first => InternalIterator.seekToFirst it
  | .last => ReversibleIterator.seekToLast it
  | .seek target => InternalIterator.seek it target
  | .next => InternalIterator.next it
  | .prev => ReversibleIterator.prev it

open InternalIterator ReversibleIterator
open TwoLevelIterator (reached)

section Cursors

variable {ι : Type} [ReversibleIterator ι]

/-- States related to positions show the entry there and move with it. `Next` and `Prev`
are asked for only at an entry. -/
structure IsCursor (items : List Entry) (R : ι → Option Nat → Prop) : Prop where
  shows : ∀ it position, R it position → shown it = itemAt items position
  moves : ∀ it position (m : Move Key), R it position →
    (m.relative = true → position.isSome = true) →
    R (operate it m) (moved reached items position m)

/-- The iterator is a correct cursor over these entries, at some position. -/
def CursorOver (items : List Entry) (it : ι) : Prop :=
  ∃ R : ι → Option Nat → Prop, IsCursor items R ∧ ∃ position, R it position

theorem CursorOver.operate {items : List Entry} {it : ι} (h : CursorOver items it) (m : Move Key)
    (hrelative : m.relative = true → (shown it).isSome = true) :
    CursorOver items (operate it m) ∧ ∃ position, shown it = itemAt items position ∧
      shown (ReversibleIterator.operate it m) = itemAt items (moved reached items position m) := by
  obtain ⟨R, hcursor, position, hat⟩ := h
  have hshows := hcursor.shows it position hat
  have hmoved := hcursor.moves it position m hat fun hm => by
    have hsome := hrelative hm
    rw [hshows] at hsome
    cases position with
    | none => exact hsome
    | some index => rfl
  exact ⟨⟨R, hcursor, _, hmoved⟩, position, hshows, hcursor.shows _ _ hmoved⟩

end Cursors

theorem TwoLevelIterator.stands_isCursor {l : Layout} {es : List Entry} {number : Nat}
    (h : l.Valid es) : IsCursor es fun it position => Stands it l number position := by
  constructor
  · intro it position hstands
    exact (hstands.shown h).1
  · intro it position m hstands hrelative
    have hmoved := hstands.move h m hrelative
    cases m with
    | first => exact hmoved
    | last => exact hmoved
    | seek target => exact hmoved
    | next => exact hmoved
    | prev => exact hmoved

theorem Entry.before_trans {a b c : Entry} (hab : a.before b) (hbc : b.before c) : a.before c := by
  rcases hab with hab | ⟨hkey, hseq⟩
  · rcases hbc with hbc | ⟨hkey', _⟩
    · exact Or.inl (lt_trans hab hbc)
    · exact Or.inl (hkey' ▸ hab)
  · rcases hbc with hbc | ⟨hkey', hseq'⟩
    · exact Or.inl (hkey.symm ▸ hbc)
    · exact Or.inr ⟨hkey.trans hkey', lt_trans hseq' hseq⟩

theorem Entry.before_asymm {a b : Entry} (hab : a.before b) : ¬ b.before a := by
  intro hba
  rcases hab with hab | ⟨hkey, hseq⟩
  · rcases hba with hba | ⟨hkey', _⟩
    · exact lt_asymm hab hba
    · exact absurd hab (hkey' ▸ lt_irrefl _)
  · rcases hba with hba | ⟨_, hseq'⟩
    · exact absurd hba (hkey ▸ lt_irrefl _)
    · omega

theorem Entry.before_irrefl (a : Entry) : ¬ a.before a := fun h => Entry.before_asymm h h

theorem Entry.before_or_before {a b : Entry} (h : ¬ (a.userKey = b.userKey ∧ a.seq = b.seq)) :
    a.before b ∨ b.before a := by
  rcases lt_trichotomy a.userKey b.userKey with hlt | heq | hgt
  · exact Or.inl (Or.inl hlt)
  · rcases lt_trichotomy a.seq b.seq with hless | hsame | hmore
    · exact Or.inr (Or.inr ⟨heq.symm, hless⟩)
    · exact absurd ⟨heq, hsame⟩ h
    · exact Or.inl (Or.inr ⟨heq, hmore⟩)
  · exact Or.inr (Or.inl hgt)

namespace MergingIterator

variable {ι : Type} [ReversibleIterator ι] {it : MergingIterator ι} {lists : List (List Entry)}
  {merged : List Entry}

/-! The two scans. -/

theorem largestFrom_eq (children : List ι) (index : Nat) (best : Option (Nat × Entry)) :
    largestFrom children index best =
      Search.best (fun a b => mergeBefore b a) (children.map shown) index best := by
  induction children generalizing index best with
  | nil => rfl
  | cons child rest ih =>
    unfold largestFrom
    rw [List.map_cons, shown]
    by_cases hvalid : InternalIterator.valid child = true
    · rw [if_pos hvalid, if_pos hvalid]
      cases best with
      | none => exact ih _ _
      | some so =>
        obtain ⟨i, e⟩ := so
        simp only [Search.best, ih]
    · rw [if_neg hvalid, if_neg hvalid]
      exact ih _ _

theorem shown_eq (it : MergingIterator ι) : shown it = it.child.bind shown := by
  cases hchild : it.child with
  | none => simp [shown, InternalIterator.valid, valid, hchild]
  | some child =>
    simp [shown, InternalIterator.valid, InternalIterator.entry, valid, entry, hchild]

theorem shown_best {wins before : Entry → Entry → Prop} [DecidableRel wins]
    (hasymm : ∀ a b, wins a b → ¬ wins b a)
    (htrans : ∀ a b c, ¬ wins a b → ¬ wins b c → ¬ wins a c)
    (hwins : ∀ a b, before a b → wins a b) (children : List ι) :
    IsFirst before (fun x => some x ∈ children.map shown)
      (shown (⟨children, (Search.best wins (children.map shown) 0 none).map Prod.fst⟩ :
        MergingIterator ι)) := by
  rw [shown_eq, child]
  cases hbest : Search.best wins (children.map shown) 0 none with
  | none => exact fun x hx => (Search.best_none hbest).2 x hx
  | some found =>
    obtain ⟨i, e⟩ := found
    obtain ⟨horigin, _, hothers⟩ := Search.best_some hasymm htrans hbest
    rcases horigin with hnone | ⟨j, hj, hget⟩
    · cases hnone
    · rw [Nat.zero_add] at hj
      subst hj
      rw [List.getElem?_map, Option.map_eq_some_iff] at hget
      obtain ⟨child, hchild, hshown⟩ := hget
      simp only [Option.map_some, Option.bind_some, hchild, hshown]
      refine ⟨List.mem_map.mpr ⟨child, List.mem_of_getElem? hchild, hshown⟩, ?_⟩
      intro x hx hbefore
      exact hothers x hx (hwins x e hbefore)

theorem shown_findSmallest (it : MergingIterator ι) :
    IsFirst Entry.before (fun x => some x ∈ it.children.map shown) (shown it.findSmallest) := by
  rw [findSmallest, smallestFrom_eq]
  apply shown_best
  · exact fun _ _ => mergeBefore_asymm
  · exact fun _ _ _ => not_mergeBefore_trans
  · exact fun a b h => not_not.mp fun hnot => not_before_of_not_mergeBefore hnot h

theorem shown_findLargest (it : MergingIterator ι) :
    IsFirst (fun a b => b.before a) (fun x => some x ∈ it.children.map shown)
      (shown it.findLargest) := by
  rw [findLargest, largestFrom_eq]
  apply shown_best
  · exact fun _ _ => mergeBefore_asymm
  · exact fun _ _ _ hab hbc => not_mergeBefore_trans hbc hab
  · exact fun a b h => not_not.mp fun hnot => not_before_of_not_mergeBefore hnot h

/-! One move. -/

/-- What child `index` shows. -/
def shownAt (it : MergingIterator ι) (index : Nat) : Option Entry :=
  it.children[index]?.bind shown

/-- The children are cursors over the lists, and `merged` is the sorted merge of them. -/
structure Merges (lists : List (List Entry)) (merged : List Entry) (children : List ι) :
    Prop where
  cursors : List.Forall₂ CursorOver lists children
  sorted : ∀ list ∈ lists, list.Pairwise Entry.before
  merge : merged.Perm lists.flatten
  mergedSorted : merged.Pairwise Entry.before

/-- The entry lies on the side of `e` that the move goes to. -/
def Ahead (e x : Entry) : Move Key → Prop
  | .next => e.before x
  | .prev => x.before e
  | _ => True

/-- The state before a move allows it: nothing is asked for `SeekToFirst`, `SeekToLast` and
`Seek`. For `Next` and `Prev` the entries the other children show lie ahead, and the entry
that comes next in the merge belongs to the current child or is shown by another. -/
def Ready (lists : List (List Entry)) (merged : List Entry) (it : MergingIterator ι)
    (position : Option Nat) (m : Move Key) : Prop :=
  m.relative = true → ∀ e current, itemAt merged position = some e → it.current = some current →
    (∀ other x, other ≠ current → it.shownAt other = some x → Ahead e x m) ∧
    ∀ y, itemAt merged (moved reached merged position m) = some y →
      y ∈ lists.getD current [] ∨ ∃ other, other ≠ current ∧ it.shownAt other = some y

theorem Merges.mem_merged {children : List ι} (h : Merges lists merged children) {list : List Entry}
    (hlist : list ∈ lists) {x : Entry} (hx : x ∈ list) : x ∈ merged := by
  rw [h.merge.mem_iff, List.mem_flatten]
  exact ⟨list, hlist, hx⟩

theorem Merges.list_of_child {children : List ι} (h : Merges lists merged children) {index : Nat}
    {child : ι} (hchild : children[index]? = some child) :
    ∃ list, lists[index]? = some list ∧ CursorOver list child := by
  have hcursors := h.cursors
  clear h
  induction hcursors generalizing index with
  | nil => cases hchild
  | @cons list _ lists _ hover _ ih =>
    cases index with
    | zero =>
      cases hchild
      exact ⟨list, rfl, hover⟩
    | succ index => exact ih hchild

theorem Merges.child_of_list {children : List ι} (h : Merges lists merged children)
    {list : List Entry} (hlist : list ∈ lists) : ∃ child ∈ children, CursorOver list child := by
  have hcursors := h.cursors
  clear h
  induction hcursors with
  | nil => cases hlist
  | @cons _ child _ rest hover _ ih =>
    rcases List.mem_cons.mp hlist with rfl | hlist
    · exact ⟨child, List.mem_cons_self, hover⟩
    · obtain ⟨child, hchild, hover⟩ := ih hlist
      exact ⟨child, List.mem_cons_of_mem _ hchild, hover⟩

theorem Merges.mem_of_shownAt (h : Merges lists merged it.children) {index : Nat} {x : Entry}
    (hshown : it.shownAt index = some x) : ∃ list, lists[index]? = some list ∧ x ∈ list := by
  rw [shownAt, Option.bind_eq_some_iff] at hshown
  obtain ⟨child, hchild, hshown⟩ := hshown
  obtain ⟨list, hlist, R, hcursor, position, hat⟩ := h.list_of_child hchild
  refine ⟨list, hlist, ?_⟩
  rw [hcursor.shows child position hat, itemAt, Option.bind_eq_some_iff] at hshown
  obtain ⟨i, _, hget⟩ := hshown
  exact List.mem_of_getElem? hget

/-- All children have made a move that goes to the first of its kind. The first they
show is the first of its kind in the merge. -/
theorem Merges.absolute {children : List ι} (h : Merges lists merged children) (m : Move Key)
    (hm : m.relative = false) {before : Entry → Entry → Prop} {among : Entry → Prop}
    (hcompares : Compares before merged)
    (htrans : ∀ a b c, before a b → before b c → before a c)
    (hgoes : ∀ (list : List Entry) position, list.Pairwise Entry.before →
      IsFirst before (fun x => x ∈ list ∧ among x) (itemAt list (moved reached list position m)))
    {r : Option Entry}
    (hr : IsFirst before (fun x => some x ∈ (children.map (operate · m)).map shown) r) :
    r = itemAt merged (moved reached merged none m) := by
  have hvalue : ∀ list (child : ι), list ∈ lists → CursorOver list child →
      IsFirst before (fun x => x ∈ list ∧ among x) (shown (operate child m)) := by
    intro list child hlist hover
    obtain ⟨_, position, _, hshown⟩ := hover.operate m (by simp [hm])
    rw [hshown]
    exact hgoes list position (h.sorted list hlist)
  apply IsFirst.unique hcompares (fun x hx => hx.1) _ (hgoes merged none h.mergedSorted)
  apply IsFirst.of_shown hcompares htrans _ _ hr
  · intro x hx
    rw [List.map_map, List.mem_map] at hx
    obtain ⟨child, hchild, hshown⟩ := hx
    obtain ⟨index, hindex⟩ := List.mem_iff_getElem?.mp hchild
    obtain ⟨list, hlist, hover⟩ := h.list_of_child hindex
    have hlist := List.mem_of_getElem? hlist
    have hfirst := hvalue list child hlist hover
    rw [Function.comp_apply] at hshown
    rw [hshown] at hfirst
    exact ⟨h.mem_merged hlist hfirst.1.1, hfirst.1.2⟩
  · intro y hy hamong
    rw [h.merge.mem_iff, List.mem_flatten] at hy
    obtain ⟨list, hlist, hy⟩ := hy
    obtain ⟨child, hchild, hover⟩ := h.child_of_list hlist
    have hfirst := hvalue list child hlist hover
    cases hshown : shown (operate child m) with
    | none =>
      rw [hshown] at hfirst
      exact absurd ⟨hy, hamong⟩ (hfirst y)
    | some x =>
      rw [hshown] at hfirst
      refine ⟨x, ?_, hfirst.2 y ⟨hy, hamong⟩⟩
      rw [List.map_map, List.mem_map]
      exact ⟨child, hchild, hshown⟩

theorem mem_shown_modify {children : List ι} {current : Nat} {child : ι}
    (hchild : children[current]? = some child) (op : ι → ι) (x : Entry) :
    some x ∈ (children.modify current op).map shown ↔ shown (op child) = some x ∨
      ∃ other, other ≠ current ∧ children[other]?.bind shown = some x := by
  rw [List.mem_iff_getElem?]
  simp only [List.getElem?_map, List.getElem?_modify]
  constructor
  · rintro ⟨index, hindex⟩
    by_cases heq : current = index
    · subst heq
      rw [hchild] at hindex
      simp only [Option.map_eq_map, Option.map_some, ↓reduceIte, Option.some.injEq] at hindex
      exact Or.inl hindex
    · right
      refine ⟨index, Ne.symm heq, ?_⟩
      simp only [heq, ↓reduceIte] at hindex
      cases hget : children[index]? with
      | none => simp [hget] at hindex
      | some other => simpa [hget] using hindex
  · rintro (hshown | ⟨index, hne, hindex⟩)
    · refine ⟨current, ?_⟩
      simp [hchild, hshown]
    · refine ⟨index, ?_⟩
      cases hget : children[index]? with
      | none => simp [hget] at hindex
      | some other =>
        rw [hget] at hindex
        simpa [Ne.symm hne] using hindex

/-- The current child has moved on from `e`. The first that is shown is what comes next in
the merge exactly if the state before allowed the move. -/
theorem Merges.relative_iff (h : Merges lists merged it.children) (m : Move Key)
    {before : Entry → Entry → Prop} (hcompares : Compares before merged)
    (htrans : ∀ a b c, before a b → before b c → before a c)
    (hgoes : ∀ (list : List Entry) index e, list.Pairwise Entry.before → list[index]? = some e →
      IsFirst before (fun x => x ∈ list ∧ before e x)
        (itemAt list (moved reached list (some index) m)))
    {current position : Nat} {child : ι} {e : Entry} (hchild : it.children[current]? = some child)
    (hshown : shown child = some e) (hat : merged[position]? = some e) {r : Option Entry}
    (hr : IsFirst before
      (fun x => some x ∈ (it.children.modify current (operate · m)).map shown) r) :
    r = itemAt merged (moved reached merged (some position) m) ↔
      (∀ other x, other ≠ current → it.shownAt other = some x → before e x) ∧
      ∀ y, itemAt merged (moved reached merged (some position) m) = some y →
        y ∈ lists.getD current [] ∨ ∃ other, other ≠ current ∧ it.shownAt other = some y := by
  obtain ⟨list, hlist, hover⟩ := h.list_of_child hchild
  have hmem := List.mem_of_getElem? hlist
  have hvalue : IsFirst before (fun x => x ∈ list ∧ before e x) (shown (operate child m)) := by
    obtain ⟨_, stands, hstands, hmoved⟩ := hover.operate m (by simp [hshown])
    rw [hshown] at hstands
    cases stands with
    | none => cases hstands
    | some index =>
      rw [hmoved]
      exact hgoes list index e (h.sorted list hmem) hstands.symm
  have hothers : ∀ x, (∃ other, other ≠ current ∧ it.shownAt other = some x) → x ∈ merged := by
    rintro x ⟨other, _, hx⟩
    obtain ⟨list, hlist, hx⟩ := h.mem_of_shownAt hx
    exact h.mem_merged (List.mem_of_getElem? hlist) hx
  simp only [mem_shown_modify hchild] at hr
  have hstep := isFirst_step_iff hcompares htrans (fun x hx => h.mem_merged hmem hx) hothers
    hvalue hr (hgoes merged position e h.mergedSorted hat)
  rw [hstep, List.getD_eq_getElem?_getD, hlist, Option.getD_some]
  refine and_congr_left fun _ => ?_
  constructor
  · intro hahead other x hne hx
    exact hahead x ⟨other, hne, hx⟩
  · rintro hahead x ⟨other, hne, hx⟩
    exact hahead other x hne hx

theorem forall₂_modify {children : List ι} (h : List.Forall₂ CursorOver lists children)
    {current : Nat} {child : ι} (hchild : children[current]? = some child) (m : Move Key)
    (hshown : (shown child).isSome = true) :
    List.Forall₂ CursorOver lists (children.modify current (operate · m)) := by
  induction h generalizing current with
  | nil => cases hchild
  | cons hover hrest ih =>
    cases current with
    | zero =>
      cases hchild
      exact List.Forall₂.cons (hover.operate m fun _ => hshown).1 hrest
    | succ current => exact List.Forall₂.cons hover (ih hchild)

theorem forall₂_map {children : List ι} (h : List.Forall₂ CursorOver lists children) (m : Move Key)
    (hm : m.relative = false) : List.Forall₂ CursorOver lists (children.map (operate · m)) := by
  induction h with
  | nil => exact List.Forall₂.nil
  | cons hover _ ih => exact List.Forall₂.cons (hover.operate m (by simp [hm])).1 ih

theorem current_of_shown {e : Entry} (h : shown it = some e) : ∃ current child,
    it.current = some current ∧ it.children[current]? = some child ∧ shown child = some e := by
  rw [shown_eq, Option.bind_eq_some_iff] at h
  obtain ⟨child, hchild, hshown⟩ := h
  rw [MergingIterator.child, Option.bind_eq_some_iff] at hchild
  obtain ⟨current, hcurrent, hget⟩ := hchild
  exact ⟨current, child, hcurrent, hget, hshown⟩

theorem Merges.operate (h : Merges lists merged it.children) (m : Move Key)
    (hrelative : m.relative = true → (shown it).isSome = true) :
    Merges lists merged (operate it m).children := by
  refine { h with cursors := ?_ }
  cases m with
  | first => exact forall₂_map h.cursors .first rfl
  | last => exact forall₂_map h.cursors .last rfl
  | seek target => exact forall₂_map h.cursors (.seek target) rfl
  | next =>
    obtain ⟨e, he⟩ := Option.isSome_iff_exists.mp (hrelative rfl)
    obtain ⟨current, child, hcurrent, hchild, hshown⟩ := current_of_shown he
    simp only [ReversibleIterator.operate, InternalIterator.next, next, hcurrent]
    exact forall₂_modify h.cursors hchild .next (by simp [hshown])
  | prev =>
    obtain ⟨e, he⟩ := Option.isSome_iff_exists.mp (hrelative rfl)
    obtain ⟨current, child, hcurrent, hchild, hshown⟩ := current_of_shown he
    simp only [ReversibleIterator.operate, ReversibleIterator.prev, prev, hcurrent]
    exact forall₂_modify h.cursors hchild .prev (by simp [hshown])

theorem ready_iff {m : Move Key} (hm : m.relative = true) {index current : Nat} {e : Entry}
    (hat : merged[index]? = some e) (hcurrent : it.current = some current) :
    Ready lists merged it (some index) m ↔
      (∀ other x, other ≠ current → it.shownAt other = some x → Ahead e x m) ∧
      ∀ y, itemAt merged (moved reached merged (some index) m) = some y →
        y ∈ lists.getD current [] ∨ ∃ other, other ≠ current ∧ it.shownAt other = some y := by
  constructor
  · intro hready
    exact hready hm e current hat hcurrent
  · intro hready _ e' current' hat' hcurrent'
    cases hat.symm.trans hat'
    cases hcurrent.symm.trans hcurrent'
    exact hready

theorem operate_iff_ready (h : Merges lists merged it.children) {position : Option Nat}
    (hshown : shown it = itemAt merged position) (m : Move Key)
    (hrelative : m.relative = true → (shown it).isSome = true) :
    shown (operate it m) = itemAt merged (moved reached merged position m) ↔
      Ready lists merged it position m := by
  have hcompares := compares_of_pairwise h.mergedSorted
  have hasymm : ∀ a b : Entry, a.before b → ¬ b.before a := fun _ _ => Entry.before_asymm
  have hforward : ∀ a b c : Entry, a.before b → b.before c → a.before c :=
    fun _ _ _ => Entry.before_trans
  have hbackward : ∀ a b c : Entry, b.before a → c.before b → c.before a :=
    fun _ _ _ hab hbc => Entry.before_trans hbc hab
  cases m with
  | first =>
    refine iff_of_true ?_ (fun hm => (nomatch hm))
    exact h.absolute .first rfl hcompares hforward
      (fun _ _ hsorted => isFirst_first hsorted hasymm) (shown_findSmallest _)
  | seek target =>
    refine iff_of_true ?_ (fun hm => (nomatch hm))
    exact h.absolute (.seek target) rfl hcompares hforward
      (fun _ _ hsorted => isFirst_seek hsorted hasymm target) (shown_findSmallest _)
  | last =>
    refine iff_of_true ?_ (fun hm => (nomatch hm))
    exact h.absolute .last rfl hcompares.flip hbackward
      (fun _ _ hsorted => isLast_last hsorted hasymm) (shown_findLargest _)
  | next =>
    obtain ⟨e, he⟩ := Option.isSome_iff_exists.mp (hrelative rfl)
    obtain ⟨current, child, hcurrent, hchild, hat⟩ := current_of_shown he
    obtain ⟨index, rfl, hget⟩ := Option.bind_eq_some_iff.mp (hshown.symm.trans he)
    rw [ready_iff rfl hget hcurrent]
    simp only [ReversibleIterator.operate, InternalIterator.next, next, hcurrent]
    exact h.relative_iff .next hcompares hforward
      (fun _ _ _ hsorted he => isFirst_next hsorted hasymm he) hchild hat hget
      (shown_findSmallest _)
  | prev =>
    obtain ⟨e, he⟩ := Option.isSome_iff_exists.mp (hrelative rfl)
    obtain ⟨current, child, hcurrent, hchild, hat⟩ := current_of_shown he
    obtain ⟨index, rfl, hget⟩ := Option.bind_eq_some_iff.mp (hshown.symm.trans he)
    rw [ready_iff rfl hget hcurrent]
    simp only [ReversibleIterator.operate, ReversibleIterator.prev, prev, hcurrent]
    exact h.relative_iff .prev hcompares.flip hbackward
      (fun _ _ _ hsorted he => isLast_prev hsorted hasymm he) hchild hat hget
      (shown_findLargest _)

/-! Any sequence of moves. -/

/-- After each of the moves the iterator shows what the cursor shows. `Next` and `Prev`
are called only while it is valid. -/
def Follows (merged : List Entry) : MergingIterator ι → Option Nat → List (Move Key) → Prop
  | _, _, [] => True
  | it, position, m :: moves => (m.relative = true → InternalIterator.valid it = true) →
    shown (operate it m) = itemAt merged (moved reached merged position m) ∧
      Follows merged (operate it m) (moved reached merged position m) moves

def AllReady (lists : List (List Entry)) (merged : List Entry) :
    MergingIterator ι → Option Nat → List (Move Key) → Prop
  | _, _, [] => True
  | it, position, m :: moves => (m.relative = true → InternalIterator.valid it = true) →
    Ready lists merged it position m ∧
      AllReady lists merged (operate it m) (moved reached merged position m) moves

theorem follows_iff_allReady (h : Merges lists merged it.children) {position : Option Nat}
    (hshown : shown it = itemAt merged position) (moves : List (Move Key)) :
    Follows merged it position moves ↔ AllReady lists merged it position moves := by
  induction moves generalizing it position with
  | nil => exact Iff.rfl
  | cons m moves ih =>
    apply imp_congr_right
    intro hvalid
    have hrelative : m.relative = true → (shown it).isSome = true := by
      intro hm
      rw [shown, if_pos (hvalid hm)]
      rfl
    have hstep := operate_iff_ready h hshown m hrelative
    constructor
    · rintro ⟨hmoved, hrest⟩
      exact ⟨hstep.mp hmoved, (ih (h.operate m hrelative) hmoved).mp hrest⟩
    · rintro ⟨hready, hrest⟩
      have hmoved := hstep.mpr hready
      exact ⟨hmoved, (ih (h.operate m hrelative) hmoved).mpr hrest⟩

/-- A new merging iterator follows the cursor over the sorted merge through a sequence of
moves exactly if the state before each of them allows it. -/
theorem merging_follows_iff {children : List ι} (h : Merges lists merged children)
    (hnew : newMergingIterator children = some it) (moves : List (Move Key)) :
    Follows merged it none moves ↔ AllReady lists merged it none moves := by
  unfold newMergingIterator at hnew
  split at hnew
  · cases hnew
  · cases hnew
    exact follows_iff_allReady h rfl moves

end MergingIterator

structure ListCursor where
  items : List Entry
  position : Option Nat

namespace ListCursor

def move (it : ListCursor) (m : Move Key) : ListCursor :=
  { it with position := moved reached it.items it.position m }

instance : ReversibleIterator ListCursor where
  valid it := (itemAt it.items it.position).isSome
  seekToFirst it := it.move .first
  seek it target := it.move (.seek target)
  next it := it.move .next
  entry it := (itemAt it.items it.position).getD ⟨[], 0, kTypeValue, []⟩
  status _ := .ok
  seekToLast it := it.move .last
  prev it := it.move .prev

theorem cursorOver (items : List Entry) (position : Option Nat) :
    CursorOver items (⟨items, position⟩ : ListCursor) := by
  refine ⟨fun it p => it = ⟨items, p⟩, ⟨?_, ?_⟩, position, rfl⟩
  · rintro it p rfl
    rw [shown]
    cases h : itemAt items p with
    | none => simp [InternalIterator.valid, h]
    | some e => simp [InternalIterator.valid, InternalIterator.entry, h]
  · rintro it p m rfl _
    cases m <;> rfl

end ListCursor

namespace MergingIterator

def twoCursors : List ListCursor :=
  [⟨[⟨[1], 1, kTypeValue, []⟩, ⟨[3], 3, kTypeValue, []⟩], none⟩, ⟨[⟨[2], 2, kTypeValue, []⟩], none⟩]

theorem twoCursors_merge : Merges (twoCursors.map ListCursor.items)
    [⟨[1], 1, kTypeValue, []⟩, ⟨[2], 2, kTypeValue, []⟩, ⟨[3], 3, kTypeValue, []⟩] twoCursors where
  cursors := List.Forall₂.cons (ListCursor.cursorOver _ _)
    (List.Forall₂.cons (ListCursor.cursorOver _ _) List.Forall₂.nil)
  sorted := by decide
  merge := by decide
  mergedSorted := by decide

theorem merging_follows_iff_forward : Follows
    [⟨[1], 1, kTypeValue, []⟩, ⟨[2], 2, kTypeValue, []⟩, ⟨[3], 3, kTypeValue, []⟩]
    (⟨twoCursors, none⟩ : MergingIterator ListCursor) none [.first, .next, .next] ↔
  AllReady (twoCursors.map ListCursor.items)
    [⟨[1], 1, kTypeValue, []⟩, ⟨[2], 2, kTypeValue, []⟩, ⟨[3], 3, kTypeValue, []⟩]
    ⟨twoCursors, none⟩ none [.first, .next, .next] :=
  merging_follows_iff twoCursors_merge rfl [.first, .next, .next]

/-- `SeekToFirst`, `Next` and `Prev` over the keys 1, 2 and 3 end at 3: the first child
still stands there, and is the largest. -/
theorem prev_after_next_elsewhere : ∃ it, newMergingIterator twoCursors = some it ∧
    Merges (twoCursors.map ListCursor.items)
      [⟨[1], 1, kTypeValue, []⟩, ⟨[2], 2, kTypeValue, []⟩, ⟨[3], 3, kTypeValue, []⟩] it.children ∧
    ¬ Follows [⟨[1], 1, kTypeValue, []⟩, ⟨[2], 2, kTypeValue, []⟩, ⟨[3], 3, kTypeValue, []⟩]
      it none [.first, .next, .prev] := by
  refine ⟨⟨twoCursors, none⟩, rfl, twoCursors_merge, fun h => ?_⟩
  have hprev := ((h (fun hm => (nomatch hm))).2 (fun _ => by decide)).2 (fun _ => by decide)
  exact absurd hprev.1 (by decide)

end MergingIterator

end Strata
