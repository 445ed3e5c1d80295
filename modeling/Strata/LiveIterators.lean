import Mathlib.Data.List.Perm.Subperm
import Mathlib.Data.List.TakeWhile
import Strata.DBCursor
import Strata.OversizedWrites
import Strata.Threads

/-! Iterators of a database that is in use. The memtables they read grow under them, and the
tables they read may be compacted away and removed. What they show is the map as it was when
they were made. -/
namespace Strata

open Library System Layers Memtable VersionSet Cursor InternalIterator Simulation

/-! The iterator of a memtable that is written to. -/

/-- The iterator of a memtable: `contents n` is the list as its operation `n` finds it, and
`node` the entry of the node where it stands. -/
structure LiveIterator where
  contents : Nat → Memtable
  clock : Nat
  node : Option Entry

namespace LiveIterator

def list (it : LiveIterator) : Memtable := it.contents it.clock

def goTo (it : LiveIterator) (node : Option Entry) : LiveIterator :=
  { it with clock := it.clock + 1, node := node }

def seekToFirst (it : LiveIterator) : LiveIterator := it.goTo it.list.entries.head?

def seek (it : LiveIterator) (target : Key) : LiveIterator :=
  it.goTo (it.list.seekEntries ⟨target, kMaxSequenceNumber, kTypeValue, []⟩).head?

def next (it : LiveIterator) : LiveIterator :=
  it.goTo (it.node.bind fun e => it.list.entries.find? fun x => e.before x)

def entry (it : LiveIterator) : Entry := it.node.getD ⟨[], 0, kTypeValue, []⟩

end LiveIterator

instance : InternalIterator LiveIterator where
  valid it := it.node.isSome
  seekToFirst := LiveIterator.seekToFirst
  seek := LiveIterator.seek
  next := LiveIterator.next
  entry := LiveIterator.entry
  status _ := .ok

theorem not_before_find {es : List Entry} (h : Sorted es) {wanted : Entry → Bool} {y e : Entry}
    (hfind : es.find? wanted = some y) (he : e ∈ es) (hwanted : wanted e = true) :
    ¬ e.before y := by
  obtain ⟨_, front, back, rfl, hfront⟩ := List.find?_eq_some_iff_append.mp hfind
  rcases List.mem_append.mp he with he | he
  · have hnot := hfront e he
    simp [hwanted] at hnot
  · rcases List.mem_cons.mp he with rfl | he
    · exact Entry.before_irrefl _
    · exact (List.pairwise_cons.mp (List.pairwise_append.mp h).2.1).1 e he

theorem not_before_head {es : List Entry} (h : Sorted es) {e : Entry} (he : e ∈ es) :
    ∃ node, es.head? = some node ∧ ¬ e.before node := by
  cases es with
  | nil => exact (List.not_mem_nil he).elim
  | cons node rest =>
    refine ⟨node, rfl, ?_⟩
    rcases List.mem_cons.mp he with rfl | he
    · exact Entry.before_irrefl e
    · exact (List.pairwise_cons.mp h).1 e he

theorem behind_lt {pool : List Entry} {x y : Entry} (hy : y ∈ pool) (hxy : x.before y) :
    (pool.filter fun e => y.before e).length < (pool.filter fun e => x.before e).length := by
  have hsub : (pool.filter fun e => y.before e) =
      (pool.filter fun e => x.before e).filter fun e => y.before e := by
    rw [List.filter_filter]
    apply List.filter_congr
    intro e _
    by_cases hye : y.before e
    · simp [hye, Entry.before_trans hxy hye]
    · simp [hye]
  rw [hsub, List.length_filter_lt_length_iff_exists]
  refine ⟨y, List.mem_filter.mpr ⟨hy, by simpa using hxy⟩, ?_⟩
  simpa using Entry.before_irrefl y

section Live

variable {seq bound : Nat} {contents : Nat → Memtable} {pool seen : List Entry}

/-- A memtable whose entries all come from the pool, and of which these are visible at the
sequence number at every time. -/
structure Growing (seq : Nat) (contents : Nat → Memtable) (pool seen : List Entry) : Prop where
  sorted : ∀ n, Sorted (contents n).entries
  pooled : ∀ n, ∀ e ∈ (contents n).entries, e ∈ pool
  distinct : Distinct seen
  types : ∀ e ∈ pool, e.HasType
  visible : ∀ n e, e.seq ≤ seq → (e ∈ (contents n).entries ↔ e ∈ seen)
  limit : seq ≤ kMaxSequenceNumber

def LiveIterator.Over (contents : Nat → Memtable) (it : LiveIterator) : Prop :=
  it.contents = contents ∧ ∀ e, it.node = some e → ∃ n, e ∈ (contents n).entries

theorem LiveIterator.Over.goTo_head {it : LiveIterator} (h : it.Over contents) {es : List Entry}
    (hes : ∀ e ∈ es, e ∈ it.list.entries) : (it.goTo es.head?).Over contents := by
  refine ⟨h.1, fun e he => ⟨it.clock, ?_⟩⟩
  rw [← h.1]
  exact hes e (List.mem_of_head? he)

variable (h : Growing seq contents pool seen)
include h

theorem Growing.next_node {x : Entry} {n : Nat} (hx : x ∈ (contents n).entries) (now : Nat) {e : Entry}
    (hseq : e.seq ≤ seq) :
    (e ∈ seen ∧ ¬ e.before x) ↔ e = x ∨ e ∈ seen ∧
      ∃ y, ((contents now).entries.find? fun y => x.before y) = some y ∧ ¬ e.before y := by
  constructor
  · rintro ⟨he, hnot⟩
    by_cases hsame : e = x
    · exact Or.inl hsame
    have hmem := (h.visible now e hseq).mpr he
    have hdiffer : ¬ (x.userKey = e.userKey ∧ x.seq = e.seq) := by
      intro heq
      have hxseq : x.seq ≤ seq := heq.2.trans_le hseq
      exact hsame (h.distinct x ((h.visible n x hxseq).mp hx) e he heq.1 heq.2).symm
    have hafter := (Entry.before_or_before hdiffer).resolve_right hnot
    cases hfind : (contents now).entries.find? fun y => x.before y with
    | none =>
      have hnone := List.find?_eq_none.mp hfind e hmem
      simp [hafter] at hnone
    | some y =>
      exact Or.inr ⟨he, y, rfl, not_before_find (h.sorted now) hfind hmem (by simpa using hafter)⟩
  · intro he
    rcases he with rfl | ⟨he, y, hfind, hnot⟩
    · exact ⟨(h.visible n e hseq).mp hx, Entry.before_irrefl _⟩
    · have hxy : x.before y := by simpa using List.find?_some hfind
      exact ⟨he, fun hb => hnot (Entry.before_trans hb hxy)⟩

theorem Growing.ahead {it : LiveIterator} (hover : it.Over contents) :
    ∃ es, Yields it es ∧ es.head? = it.node ∧ es.Pairwise Entry.before ∧
      (∀ e ∈ es, e ∈ pool) ∧ ∀ e, e.seq ≤ seq →
        (e ∈ es ↔ e ∈ seen ∧ ∃ node, it.node = some node ∧ ¬ e.before node) := by
  -- by the entries of the pool that are behind the node
  generalize hsize : (it.node.elim 0 fun x => (pool.filter fun e => x.before e).length + 1) = size
  induction size using Nat.strong_induction_on generalizing it with
  | _ size ih =>
  cases hnode : it.node with
  | none =>
    refine ⟨[], ?_, rfl, List.Pairwise.nil, fun e he => (List.not_mem_nil he).elim, fun e _ => ?_⟩
    · change it.node.isSome = false
      rw [hnode]
      rfl
    · simp
  | some x =>
    obtain ⟨hcontents, hin⟩ := hover
    obtain ⟨n, hx⟩ := hin x hnode
    have hvalid : valid it = true := by
      change it.node.isSome = true
      rw [hnode]
      rfl
    have hentry : entry it = x := by
      change it.node.getD _ = x
      rw [hnode]
      rfl
    have hnext : (InternalIterator.next it : LiveIterator) =
        it.goTo ((contents it.clock).entries.find? fun y => x.before y) := by
      change it.next = _
      rw [LiveIterator.next, LiveIterator.list, hnode, hcontents]
      rfl
    have hrest : ∃ es, Yields (InternalIterator.next it) es ∧
        es.head? = ((contents it.clock).entries.find? fun y => x.before y) ∧
        es.Pairwise Entry.before ∧ (∀ e ∈ es, e ∈ pool) ∧ ∀ e, e.seq ≤ seq → (e ∈ es ↔ e ∈ seen ∧
          ∃ y, ((contents it.clock).entries.find? fun y => x.before y) = some y ∧
            ¬ e.before y) := by
      rw [hnext]
      apply ih _ _ _ rfl
      · rw [← hsize, hnode, LiveIterator.goTo]
        cases hfind : (contents it.clock).entries.find? fun y => x.before y with
        | none => exact Nat.succ_pos _
        | some y =>
          have hy := h.pooled _ y (List.mem_of_find?_eq_some hfind)
          exact Nat.succ_lt_succ (behind_lt hy (by simpa using List.find?_some hfind))
      · refine ⟨hcontents, fun y hy => ⟨it.clock, ?_⟩⟩
        exact List.mem_of_find?_eq_some hy
    obtain ⟨es, hyields, hhead, hsorted, hpool, hmem⟩ := hrest
    refine ⟨x :: es, ⟨hvalid, hentry, hyields⟩, rfl, ?_, ?_, ?_⟩
    · refine List.pairwise_cons.mpr ⟨fun e he => ?_, hsorted⟩
      cases es with
      | nil => exact (List.not_mem_nil he).elim
      | cons y rest =>
        have hxy : x.before y := by simpa using List.find?_some hhead.symm
        rcases List.mem_cons.mp he with rfl | he
        · exact hxy
        · exact Entry.before_trans hxy ((List.pairwise_cons.mp hsorted).1 e he)
    · intro e he
      rcases List.mem_cons.mp he with rfl | he
      · exact h.pooled n e hx
      · exact hpool e he
    · intro e hseq
      rw [List.mem_cons, hmem e hseq, ← h.next_node hx it.clock hseq]
      simp

theorem Growing.list_sorted {it : LiveIterator} (hover : it.Over contents) :
    Sorted it.list.entries := by
  rw [LiveIterator.list, hover.1]
  exact h.sorted it.clock

theorem Growing.mem_list {it : LiveIterator} (hover : it.Over contents) {e : Entry}
    (hseq : e.seq ≤ seq) : e ∈ it.list.entries ↔ e ∈ seen := by
  rw [LiveIterator.list, hover.1]
  exact h.visible it.clock e hseq

theorem Growing.seek_node {it : LiveIterator} (hover : it.Over contents) (target : Key) {e : Entry}
    (hseq : e.seq ≤ seq) :
    (e ∈ seen ∧ ∃ node, (it.seek target).node = some node ∧ ¬ e.before node) ↔
      e ∈ seen ∧ target ≤ e.userKey := by
  have hparts := @List.takeWhile_append_dropWhile _
    (fun e : Entry => decide (e.before ⟨target, kMaxSequenceNumber, kTypeValue, []⟩)) it.list.entries
  refine and_congr_right fun he => ⟨?_, fun htarget => ?_⟩
  · rintro ⟨node, hnode, hnot⟩
    have hreached := List.head?_dropWhile_not
      (fun e : Entry => decide (e.before ⟨target, kMaxSequenceNumber, kTypeValue, []⟩))
      it.list.entries
    change (List.dropWhile _ _).head? = some node at hnode
    rw [hnode] at hreached
    have hprobe := not_before_trans (of_decide_eq_false hreached) hnot
    exact not_lt.mp fun hlt => hprobe (Or.inl hlt)
  · have hmem := (h.mem_list hover hseq).mpr he
    have hprobe : ¬ e.before ⟨target, kMaxSequenceNumber, kTypeValue, []⟩ := by
      rintro (hlt | ⟨_, hnewer⟩)
      · exact absurd hlt (not_lt.mpr htarget)
      · have hlimit := h.limit
        change kMaxSequenceNumber < e.seq at hnewer
        omega
    rw [← hparts] at hmem
    rcases List.mem_append.mp hmem with hmem | hmem
    · have hbefore := List.mem_takeWhile_imp hmem
      exact absurd (of_decide_eq_true hbefore) hprobe
    · exact not_before_head ((h.list_sorted hover).sublist (List.dropWhile_sublist _)) hmem

theorem Growing.isSource (hbound : pool.length ≤ bound) :
    IsSource seq bound seen (LiveIterator.Over contents) where
  ahead := by
    intro it hover
    obtain ⟨es, hyields, _, hsorted, hpool, _⟩ := h.ahead hover
    refine ⟨es, hyields, hsorted.imp fun hab hba => Entry.before_asymm hab hba,
      fun e he => h.types e (hpool e he), ?_⟩
    have hnodup : es.Nodup := hsorted.imp fun hab heq => by
      subst heq
      exact Entry.before_irrefl _ hab
    exact Nat.le_trans (List.subperm_of_subset hnodup hpool).length_le hbound
  first := by
    intro it hover
    have hover' : it.seekToFirst.Over contents := hover.goTo_head fun e he => he
    refine ⟨hover', fun es hyields e hseq => ?_⟩
    obtain ⟨es', hyields', _, _, _, hmem⟩ := h.ahead hover'
    cases hyields.unique hyields'
    rw [hmem e hseq]
    refine ⟨And.left, fun he => ⟨he, ?_⟩⟩
    exact not_before_head (h.list_sorted hover) ((h.mem_list hover hseq).mpr he)
  seek := by
    intro it target hover
    have hover' : (it.seek target).Over contents := hover.goTo_head fun e he =>
      (List.dropWhile_sublist _).subset he
    refine ⟨hover', fun es hyields e hseq => ?_⟩
    obtain ⟨es', hyields', _, _, _, hmem⟩ := h.ahead hover'
    cases hyields.unique hyields'
    rw [hmem e hseq]
    exact h.seek_node hover target hseq
  next := by
    intro it hover _
    refine ⟨hover.1, fun y hy => ?_⟩
    change (it.node.bind fun e => it.list.entries.find? fun x => e.before x) = some y at hy
    obtain ⟨x, _, hfind⟩ := Option.bind_eq_some_iff.mp hy
    refine ⟨it.clock, ?_⟩
    rw [← hover.1]
    exact List.mem_of_find?_eq_some hfind

end Live

/-! The iterator of a table, which does not change. -/

section Cursors

variable {ι : Type} [ReversibleIterator ι] {items : List Entry} {R : ι → Option Nat → Prop}

omit [ReversibleIterator ι] in
theorem of_shown [InternalIterator ι] {it : ι} {e : Entry} (h : shown it = some e) :
    valid it = true ∧ entry it = e := by
  cases hvalid : valid it with
  | false => simp [shown, hvalid] at h
  | true => simpa [shown, hvalid] using h

theorem drop_place (items : List Entry) (index : Nat) :
    ((place items index).elim [] fun index => items.drop index) = items.drop index := by
  unfold place
  split
  · rfl
  · exact (List.drop_eq_nil_of_le (by omega)).symm

theorem IsCursor.yields (h : IsCursor items R) {it : ι} {position : Option Nat}
    (hat : R it position) : Yields it (position.elim [] fun index => items.drop index) := by
  have hend : ∀ {it : ι}, shown it = none → Yields it [] := by
    intro it hnone
    cases hvalid : valid it with
    | false => exact hvalid
    | true => simp [shown, hvalid] at hnone
  cases position with
  | none => exact hend (h.shows it none hat)
  | some index =>
    change Yields it (items.drop index)
    generalize hleft : items.length - index = left
    induction left generalizing it index with
    | zero =>
      have hover : items.length ≤ index := by omega
      rw [List.drop_eq_nil_of_le hover]
      apply hend
      rw [h.shows it _ hat]
      exact List.getElem?_eq_none hover
    | succ left ih =>
      have hlt : index < items.length := by omega
      have hshown := h.shows it _ hat
      have hmoved := h.moves it _ .next hat fun _ => rfl
      rw [show itemAt items (some index) = some items[index] from List.getElem?_eq_getElem hlt]
        at hshown
      obtain ⟨hvalid, hentry⟩ := of_shown hshown
      rw [List.drop_eq_getElem_cons hlt]
      refine ⟨hvalid, hentry, ?_⟩
      by_cases hnext : index + 1 < items.length
      · rw [moved, place, if_pos hnext] at hmoved
        exact ih _ hmoved (by omega)
      · rw [moved, place, if_neg hnext] at hmoved
        rw [List.drop_eq_nil_of_le (by omega)]
        exact hend (h.shows _ none hmoved)

theorem IsCursor.isSource (h : IsCursor items R) {seq bound : Nat} (hsorted : Sorted items)
    (htypes : ∀ e ∈ items, e.HasType) (hbound : items.length ≤ bound) :
    IsSource seq bound items fun it => ∃ position, R it position where
  ahead := by
    rintro it ⟨position, hat⟩
    have hsub : (position.elim [] fun index => items.drop index).Sublist items := by
      cases position with
      | none => exact List.nil_sublist _
      | some index => exact List.drop_sublist _ _
    exact ⟨_, h.yields hat, hsorted.sublist hsub, fun e he => htypes e (hsub.subset he),
      Nat.le_trans hsub.length_le hbound⟩
  first := by
    rintro it ⟨position, hat⟩
    have hmoved := h.moves it position .first hat fun hm => by cases hm
    refine ⟨⟨_, hmoved⟩, fun es hyields e _ => ?_⟩
    rw [hyields.unique (h.yields hmoved), moved, drop_place]
    rfl
  seek := by
    rintro it target ⟨position, hat⟩
    have hmoved := h.moves it position (.seek target) hat fun hm => by cases hm
    refine ⟨⟨_, hmoved⟩, fun es hyields e _ => ?_⟩
    have hkeys : items.Pairwise fun a b =>
        decide (target ≤ a.userKey) = true → decide (target ≤ b.userKey) = true :=
      hsorted.imp fun hab ha => decide_eq_true
        (le_trans (of_decide_eq_true ha) (not_lt.mp fun hlt => hab (Or.inl hlt)))
    rw [hyields.unique (h.yields hmoved), moved, drop_place]
    change e ∈ items.drop (items.findIdx fun e => decide (target ≤ e.userKey)) ↔ _
    rw [← filter_eq_drop_findIdx hkeys, List.mem_filter, decide_eq_true_iff]
  next := by
    rintro it ⟨position, hat⟩ hvalid
    refine ⟨_, h.moves it position .next hat fun _ => ?_⟩
    cases position with
    | some index => rfl
    | none =>
      have hshown := h.shows it none hat
      simp [shown, hvalid, itemAt] at hshown

end Cursors

/-! The iterator of the database. -/

/-- What `NewIterator` merges: the memtables, which others write to, and the tables. -/
inductive LiveSource where
  | memtable (it : LiveIterator)
  | table (it : TwoLevelIterator)

instance : InternalIterator LiveSource where
  valid
    | .memtable it => valid it
    | .table it => it.valid
  seekToFirst
    | .memtable it => .memtable it.seekToFirst
    | .table it => .table it.seekToFirst
  seek
    | .memtable it, target => .memtable (it.seek target)
    | .table it, target => .table (it.seek target)
  next
    | .memtable it => .memtable it.next
    | .table it => .table it.next
  entry
    | .memtable it => it.entry
    | .table it => it.entry
  status
    | .memtable _ => .ok
    | .table it => it.statusOf

/-- `NewIterator` on what it took under the mutex. Operation `n` of the iterator of memtable
`index` comes at `moment index n` of the database. -/
def DBImpl.newLiveIterator (moment : Nat → Nat → DBImpl) (dir : Dir) (snap : Snapshot) :
    DBIterator LiveSource :=
  DBIterator.new (newMergingIterator
    ((snap.mem :: snap.imm.toList).map (fun index =>
        .memtable ⟨fun n => (moment index n).memtable index, 0, none⟩) ++
      (snap.current.addIterators dir fun _ => none).map .table)) snap.seq

section Sources

variable {ι : Type} [InternalIterator ι] {seq bound : Nat} {seen : List Entry}

structure Wraps {κ : Type} [InternalIterator κ] (wrap : ι → κ) : Prop where
  valid : ∀ it, InternalIterator.valid (wrap it) = InternalIterator.valid it
  entry : ∀ it, InternalIterator.entry (wrap it) = InternalIterator.entry it
  seekToFirst : ∀ it, InternalIterator.seekToFirst (wrap it) = wrap (InternalIterator.seekToFirst it)
  seek : ∀ it target, InternalIterator.seek (wrap it) target = wrap (InternalIterator.seek it target)
  next : ∀ it, InternalIterator.next (wrap it) = wrap (InternalIterator.next it)

theorem Wraps.yields {κ : Type} [InternalIterator κ] {wrap : ι → κ} (h : Wraps wrap) {it : ι}
    {es : List Entry} : Yields (wrap it) es ↔ Yields it es := by
  induction es generalizing it with
  | nil =>
    change InternalIterator.valid (wrap it) = false ↔ _
    rw [h.valid]
    rfl
  | cons e rest ih =>
    change InternalIterator.valid (wrap it) = true ∧ InternalIterator.entry (wrap it) = e ∧
      Yields (InternalIterator.next (wrap it)) rest ↔ _
    rw [h.valid, h.entry, h.next, ih]
    rfl

theorem SourceOf.wrap {κ : Type} [InternalIterator κ] {wrap : ι → κ} (h : Wraps wrap) {it : ι}
    (hsource : SourceOf seq bound seen it) : SourceOf seq bound seen (wrap it) := by
  obtain ⟨R, hsource, hit⟩ := hsource
  refine ⟨fun other => ∃ it, other = wrap it ∧ R it, ⟨?_, ?_, ?_, ?_⟩, it, rfl, hit⟩
  · rintro _ ⟨it, rfl, hit⟩
    obtain ⟨es, hyields, hrest⟩ := hsource.ahead it hit
    exact ⟨es, h.yields.mpr hyields, hrest⟩
  · rintro _ ⟨it, rfl, hit⟩
    obtain ⟨hfirst, hshows⟩ := hsource.first it hit
    rw [h.seekToFirst]
    exact ⟨⟨_, rfl, hfirst⟩, fun es hyields => hshows es (h.yields.mp hyields)⟩
  · rintro _ target ⟨it, rfl, hit⟩
    obtain ⟨hseek, hshows⟩ := hsource.seek it target hit
    rw [h.seek]
    exact ⟨⟨_, rfl, hseek⟩, fun es hyields => hshows es (h.yields.mp hyields)⟩
  · rintro _ ⟨it, rfl, hit⟩ hvalid
    rw [h.valid] at hvalid
    rw [h.next]
    exact ⟨_, rfl, hsource.next it hit hvalid⟩

theorem SourceOf.mono {bound' : Nat} (hle : bound ≤ bound') {it : ι}
    (h : SourceOf seq bound seen it) : SourceOf seq bound' seen it := by
  obtain ⟨R, hsource, hit⟩ := h
  refine ⟨R, ⟨fun it hit => ?_, hsource.first, hsource.seek, hsource.next⟩, hit⟩
  obtain ⟨es, hyields, hsorted, htypes, hlength⟩ := hsource.ahead it hit
  exact ⟨es, hyields, hsorted, htypes, Nat.le_trans hlength hle⟩

theorem exists_sources {seens : List (List Entry)} {children : List ι}
    (h : List.Forall₂ (fun seen it => ∃ bound, SourceOf seq bound seen it) seens children) :
    ∃ bound, List.Forall₂ (SourceOf seq bound) seens children := by
  induction h with
  | nil => exact ⟨0, List.Forall₂.nil⟩
  | cons hfirst _ ih =>
    obtain ⟨bound, hbound⟩ := hfirst
    obtain ⟨bound', hrest⟩ := ih
    exact ⟨max bound bound', List.Forall₂.cons (hbound.mono (Nat.le_max_left _ _))
      (hrest.imp fun _ _ h => h.mono (Nat.le_max_right _ _))⟩

end Sources

theorem wraps_memtable : Wraps LiveSource.memtable :=
  ⟨fun _ => rfl, fun _ => rfl, fun _ => rfl, fun _ _ => rfl, fun _ => rfl⟩

theorem wraps_table : Wraps LiveSource.table :=
  ⟨fun _ => rfl, fun _ => rfl, fun _ => rfl, fun _ _ => rfl, fun _ => rfl⟩

theorem FileMetaData.Sound.sourceOf {f : FileMetaData} (h : f.Sound) {r : SSTableReader}
    (hserves : r.Serves f.entries) (seq : Nat) :
    SourceOf seq f.entries.length f.entries (LiveSource.table r.newIterator) := by
  apply SourceOf.wrap wraps_table
  obtain ⟨l, number, hvalid, rfl⟩ := hserves
  have hcursor := @TwoLevelIterator.stands_isCursor l f.entries number hvalid
  exact ⟨_, hcursor.isSource h.sorted h.types (Nat.le_refl _), none,
    TwoLevelIterator.newIterator_stands l number⟩

theorem addIterators_sources {files : List FileMetaData} (h : ∀ f ∈ files, f.Sound) (dir : Dir)
    (faults : Faults) (seq : Nat) :
    List.Forall₂ (fun seen it => ∃ bound, SourceOf seq bound seen (LiveSource.table it))
      (Version.sources files) (files.filterMap fun f =>
        (f.openReader dir faults).toOption.map SSTableReader.newIterator) := by
  induction files with
  | nil => exact List.Forall₂.nil
  | cons f rest ih =>
    have hsound := h f (List.mem_cons_self ..)
    obtain ⟨r, hopen, hserves⟩ := hsound.openReader dir faults
    rw [List.filterMap_cons, hopen]
    exact List.Forall₂.cons ⟨_, hsound.sourceOf hserves seq⟩
      (ih fun g hg => h g (List.mem_cons_of_mem f hg))

/-! The memtables of a database in use. -/

/-- All entries of the memtables are of `Put` or `Delete`, also of those that were flushed. -/
def DBImpl.Typed (db : DBImpl) : Prop := ∀ table ∈ db.heap, ∀ e ∈ table.entries, e.HasType

def World.Typed : World → Prop
  | .resting _ => True
  | .serving db _ _ => db.Typed

section Runs

variable {options : Options} {world world' : World} {label : Option Deed} {db db' final : DBImpl}
  {dir dir' : Dir} {reads reads' : List PendingRead} {machine after : Machine FileName}
  {trace : List (Event FileName)} {status : Status} {ideal : Ideal}

theorem openDB_heap (hexit : openDB options machine = .done (status, some db) after trace) :
    db.heap = [.new] := by
  unfold openDB at hexit
  obtain ⟨locked, _, _, _, _, hexit⟩ := Sys.of_bind_done hexit
  split at hexit
  · cases hexit
  obtain ⟨⟨status₁, versions⟩, _, _, _, _, hexit⟩ := Sys.of_bind_done hexit
  simp only at hexit
  split at hexit
  · cases hexit
  obtain ⟨listing, _, _, _, _, hexit⟩ := Sys.of_bind_done hexit
  cases hlogs : logFiles versions.logNumber listing.keys with
  | none =>
    simp only [hlogs] at hexit
    cases hexit
  | some numbers =>
    simp only [hlogs] at hexit
    obtain ⟨⟨status₂, versions₂⟩, _, _, _, _, hexit⟩ := Sys.of_bind_done hexit
    simp only at hexit
    split at hexit
    · cases hexit
    unfold startLog at hexit
    obtain ⟨writer, _, _, _, _, hexit⟩ := Sys.of_bind_done hexit
    obtain ⟨⟨status₃, versions₃⟩, _, _, _, _, hexit⟩ := Sys.of_bind_done hexit
    simp only at hexit
    split at hexit
    · cases hexit
    · cases hexit
      rfl

theorem World.Typed.step (h : world.Typed)
    (hstep : World.Step steady.events options world label world') : world'.Typed := by
  cases hstep with
  | opened hexit _ =>
    intro table htable e he
    rw [openDB_heap hexit, List.mem_singleton] at htable
    rw [htable] at he
    exact (List.not_mem_nil he).elim
  | did hgranted hexit _ =>
    intro table htable e he
    rcases (DBImpl.perform_turned hexit).puts table htable e he with ⟨old, hold, he⟩ | rfl
    · exact h old hold e he
    · exact hgranted.1
  | refused | openKilled | openStuck | killed | stopped => trivial
  | waits | stuck | took | asks | got => exact h

theorem typed_of_run {seen : List Deed} (hrun : (database options).Run seen world) : world.Typed := by
  apply hrun.invariant
  · rintro _ ⟨dir, _, rfl⟩
    trivial
  · exact fun _ _ _ h hstep => h.step hstep

inductive Onward (options : Options) (world : World) : World → Prop
  | here : Onward options world world
  | step {middle world' : World} {label : Option Deed} (hbefore : Onward options world middle)
      (hstep : World.Step steady.events options middle label world')
      (hserving : world'.isServing = true) : Onward options world world'

theorem Embodies.grows (h : Embodies (.serving db dir reads) ideal)
    (hstep : World.Step steady.events options (.serving db dir reads) label
      (.serving db' dir' reads')) : db.Grows db' := by
  obtain ⟨all, _, _, ⟨loose, M, rfl, hservice⟩, _⟩ := h
  cases hstep with
  | did hgranted hexit hsteady =>
    obtain ⟨_, ⟨hnone, _⟩ | ⟨db', hresult, hgrows, _⟩⟩ :=
      (hservice.perform hgranted).done hexit rfl rfl hsteady
    · cases hnone
    · cases hresult
      exact hgrows
  | _ => exact DBImpl.Grows.refl db

theorem Onward.grows (hcreate : options.createIfMissing = true)
    (hexists : options.errorIfExists = false) (h : Embodies (.serving db dir reads) ideal)
    (honward : Onward options (.serving db dir reads) world') :
    ∃ db' dir' reads', world' = .serving db' dir' reads' ∧ db.Grows db' ∧
      ∃ ideal', Embodies world' ideal' := by
  induction honward with
  | here => exact ⟨db, dir, reads, rfl, DBImpl.Grows.refl db, ideal, h⟩
  | @step middle world' label _ hstep hserving ih =>
    obtain ⟨db₁, dir₁, reads₁, rfl, hgrows, ideal₁, h₁⟩ := ih
    obtain ⟨ideal₂, h₂, _⟩ := (database_simulates hcreate hexists).step _ _ _ _ h₁ hstep
    cases world' with
    | resting dir => cases hserving
    | serving db₂ dir₂ reads₂ =>
      exact ⟨db₂, dir₂, reads₂, rfl, hgrows.trans (h₁.grows hstep), ideal₂, h₂⟩

theorem Onward.typed (honward : Onward options world world') (h : world.Typed) : world'.Typed := by
  induction honward with
  | here => exact h
  | step _ hstep _ ih => exact ih.step hstep

/-- The operations of the iterators of the memtables come behind `world` and before `last`. -/
def Moments (options : Options) (world last : World) (moment : Nat → Nat → DBImpl) : Prop :=
  ∀ index n, ∃ dir reads, Onward options world (.serving (moment index n) dir reads) ∧
    Onward options (.serving (moment index n) dir reads) last

theorem DBImpl.Grows.mem_entries (h : db.Grows db') {index : Nat} (hindex : index < db.heap.length)
    {e : Entry} (he : e ∈ (db.memtable index).entries) : e ∈ (db'.memtable index).entries := by
  obtain ⟨more, hmore, _⟩ := h.tables index hindex
  rw [hmore, (perm_foldl_add _ more).mem_iff]
  exact List.mem_append_right more he

theorem DBImpl.Grows.growing {index : Nat} (hindex : index < db.heap.length) {now : Nat → DBImpl}
    (hbefore : ∀ n, db.Grows (now n)) (hbehind : ∀ n, (now n).Grows final) (htyped : final.Typed)
    (hsorted : Sorted (db.memtable index).entries) (hdistinct : Distinct (db.memtable index).entries)
    (hlimit : db.versions.lastSequence ≤ kMaxSequenceNumber) :
    Growing db.versions.lastSequence (fun n => (now n).memtable index) (final.memtable index).entries
      (db.memtable index).entries := by
  have hlength : ∀ n, index < (now n).heap.length := fun n =>
    Nat.lt_of_lt_of_le hindex (hbefore n).length
  refine ⟨fun n => ?_, fun n e he => (hbehind n).mem_entries (hlength n) he, hdistinct, ?_, ?_, hlimit⟩
  · obtain ⟨more, hmore, _⟩ := (hbefore n).tables index hindex
    simp only [hmore]
    exact sorted_foldl_add hsorted more
  · have hlast : index < final.heap.length := Nat.lt_of_lt_of_le (hlength 0) (hbehind 0).length
    apply htyped
    rw [DBImpl.memtable, List.getD_eq_getElem _ _ hlast]
    exact List.getElem_mem hlast
  · intro n e hseq
    obtain ⟨more, hmore, hnewer⟩ := (hbefore n).tables index hindex
    simp only [hmore]
    rw [(perm_foldl_add _ more).mem_iff, List.mem_append]
    exact or_iff_right fun he => absurd (hnewer e he) (Nat.not_lt.mpr hseq)

end Runs

/-! The pairs of a snapshot. -/

namespace Serving

variable {loose : Prop} {all : List Entry} {db : DBImpl} {M : Medium FileName} {m : Nat}
  {r : Recovery} {olds : List (Nat × List Entry)} {records : List Entry}
  (h : Serving loose all db M m r olds records) (hsingle : db.Single olds)

include h hsingle in
theorem reduces_sources : Reduces all (sources db).flatten := by
  obtain ⟨flushed, haccounts⟩ := h.accounts
  exact haccounts.reduces.of_mem_iff (fun _ => Iff.rfl) fun e => h.mem_sources hsingle

include h hsingle in
theorem isVisible_iff (hordered : InSequence all) (key : Key) (value : Bytes) :
    IsVisible (sources db).flatten db.versions.lastSequence key value ↔
      mapOf all key = some value := by
  have hreduces := h.reduces_sources hsingle
  have hdistinct := h.distinct.mono hreduces.subset
  have habsent : (∀ x ∈ (sources db).flatten, x.userKey ≠ key) →
      ¬ IsVisible (sources db).flatten db.versions.lastSequence key value := by
    rintro hnone ⟨x, hnewest, _⟩
    exact hnone x hnewest.mem hnewest.hasKey
  cases hlast : lastOf all key with
  | none =>
    have hnot := habsent fun x hx => lastOf_none hlast (hreduces.subset x hx)
    simp [mapOf, hlast, hnot]
  | some e =>
    rw [mapOf, hlast, Option.bind_some]
    rcases hreduces.firstHit h.sources_ordered h.distinct (lastOf_top hordered hlast) with
      hhit | ⟨hnone, hdead⟩
    · obtain ⟨hmem, hkey, htop⟩ := firstHit_top h.sources_ordered hhit
      have hheld := (h.mem_sources hsingle).mp hmem
      have hnewest : IsNewest (sources db).flatten key db.versions.lastSequence e :=
        ⟨hmem, hkey, h.seqs e hheld, fun x hx hxkey _ => htop x hx hxkey⟩
      have honly : ∀ x, IsNewest (sources db).flatten key db.versions.lastSequence x → x = e := by
        intro x hx
        apply hdistinct x hx.mem e hmem (hx.hasKey.trans hkey.symm)
        exact le_antisymm (hnewest.largest x hx.mem hx.hasKey hx.visible)
          (hx.largest e hmem hkey hnewest.visible)
      constructor
      · rintro ⟨x, hx, htype, hvalue⟩
        cases honly x hx
        simp [htype, hvalue, kTypeValue, kTypeDeletion]
      · intro hvalue
        refine ⟨e, hnewest, ?_⟩
        rcases h.held_hasType hheld with htype | htype
        · simpa [htype, kTypeValue, kTypeDeletion] using hvalue
        · simp [htype] at hvalue
    · have htype : e.type = kTypeDeletion := hdead
      have hnot := habsent (firstHit_none.mp hnone)
      simp [htype, hnot]

include h hsingle in
theorem exists_lists : ∃ items : List (Key × Bytes),
    Lists db.versions.lastSequence (sources db).flatten items := by
  have hdistinct := h.distinct.mono (h.reduces_sources hsingle).subset
  have hsorted : Sorted ((sources db).flatten.foldl add Memtable.new).entries :=
    sorted_foldl_add (m := Memtable.new) List.Pairwise.nil _
  have hmem : ∀ e, e ∈ ((sources db).flatten.foldl add Memtable.new).entries ↔
      e ∈ (sources db).flatten := fun e => mem_foldl_add
  refine ⟨view (upTo db.versions.lastSequence ((sources db).flatten.foldl add Memtable.new).entries),
    ?_, fun key value => ?_⟩
  · exact view_keys_lt (keysSorted_of_sorted (hsorted.sublist List.filter_sublist))
  · rw [mem_view_upTo hsorted (hdistinct.mono fun e he => (hmem e).mp he)]
    exact ⟨fun hv => hv.of_mem_iff hmem, fun hv => hv.of_mem_iff fun e => (hmem e).symm⟩

end Serving

theorem Serving.memtable_growing {loose : Prop} {all : List Entry} {db : DBImpl}
    {M : Medium FileName} {m : Nat} {r : Recovery} {olds : List (Nat × List Entry)}
    {records : List Entry} (h : Serving loose all db M m r olds records) (hsingle : db.Single olds)
    (hlimit : db.versions.lastSequence ≤ kMaxSequenceNumber) {final : DBImpl} (htyped : final.Typed)
    {index : Nat} (hindex : index ∈ db.mem :: db.imm.toList) {now : Nat → DBImpl}
    (hbefore : ∀ n, db.Grows (now n)) (hbehind : ∀ n, (now n).Grows final) :
    Growing db.versions.lastSequence (fun n => (now n).memtable index) (final.memtable index).entries
      (db.memtable index).entries := by
  have hlength : index < db.heap.length := by
    rcases List.mem_cons.mp hindex with rfl | himm
    · exact h.mem.1
    · exact (h.imm index (Option.mem_toList.mp himm)).1
  have htable : db.memtable index ∈ db.memtables db.capture := by
    rw [DBImpl.memtables, Option.toList_map]
    exact List.mem_map_of_mem hindex
  have hsub : ∀ e ∈ (db.memtable index).entries, e ∈ all := by
    intro e he
    apply (h.reduces_sources hsingle).subset
    rw [Serving.sources, List.flatten_append]
    exact List.mem_append_left _ (List.mem_flatten.mpr ⟨_, List.mem_map_of_mem htable, he⟩)
  have hsorted : Sorted (db.memtable index).entries := by
    rw [h.memtables_eq hsingle] at htable
    obtain ⟨es, _, htable⟩ := List.mem_map.mp htable
    rw [← htable]
    exact sorted_foldl_add (m := Memtable.new) List.Pairwise.nil es
  exact DBImpl.Grows.growing hlength hbefore hbehind htyped hsorted (h.distinct.mono hsub) hlimit

/-- The iterator of a store that serves these writes, over memtables that are read at any moments
behind that. -/
theorem InService.follows {loose : Prop} {all : List Entry} {db final : DBImpl} {M : Medium FileName}
    (h : InService loose all db M) (hseq : InSequence all)
    (hlimit : db.versions.lastSequence ≤ kMaxSequenceNumber) (hfinal : final.Typed)
    {moment : Nat → Nat → DBImpl}
    (hbetween : ∀ index n, db.Grows (moment index n) ∧ (moment index n).Grows final) :
    ∃ items, (items.Pairwise fun a b => a.1 < b.1) ∧
      (∀ key value, (key, value) ∈ items ↔ mapOf all key = some value) ∧
      ∃ enough, ∀ fuel ≥ enough, ∀ moves : List (Move Key),
        (DBImpl.newLiveIterator moment M.dir db.capture).Follows fuel items none moves := by
  obtain ⟨m, r, olds, records, hserving, hsingle⟩ := h
  obtain ⟨items, hlists⟩ := hserving.exists_lists hsingle
  refine ⟨items, hlists.sorted, fun key value => ?_, ?_⟩
  · rw [hlists.mem, hserving.isVisible_iff hsingle hseq]
  have hmems : List.Forall₂
      (fun seen it => ∃ bound, SourceOf db.versions.lastSequence bound seen it)
      ((db.memtables db.capture).map Memtable.entries)
      ((db.mem :: db.imm.toList).map fun index =>
        LiveSource.memtable ⟨fun n => (moment index n).memtable index, 0, none⟩) := by
    have hshape : (db.memtables db.capture).map Memtable.entries =
        (db.mem :: db.imm.toList).map fun index => (db.memtable index).entries := by
      rw [DBImpl.memtables, Option.toList_map, List.map_cons, List.map_cons, List.map_map]
      rfl
    rw [hshape, List.forall₂_map_left_iff, List.forall₂_map_right_iff, List.forall₂_same]
    intro index hindex
    have hgrowing := hserving.memtable_growing hsingle hlimit hfinal hindex
      (fun n => (hbetween index n).1) fun n => (hbetween index n).2
    refine ⟨(final.memtable index).entries.length, SourceOf.wrap wraps_memtable ?_⟩
    refine ⟨_, hgrowing.isSource (Nat.le_refl _), rfl, fun e he => ?_⟩
    cases he
  have htables : List.Forall₂
      (fun seen it => ∃ bound, SourceOf db.versions.lastSequence bound seen it)
      (Version.sources db.versions.current.allFiles)
      ((db.versions.current.addIterators M.dir fun _ => none).map LiveSource.table) := by
    rw [List.forall₂_map_right_iff]
    apply addIterators_sources
    intro f hf
    obtain ⟨level, hlevel⟩ := Version.mem_allFiles.mp hf
    exact hserving.holds.stacked.good.sound level f hlevel
  obtain ⟨bound, hsources⟩ := exists_sources (List.rel_append hmems htables)
  refine ⟨(Serving.sources db).length * bound + 1, fun fuel hfuel moves => ?_⟩
  exact DBIterator.new_follows hsources hlists
    (hserving.distinct.mono (hserving.reduces_sources hsingle).subset) hfuel moves

/-- The iterator of a database in use goes over the map as it was when the iterator was made,
whatever is written, flushed, compacted or removed meanwhile. -/
theorem iterator_is_a_snapshot (options : Options) (hcreate : options.createIfMissing = true)
    (hexists : options.errorIfExists = false) (seen : List Deed) (db : DBImpl) (dir : Dir)
    (reads : List PendingRead)
    (hrun : (database options).Run seen (.serving db dir reads))
    (hlimit : db.versions.lastSequence ≤ kMaxSequenceNumber)
    (last : World) (moment : Nat → Nat → DBImpl)
    (hmoments : Moments options (.serving db dir reads) last moment) :
    ∃ ideal items, Ideal.system.Run seen ideal ∧
      (items.Pairwise fun a b => a.1 < b.1) ∧
      (∀ key value, (key, value) ∈ items ↔ ideal.map key = some value) ∧
      ∃ enough, ∀ fuel ≥ enough, ∀ moves : List (Move Key),
        (DBImpl.newLiveIterator moment dir db.capture).Follows fuel items none moves := by
  obtain ⟨ideal, hideal, hembodies⟩ := (database_simulates hcreate hexists).run hrun
  have htyped := typed_of_run hrun
  have hmoment : ∀ index n, ∃ final dir' reads', last = .serving final dir' reads' ∧
      db.Grows (moment index n) ∧ (moment index n).Grows final ∧ final.Typed := by
    intro index n
    obtain ⟨dir₁, reads₁, hbefore, hbehind⟩ := hmoments index n
    obtain ⟨_, _, _, hworld, hgrows, ideal₁, hembodies₁⟩ := hbefore.grows hcreate hexists hembodies
    cases hworld
    obtain ⟨final, dir₂, reads₂, rfl, hgrows', _⟩ := hbehind.grows hcreate hexists hembodies₁
    exact ⟨final, dir₂, reads₂, rfl, hgrows, hgrows', hbehind.typed (hbefore.typed htyped)⟩
  obtain ⟨final, _, _, rfl, _, _, hfinal⟩ := hmoment 0 0
  have hbetween : ∀ index n, db.Grows (moment index n) ∧ (moment index n).Grows final := by
    intro index n
    obtain ⟨_, _, _, hlast, hgrows, hgrows', _⟩ := hmoment index n
    cases hlast
    exact ⟨hgrows, hgrows'⟩
  obtain ⟨all, hseq, hmap, ⟨loose, M, rfl, hservice⟩, _⟩ := hembodies
  obtain ⟨items, hsorted, hitems, hfollows⟩ := hservice.follows hseq hlimit hfinal hbetween
  exact ⟨ideal, items, hideal, hsorted, fun key value => hmap ▸ hitems key value, hfollows⟩

/-- A key is written; behind that it is deleted, and both tables are flushed and compacted. -/
def deletedBehind : Option (List Deed × World × World × World) := do
  let (seen, world) ← World.play tinyTables ([], .resting ∅) [.openIt [], .act firstPut []]
  let (_, middle) ← world.next tinyTables (.act (.write kTypeDeletion [97] []) [])
  let (_, last) ← middle.next tinyTables (.act .backgroundCompaction [])
  return (seen, world, middle, last)

def World.lastSequence : World → Nat
  | .serving db _ _ => db.versions.lastSequence
  | .resting _ => 0

set_option maxRecDepth 8192 in
theorem deletedBehind_onward : ∃ db dir reads db' dir' reads',
    (database tinyTables).Run [.opened .ok, .did firstPut .ok] (.serving db dir reads) ∧
      db.versions.lastSequence = 1 ∧ db'.versions.lastSequence = 2 ∧
      Onward tinyTables (.serving db dir reads) (.serving db' dir' reads') := by
  have hplay : deletedBehind.map (fun p => (p.1, [p.2.1, p.2.2.1, p.2.2.2].map World.isServing,
      [p.2.1, p.2.2.2].map World.lastSequence)) =
      some ([.opened .ok, .did firstPut .ok], [true, true, true], [1, 2]) := by
    decide +kernel
  obtain ⟨⟨seen, world, middle, last⟩, hplay, hlooks⟩ := Option.map_eq_some_iff.mp hplay
  simp only [List.map_cons, List.map_nil, Prod.mk.injEq, List.cons.injEq, and_true] at hlooks
  obtain ⟨rfl, ⟨hworld, hmiddle, hlast⟩, hbefore, hbehind⟩ := hlooks
  simp only [deletedBehind, Option.bind_eq_bind, Option.bind_eq_some_iff] at hplay
  obtain ⟨⟨_, world⟩, hstart, ⟨_, middle⟩, hdelete, ⟨_, last⟩, hcompact, hresult⟩ := hplay
  cases hresult
  have hbare : (database tinyTables).Run [] (.resting ∅) :=
    .start ⟨∅, bare_empty, rfl⟩
  have honward := (Onward.here.step (World.step_of_next hdelete) hmiddle).step
    (World.step_of_next hcompact) hlast
  cases world with
  | resting dir => cases hworld
  | serving db dir reads =>
    cases last with
    | resting dir => cases hlast
    | serving db' dir' reads' =>
      exact ⟨db, dir, reads, db', dir', reads', World.run_of_play hbare hstart, hbefore, hbehind,
        honward⟩

theorem iterator_is_a_snapshot_deletedBehind : ∃ db dir reads db' dir' reads' ideal items,
    (database tinyTables).Run [.opened .ok, .did firstPut .ok] (.serving db dir reads) ∧
      Moments tinyTables (.serving db dir reads) (.serving db' dir' reads')
        (fun _ n => if n = 0 then db else db') ∧
      Ideal.system.Run [.opened .ok, .did firstPut .ok] ideal ∧
      (∀ key value, (key, value) ∈ items ↔ ideal.map key = some value) ∧
      ∃ enough, ∀ fuel ≥ enough, ∀ moves : List (Move Key),
        (DBImpl.newLiveIterator (fun _ n => if n = 0 then db else db') dir db.capture).Follows fuel
          items none moves := by
  obtain ⟨db, dir, reads, db', dir', reads', hrun, hseq, _, honward⟩ := deletedBehind_onward
  have hmoments : Moments tinyTables (.serving db dir reads) (.serving db' dir' reads')
      (fun _ n => if n = 0 then db else db') := by
    intro index n
    cases n with
    | zero => exact ⟨dir, reads, .here, honward⟩
    | succ n => exact ⟨dir', reads', honward, .here⟩
  obtain ⟨ideal, items, hideal, _, hitems, hfollows⟩ := iterator_is_a_snapshot tinyTables rfl rfl
    _ db dir reads hrun (by rw [hseq]; decide) _ _ hmoments
  exact ⟨db, dir, reads, db', dir', reads', ideal, items, hrun, hmoments, hideal, hitems, hfollows⟩

/-- A value of 64 MiB is flushed to a table whose block is too long to be read, and lost with the
compaction of that table: the map has the key, and `SeekToFirst` shows nothing. -/
theorem large_value_never_shown : ∃ (db : DBImpl) (dir : Dir) (ideal : Ideal),
    (databaseUnder unlimited tinyTables).Run largeDeeds (.serving db dir []) ∧
      db.versions.lastSequence ≤ kMaxSequenceNumber ∧
      Moments tinyTables (.serving db dir []) (.serving db dir []) (fun _ _ => db) ∧
      Ideal.system.Run largeDeeds ideal ∧ ideal.map [97] = some largeValue ∧
      ∀ items : List (Key × Bytes),
        (∀ key value, (key, value) ∈ items ↔ ideal.map key = some value) → ∀ fuel,
        ¬ (DBImpl.newLiveIterator (fun _ _ => db) dir db.capture).Follows fuel items none
          [.first] := by
  obtain ⟨db, dir, hnew, hrun⟩ := large_run
  have hnone : Ideal.system.Run [] ⟨fun _ => none, []⟩ := .start rfl
  have hideal := (((hnone.step (.opened _)).step (.did _ (.write kTypeValue [97] largeValue))).step
    (.did _ .flushMemTable)).step (.did _ .backgroundCompaction)
  have hmap : (Action.write kTypeValue [97] largeValue).apply (fun _ => none) [97] =
      some largeValue := by
    rw [Action.apply, Function.update_self]
    rfl
  refine ⟨largeDropped db, dir, _, hrun, (by decide : 1 ≤ kMaxSequenceNumber),
    fun _ _ => ⟨dir, [], .here, .here⟩, hideal, hmap, fun items hitems fuel hfollows => ?_⟩
  have hshown : ((DBImpl.newLiveIterator (fun _ _ => largeDropped db) dir
      (largeDropped db).capture).operate fuel .first).shown = none := by
    cases fuel with
    | zero => rfl
    | succ fuel => rfl
  have hmem := (hitems [97] largeValue).mpr hmap
  have hfirst := (hfollows fun h => by cases h).1
  rw [hshown] at hfirst
  cases items with
  | nil => cases hmem
  | cons item rest => cases hfirst

end Strata
