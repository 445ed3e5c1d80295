import Strata.SkipListInsert
import Strata.MergingCursor
import Strata.TableLookup

/-! The memtable over its skip list: what `Add` builds, what `Get` and the iterator read
from it, and that this is the sorted list of the entries. -/
namespace Strata

open Library Chain SkipList Cursor

/-- `SkipList::Iterator` -/
structure ListIterator (κ : Type) where
  list : SkipList κ
  node : Option Nat

namespace ListIterator

variable {κ : Type}

def valid (it : ListIterator κ) : Bool := it.node.isSome

def key (it : ListIterator κ) : Option κ := it.node.bind it.list.keyOf

def ofNode (list : SkipList κ) (node : Nat) : ListIterator κ :=
  ⟨list, if node = head then none else some node⟩

def next (it : ListIterator κ) : Option (ListIterator κ) := do
  let node ← it.node
  let next ← it.list.load node 0
  some ⟨it.list, next⟩

def seekToFirst (it : ListIterator κ) : Option (ListIterator κ) := do
  let next ← it.list.load head 0
  some ⟨it.list, next⟩

def seekToLast (it : ListIterator κ) : Option (ListIterator κ) := do
  let node ← it.list.findLast
  some (ofNode it.list node)

section Compare

variable (before : κ → κ → Prop) [DecidableRel before]

def prev (it : ListIterator κ) : Option (ListIterator κ) := do
  let key ← it.key
  let node ← it.list.findLessThan before key
  some (ofNode it.list node)

def seek (it : ListIterator κ) (target : κ) : Option (ListIterator κ) := do
  let (node, _) ← it.list.findGreaterOrEqual before target
  some ⟨it.list, node⟩

end Compare

def drain (move : ListIterator κ → Option (ListIterator κ)) :
    Nat → ListIterator κ → Option (List κ)
  | fuel, it =>
    if it.valid then
      match fuel with
      | 0 => none
      | fuel + 1 => do
        let key ← it.key
        let rest ← drain move fuel (← move it)
        some (key :: rest)
    else some []

end ListIterator

structure SkipMemtable where
  table : SkipList Entry
  memoryUsage : Nat
  count : Nat

namespace SkipMemtable

def new : SkipMemtable := ⟨SkipList.new, 0, 0⟩

def add (m : SkipMemtable) (e : Entry) (height : TowerHeight) : Option SkipMemtable := do
  let table ← m.table.insert Entry.before e height
  some ⟨table,
    m.memoryUsage + (kMemtableEntrySize + e.userKey.length + e.value.length + 8 * 8),
    m.count + 1⟩

def newIterator (m : SkipMemtable) : ListIterator Entry := ⟨m.table, none⟩

def get (m : SkipMemtable) (key : Key) (seq : Nat) : Option Lookup := do
  let it ← m.newIterator.seek Entry.before ⟨key, seq, kTypeValue, []⟩
  match it.key with
  | none => some .absent
  | some entry =>
    if entry.userKey = key then
      if entry.type = kTypeValue then some (.found entry.value)
      else if entry.type = kTypeDeletion then some .deleted
      else some .absent
    else some .absent

/-- `MemTableIterator::Seek` -/
def seek (m : SkipMemtable) (target : Key) : Option (ListIterator Entry) :=
  m.newIterator.seek Entry.before ⟨target, kMaxSequenceNumber, kTypeValue, []⟩

/-- A sequence of `Add` calls, each with the height that its node is given. -/
def addAll (m : SkipMemtable) (adds : List (Entry × TowerHeight)) : Option SkipMemtable :=
  adds.foldlM (fun m a => m.add a.1 a.2) m

end SkipMemtable

/-! A list between two insertions, through its iterator. -/
namespace SkipList

variable {κ : Type} {before : κ → κ → Prop} {s : SkipList κ} {order front back : List Nat}

def keysOf (s : SkipList κ) (nodes : List Nat) : List κ := nodes.filterMap s.keyOf

theorem keysOf_take {n : Nat} (hn : n ≤ s.towers.length) :
    s.keysOf (List.range' 1 n) = (s.towers.take n).map Prod.fst := by
  induction n with
  | zero => rfl
  | succ n ih =>
    have hget : s.towers[n]? = some s.towers[n] := List.getElem?_eq_getElem hn
    rw [List.range'_1_concat, keysOf, List.filterMap_append, ← keysOf, ih (by omega),
      List.take_add_one, hget, List.map_append]
    have hkey : s.keyOf (n + 1) = some s.towers[n].1 := by rw [keyOf, hget]; rfl
    simp [Nat.add_comm 1 n, hkey]

theorem Levels.perm_keysOf (h : Levels before s order s.heightOf) :
    (s.keysOf order).Perm (s.towers.map Prod.fst) := by
  have hperm := h.nodes.filterMap s.keyOf
  rwa [← keysOf, ← keysOf, keysOf_take (Nat.le_refl _), List.take_length] at hperm

theorem Levels.sorted_keysOf (h : Levels before s order s.heightOf) :
    (s.keysOf order).Pairwise before := by
  apply h.sorted.filterMap
  rintro x y ⟨a, b, ha, hb, hab⟩ k hk k' hk'
  rw [ha] at hk
  rw [hb] at hk'
  cases hk
  cases hk'
  exact hab

theorem Levels.load_zero (h : Levels before s (front ++ back) s.heightOf) :
    s.load (lastOf head front) 0 = some back.head? := by
  have hzero : levelOf (front ++ back) s.heightOf 0 = front ++ back :=
    h.levelOf_zero fun _ hx => hx
  have hchain := h.chains 0
  rw [hzero] at hchain
  rw [h.load_eq (by decide), hchain.split]
  rw [hzero]
  exact (lastOf_eq_or_mem head front).imp And.right (List.mem_append_left back)

theorem Levels.traverse_zero (h : Levels before s (front ++ back) s.heightOf)
    {advance : Nat → Bool} (hfront : ∀ x ∈ front, advance x = true)
    (hback : ∀ x ∈ back, advance x = false) :
    ∃ prev, s.traverse advance = some ⟨lastOf head front, back.head?, prev⟩ := by
  have hzero : levelOf front s.heightOf 0 = front :=
    h.levelOf_zero fun x hx => List.mem_append_left back hx
  have hzero' : levelOf back s.heightOf 0 = back :=
    h.levelOf_zero fun x hx => List.mem_append_right front hx
  have htraverse := h.traverse_eq hfront hback
  rw [hzero, hzero'] at htraverse
  exact ⟨_, htraverse⟩

theorem Levels.ofNode_lastOf (h : Levels before s (front ++ back) s.heightOf) :
    ListIterator.ofNode s (lastOf head front) = ⟨s, front.getLast?⟩ := by
  rcases List.eq_nil_or_concat front with rfl | ⟨init, x, rfl⟩
  · rfl
  · rw [List.concat_eq_append, lastOf_append_singleton, List.getLast?_concat,
      ListIterator.ofNode, if_neg]
    rintro rfl
    exact h.head_not_mem (by simp)

theorem Levels.seekToFirst_eq (h : Levels before s order s.heightOf) (node : Option Nat) :
    ListIterator.seekToFirst ⟨s, node⟩ = some ⟨s, order.head?⟩ := by
  rw [← List.nil_append order] at h
  have hload : s.load head 0 = some order.head? := h.load_zero
  rw [ListIterator.seekToFirst, hload]
  rfl

theorem Levels.next_node {x : Nat} (h : Levels before s (front ++ x :: back) s.heightOf) :
    ListIterator.next ⟨s, some x⟩ = some ⟨s, back.head?⟩ := by
  have hload : s.load x 0 = some back.head? := by
    rw [List.append_cons] at h
    simpa using h.load_zero
  rw [ListIterator.next]
  simp [hload]

theorem Levels.seekToLast_eq (h : Levels before s order s.heightOf) (node : Option Nat) :
    ListIterator.seekToLast ⟨s, node⟩ = some ⟨s, order.getLast?⟩ := by
  rw [← List.append_nil order] at h
  obtain ⟨prev, htraverse⟩ : ∃ prev, s.traverse (fun _ => true) = some ⟨_, _, prev⟩ :=
    h.traverse_zero (fun _ _ => rfl) nofun
  rw [ListIterator.seekToLast, findLast, htraverse]
  exact congrArg some h.ofNode_lastOf

theorem Levels.drain_next (h : Levels before s (front ++ back) s.heightOf) {fuel : Nat}
    (hfuel : back.length ≤ fuel) :
    ListIterator.drain ListIterator.next fuel ⟨s, back.head?⟩ = some (s.keysOf back) := by
  induction back generalizing front fuel with
  | nil => cases fuel <;> rfl
  | cons x rest ih =>
    obtain ⟨key, hkey⟩ := h.key (x := x) (by simp)
    obtain ⟨fuel, rfl⟩ : ∃ n, fuel = n + 1 := Nat.exists_eq_succ_of_ne_zero (by
      rw [List.length_cons] at hfuel
      omega)
    have hrest := h
    rw [List.append_cons] at hrest
    have htail := ih hrest (Nat.le_of_succ_le_succ hfuel)
    simp [ListIterator.drain, ListIterator.valid, ListIterator.key, hkey, h.next_node, htail,
      keysOf]

section Compare

variable [DecidableRel before] (hirrefl : ∀ a, ¬ before a a)
  (htrans : ∀ a b c, before a b → before b c → before a c)

include hirrefl htrans in
theorem Levels.prev_node {x : Nat} (h : Levels before s (front ++ x :: back) s.heightOf) :
    ListIterator.prev before ⟨s, some x⟩ = some ⟨s, front.getLast?⟩ := by
  obtain ⟨key, hkey⟩ := h.key (x := x) (by simp)
  obtain ⟨_, hrest, hcross⟩ := List.pairwise_append.mp h.sorted
  have hfront : ∀ y ∈ front, s.keyIsAfterNode before key y = true := by
    intro y hy
    obtain ⟨a, b, ha, hb, hab⟩ := hcross y hy x List.mem_cons_self
    rw [hkey] at hb
    cases hb
    exact (keyIsAfterNode_iff ha).mpr hab
  have hback : ∀ y ∈ x :: back, s.keyIsAfterNode before key y = false := by
    intro y hy
    apply Bool.eq_false_iff.mpr
    rcases List.mem_cons.mp hy with rfl | hmem
    · rw [Ne, keyIsAfterNode_iff hkey]
      exact hirrefl key
    · obtain ⟨a, b, ha, hb, hab⟩ := (List.pairwise_cons.mp hrest).1 y hmem
      rw [hkey] at ha
      cases ha
      rw [Ne, keyIsAfterNode_iff hb]
      exact fun hba => hirrefl key (htrans _ _ _ hab hba)
  obtain ⟨prev, htraverse⟩ := h.traverse_zero hfront hback
  simp only [ListIterator.prev, ListIterator.key, findLessThan, Option.bind_some, hkey,
    htraverse, Option.map_some, Option.bind_eq_bind]
  exact congrArg some h.ofNode_lastOf

include hirrefl htrans in
theorem Levels.seek_isFirst (h : Levels before s order s.heightOf) (node : Option Nat) (target : κ) :
    ∃ it, ListIterator.seek before ⟨s, node⟩ target = some it ∧
      IsFirst before (fun k => k ∈ s.keysOf order ∧ ¬ before k target) it.key := by
  obtain ⟨front, back, rfl, hfront, hback⟩ := h.split_at htrans target
  obtain ⟨prev, htraverse⟩ := h.traverse_zero hfront hback
  refine ⟨⟨s, back.head?⟩, by simp [ListIterator.seek, findGreaterOrEqual, htraverse], ?_⟩
  have hsorted := h.sorted_keysOf
  rw [keysOf, List.filterMap_append] at hsorted
  have hkey : ListIterator.key ⟨s, back.head?⟩ = (back.filterMap s.keyOf).head? := by
    cases back with
    | nil => rfl
    | cons y rest =>
      obtain ⟨key, hkey⟩ := h.key (x := y) (by simp)
      simp [ListIterator.key, hkey]
  rw [hkey, keysOf, List.filterMap_append]
  apply isFirst_head? hsorted fun a b hab hba => hirrefl a (htrans _ _ _ hab hba)
  · intro k hk
    obtain ⟨x, hx, hkeyOf⟩ := List.mem_filterMap.mp hk
    exact not_not.mpr ((keyIsAfterNode_iff hkeyOf).mp (hfront x hx))
  · intro k hk hbefore
    obtain ⟨x, hx, hkeyOf⟩ := List.mem_filterMap.mp hk
    exact absurd ((keyIsAfterNode_iff hkeyOf).mpr hbefore) (by simp [hback x hx])

include hirrefl htrans in
theorem Levels.drain_prev (h : Levels before s (front ++ back) s.heightOf) {fuel : Nat}
    (hfuel : front.length ≤ fuel) :
    ListIterator.drain (ListIterator.prev before) fuel ⟨s, front.getLast?⟩ =
      some (s.keysOf front).reverse := by
  induction front using List.reverseRecOn generalizing back fuel with
  | nil => cases fuel <;> rfl
  | append_singleton init x ih =>
    obtain ⟨key, hkey⟩ := h.key (x := x) (by simp)
    obtain ⟨fuel, rfl⟩ : ∃ n, fuel = n + 1 := Nat.exists_eq_succ_of_ne_zero (by
      rw [List.length_append, List.length_singleton] at hfuel
      omega)
    rw [← List.append_cons] at h
    rw [List.length_append, List.length_singleton] at hfuel
    have hinit := ih h (Nat.le_of_succ_le_succ hfuel)
    simp [ListIterator.drain, ListIterator.valid, ListIterator.key, hkey,
      h.prev_node hirrefl htrans, hinit, keysOf]

end Compare

def ListsKeys (s : SkipList κ) (level : Nat) (keys : List κ) : Prop :=
  ∃ nodes, Linked (fun n => s.next n level) head nodes ∧ nodes.map s.keyOf = keys.map some

theorem Levels.map_keyOf {linked : Nat → Nat} (h : Levels before s order linked)
    {nodes : List Nat} (hnodes : ∀ x ∈ nodes, x ∈ order) :
    nodes.map s.keyOf = (s.keysOf nodes).map some := by
  induction nodes with
  | nil => rfl
  | cons x rest ih =>
    obtain ⟨key, hkey⟩ := h.key (hnodes x List.mem_cons_self)
    have hrest := ih fun y hy => hnodes y (List.mem_cons_of_mem x hy)
    simp only [keysOf, List.map_cons, List.filterMap_cons, hkey] at hrest ⊢
    rw [hrest]

theorem Levels.listsKeys (h : Levels before s order s.heightOf) (level : Nat) :
    s.ListsKeys level (s.keysOf (levelOf order s.heightOf level)) :=
  ⟨_, h.chains level, h.map_keyOf fun _ hx => (mem_levelOf.mp hx).1⟩

end SkipList

theorem Entry.before_chain (a b c : Entry) (hab : a.before b) (hbc : b.before c) : a.before c :=
  Entry.before_trans hab hbc

namespace SkipMemtable

def Distinct (es : List Entry) : Prop :=
  es.Pairwise fun a b => ¬ (a.userKey = b.userKey ∧ a.seq = b.seq)

theorem Distinct.perm {es es' : List Entry} (h : Distinct es) (hperm : es'.Perm es) :
    Distinct es' := by
  refine (hperm.pairwise_iff ?_).mpr h
  intro a b hab hba
  exact hab ⟨hba.1.symm, hba.2.symm⟩

/-- The skip list has the entries of the sorted list on its lowest level. -/
structure Represents (m : SkipMemtable) (list : Memtable) (order : List Nat) : Prop where
  levels : Levels Entry.before m.table order m.table.heightOf
  entries : m.table.keysOf order = list.entries
  memoryUsage : m.memoryUsage = list.memoryUsage
  count : m.count = list.count

theorem represents_new : Represents new .new [] := ⟨Levels.new, rfl, rfl, rfl⟩

theorem Represents.add {m : SkipMemtable} {list : Memtable} {order : List Nat}
    (h : Represents m list order) {e : Entry} (height : TowerHeight)
    (hnew : ∀ x ∈ list.entries, ¬ (x.userKey = e.userKey ∧ x.seq = e.seq)) :
    ∃ m' order', m.add e height = some m' ∧ Represents m' (list.add e) order' := by
  have hkeys := h.levels.perm_keysOf
  rw [h.entries] at hkeys
  have hcompare : ∀ tower ∈ m.table.towers, e.before tower.1 ∨ tower.1.before e := by
    intro tower htower
    have hmem : tower.1 ∈ list.entries := hkeys.mem_iff.mpr (List.mem_map_of_mem htower)
    exact (Entry.before_or_before (hnew tower.1 hmem)).symm
  obtain ⟨table, order', hinsert, htowers, hlevels⟩ :=
    h.levels.insert Entry.before_chain height hcompare
  have hsorted := hlevels.sorted_keysOf
  have hperm : (table.keysOf order').Perm (list.add e).entries := by
    have hadded := hlevels.perm_keysOf
    rw [htowers, List.map_append] at hadded
    have hlast : (m.table.towers.map Prod.fst ++ [e]).Perm (e :: list.entries) :=
      (List.perm_append_singleton ..).trans (hkeys.symm.cons e)
    exact hadded.trans (hlast.trans (Memtable.perm_add list e).symm)
  have hlist : Memtable.Sorted list.entries := by
    rw [← h.entries]
    exact h.levels.sorted_keysOf.imp Entry.before_asymm
  refine ⟨⟨table, _, _⟩, order', by rw [SkipMemtable.add, hinsert]; rfl, hlevels, ?_, ?_, ?_⟩
  · apply hperm.eq_of_pairwise _ (hsorted.imp Entry.before_asymm) (Memtable.sorted_insert hlist e)
    intro a b ha hb hab hba
    rcases compares_of_pairwise hsorted a ha b (hperm.mem_iff.mpr hb) with heq | hlt | hgt
    · exact heq
    · exact absurd hlt hba
    · exact absurd hgt hab
  · rw [Memtable.add, ← h.memoryUsage]
  · have hlength := (Memtable.perm_add list e).length_eq
    rw [List.length_cons] at hlength
    rw [Memtable.count, hlength, h.count]
    rfl

theorem Represents.addAll {m : SkipMemtable} {list : Memtable} {order : List Nat}
    (h : Represents m list order) {adds : List (Entry × TowerHeight)}
    (hdistinct : Distinct (list.entries ++ adds.map Prod.fst)) :
    ∃ m' order', m.addAll adds = some m' ∧
      Represents m' ((adds.map Prod.fst).foldl Memtable.add list) order' := by
  induction adds generalizing m list order with
  | nil => exact ⟨m, order, rfl, h⟩
  | cons a rest ih =>
    have hnew : ∀ x ∈ list.entries, ¬ (x.userKey = a.1.userKey ∧ x.seq = a.1.seq) := by
      intro x hx
      exact (List.pairwise_append.mp hdistinct).2.2 x hx a.1 (by simp)
    obtain ⟨middle, order', hadd, hmiddle⟩ := h.add a.2 hnew
    have hperm : ((list.add a.1).entries ++ rest.map Prod.fst).Perm
        (list.entries ++ (a :: rest).map Prod.fst) :=
      ((Memtable.perm_add list a.1).append_right _).trans List.perm_middle.symm
    obtain ⟨m', last, hrun, hlast⟩ := ih hmiddle (hdistinct.perm hperm)
    refine ⟨m', last, ?_, hlast⟩
    rw [SkipMemtable.addAll, List.foldlM_cons, hadd]
    exact hrun

section Read

variable {m : SkipMemtable} {list : Memtable} {order : List Nat}

theorem Represents.seek (h : Represents m list order) (probe : Entry) :
    ∃ it, m.newIterator.seek Entry.before probe = some it ∧
      IsFirst Entry.before (fun e => e ∈ list.entries ∧ ¬ e.before probe) it.key := by
  have hseek := h.levels.seek_isFirst Entry.before_irrefl Entry.before_chain none probe
  rwa [h.entries] at hseek

def answerOf (e : Entry) : Lookup :=
  if e.type = kTypeValue then .found e.value
  else if e.type = kTypeDeletion then .deleted
  else .absent

theorem Represents.get (h : Represents m list order) (key : Key) (seq : Nat) :
    (∃ e, IsNewest list.entries key seq e ∧ m.get key seq = some (answerOf e)) ∨
      (∀ e ∈ list.entries, e.userKey = key → seq < e.seq) ∧ m.get key seq = some .absent := by
  obtain ⟨it, hseek, hfirst⟩ := h.seek ⟨key, seq, kTypeValue, []⟩
  -- an entry that the lookup could use is not before the probe
  have hprobe : ∀ x ∈ list.entries, x.userKey = key → x.seq ≤ seq →
      x ∈ list.entries ∧ ¬ x.before ⟨key, seq, kTypeValue, []⟩ := by
    intro x hx hkey hseq
    refine ⟨hx, ?_⟩
    rintro (hlt | ⟨_, hlt⟩)
    · exact absurd hlt (hkey ▸ lt_irrefl _)
    · exact absurd hlt (not_lt.mpr hseq)
  cases hkey : it.key with
  | none =>
    rw [hkey] at hfirst
    refine Or.inr ⟨fun x hx hx' => not_le.mp fun hseq => hfirst x (hprobe x hx hx' hseq), ?_⟩
    simp [SkipMemtable.get, hseek, hkey]
  | some e =>
    rw [hkey] at hfirst
    obtain ⟨⟨hmem, hnot⟩, hleast⟩ := hfirst
    by_cases heq : e.userKey = key
    · refine Or.inl ⟨e, ⟨hmem, heq, ?_, ?_⟩, ?_⟩
      · exact not_lt.mp fun hlt => hnot (Or.inr ⟨heq, hlt⟩)
      · intro x hx hx' hseq
        exact not_lt.mp fun hlt => hleast x (hprobe x hx hx' hseq) (Or.inr ⟨hx'.trans heq.symm, hlt⟩)
      · simp only [SkipMemtable.get, hseek, hkey, heq, answerOf, Option.bind_eq_bind,
          Option.bind_some, if_true]
        split
        · rfl
        · split <;> rfl
    · refine Or.inr ⟨fun x hx hx' => not_le.mp fun hseq => ?_, by
        simp [SkipMemtable.get, hseek, hkey, heq]⟩
      have hkeys : key < e.userKey := by
        rcases lt_trichotomy e.userKey key with hlt | hsame | hgt
        · exact absurd (Or.inl hlt) hnot
        · exact absurd hsame heq
        · exact hgt
      exact hleast x (hprobe x hx hx' hseq) (Or.inl (hx'.symm ▸ hkeys))

def LandsOn (es : List Entry) (target : Key) : Option Entry → Prop
  | none => ∀ x ∈ es, x.userKey < target
  | some e => e ∈ es ∧ target ≤ e.userKey ∧ ∀ x ∈ es, target ≤ x.userKey →
      e.userKey < x.userKey ∨ e.userKey = x.userKey ∧ x.seq ≤ e.seq

theorem LandsOn.congr {es es' : List Entry} {target : Key} {found : Option Entry}
    (h : LandsOn es target found) (hes : ∀ e, e ∈ es' ↔ e ∈ es) : LandsOn es' target found := by
  cases found with
  | none => exact fun x hx => h x ((hes x).mp hx)
  | some e => exact ⟨(hes e).mpr h.1, h.2.1, fun x hx => h.2.2 x ((hes x).mp hx)⟩

theorem Represents.lands (h : Represents m list order)
    (hbound : ∀ e ∈ list.entries, e.seq ≤ kMaxSequenceNumber) (target : Key) :
    ∃ it, m.seek target = some it ∧ LandsOn list.entries target it.key := by
  obtain ⟨it, hseek, hfirst⟩ := h.seek ⟨target, kMaxSequenceNumber, kTypeValue, []⟩
  refine ⟨it, hseek, ?_⟩
  -- no sequence number is above that of the probe
  have hprobe : ∀ x ∈ list.entries,
      (¬ x.before ⟨target, kMaxSequenceNumber, kTypeValue, []⟩ ↔ target ≤ x.userKey) := by
    intro x hx
    have hnot := not_lt.mpr (hbound x hx)
    simp [Entry.before, hnot]
  cases hkey : it.key with
  | none =>
    rw [hkey] at hfirst
    intro x hx
    exact not_le.mp fun hle => hfirst x ⟨hx, (hprobe x hx).mpr hle⟩
  | some e =>
    rw [hkey] at hfirst
    obtain ⟨⟨hmem, hnot⟩, hleast⟩ := hfirst
    refine ⟨hmem, (hprobe e hmem).mp hnot, fun x hx hle => ?_⟩
    have hx' := hleast x ⟨hx, (hprobe x hx).mpr hle⟩
    rw [Entry.before, not_or, not_and, not_lt, not_lt] at hx'
    rcases lt_or_eq_of_le hx'.1 with hlt | heq
    · exact Or.inl hlt
    · exact Or.inr ⟨heq, hx'.2 heq.symm⟩

theorem Represents.drains (h : Represents m list order) {fuel : Nat}
    (hfuel : list.entries.length ≤ fuel) :
    (m.newIterator.seekToFirst.bind (ListIterator.drain ListIterator.next fuel)) =
        some list.entries ∧
      (m.newIterator.seekToLast.bind
        (ListIterator.drain (ListIterator.prev Entry.before) fuel)) =
          some list.entries.reverse := by
  have hlength : order.length ≤ fuel := by
    have hkeys := congrArg List.length (h.levels.map_keyOf fun _ hx => hx)
    rw [List.length_map, List.length_map, h.entries] at hkeys
    omega
  constructor
  · have hfirst := h.levels.seekToFirst_eq none
    have hlevels := h.levels
    rw [← List.nil_append order] at hlevels
    rw [newIterator, hfirst, Option.bind_some, hlevels.drain_next hlength, h.entries]
  · have hlast := h.levels.seekToLast_eq none
    have hlevels := h.levels
    rw [← List.append_nil order] at hlevels
    rw [newIterator, hlast, Option.bind_some,
      hlevels.drain_prev Entry.before_irrefl Entry.before_chain hlength, h.entries]

theorem Represents.sorted (h : Represents m list order) : list.entries.Pairwise Entry.before := by
  rw [← h.entries]
  exact h.levels.sorted_keysOf

theorem isFirst_seekEntries (hsorted : list.entries.Pairwise Entry.before) (probe : Entry) :
    IsFirst Entry.before (fun e => e ∈ list.entries ∧ ¬ e.before probe)
      (list.seekEntries probe).head? := by
  have hstays : ∀ e ∈ list.seekEntries probe, decide (e.before probe) = false := by
    apply dropWhile_stays hsorted
    intro x y hxy hy
    simp only [decide_eq_true_eq] at hy ⊢
    exact Entry.before_trans hxy hy
  have hsplit : list.entries.takeWhile (fun e => e.before probe) ++ list.seekEntries probe =
    list.entries := List.takeWhile_append_dropWhile
  rw [← hsplit] at hsorted ⊢
  apply isFirst_head? hsorted fun _ _ => Entry.before_asymm
  · intro x hx
    exact not_not.mpr (by simpa using List.mem_takeWhile_imp hx)
  · intro x hx
    simpa using hstays x hx

theorem Represents.get_eq (h : Represents m list order) (key : Key) (seq : Nat) :
    m.get key seq = some (list.get key seq) := by
  obtain ⟨it, hseek, hfirst⟩ := h.seek ⟨key, seq, kTypeValue, []⟩
  have hhead := isFirst_seekEntries h.sorted ⟨key, seq, kTypeValue, []⟩
  have hkey := IsFirst.unique (compares_of_pairwise h.sorted) (fun x hx => hx.1) hfirst hhead
  rw [SkipMemtable.get, hseek, Option.bind_eq_bind, Option.bind_some, Memtable.get, hkey]
  cases list.seekEntries ⟨key, seq, kTypeValue, []⟩ with
  | nil => rfl
  | cons e rest =>
    simp only [List.head?_cons]
    split
    · split
      · rfl
      · split <;> rfl
    · rfl

end Read

/-- After any `Add` calls with distinct versions, whatever heights their nodes are given:
every level is in order and a part of the one below, the lowest has what was added, and
lookups, searches and both loops read the entries as a sorted map of versions does. -/
theorem memtable_is_version_map (adds : List (Entry × TowerHeight))
    (hdistinct : Distinct (adds.map Prod.fst))
    (hbound : ∀ a ∈ adds, a.1.seq ≤ kMaxSequenceNumber) :
    ∃ (m : SkipMemtable) (levels : Nat → List Entry), new.addAll adds = some m ∧
      (∀ level, m.table.ListsKeys level (levels level) ∧
        (levels level).Pairwise Entry.before ∧ (levels (level + 1)).Sublist (levels level)) ∧
      (levels 0).Perm (adds.map Prod.fst) ∧
      (∀ key seq,
        (∃ e, IsNewest (adds.map Prod.fst) key seq e ∧ m.get key seq = some (answerOf e)) ∨
          (∀ a ∈ adds, a.1.userKey = key → seq < a.1.seq) ∧ m.get key seq = some .absent) ∧
      (m.newIterator.seekToFirst.bind (ListIterator.drain ListIterator.next adds.length)) =
        some (levels 0) ∧
      (m.newIterator.seekToLast.bind
        (ListIterator.drain (ListIterator.prev Entry.before) adds.length)) =
          some (levels 0).reverse ∧
      ∀ target, ∃ it, m.seek target = some it ∧ LandsOn (adds.map Prod.fst) target it.key := by
  obtain ⟨m, order, hrun, h⟩ := represents_new.addAll hdistinct
  have hperm := Memtable.perm_foldl_add .new (adds.map Prod.fst)
  rw [Memtable.new, List.append_nil, ← Memtable.new] at hperm
  generalize (adds.map Prod.fst).foldl Memtable.add .new = list at h hperm
  have hmem : ∀ e, e ∈ adds.map Prod.fst ↔ e ∈ list.entries := fun e => hperm.mem_iff.symm
  have hlength : list.entries.length ≤ adds.length :=
    (hperm.length_eq.trans (List.length_map ..)).le
  have hzero : m.table.keysOf (levelOf order m.table.heightOf 0) = list.entries := by
    rw [h.levels.levelOf_zero fun _ hx => hx, h.entries]
  refine ⟨m, fun level => m.table.keysOf (levelOf order m.table.heightOf level), hrun,
    fun level => ⟨h.levels.listsKeys level, ?_, ?_⟩, ?_, fun key seq => ?_, ?_, ?_, fun target => ?_⟩
  · exact h.levels.sorted_keysOf.sublist (List.filter_sublist.filterMap _)
  · exact (levelOf_sublist order m.table.heightOf level).filterMap _
  · simp only [hzero]
    exact hperm
  · rcases h.get key seq with ⟨e, hnewest, hget⟩ | ⟨hnone, hget⟩
    · exact Or.inl ⟨e, hnewest.congr hmem, hget⟩
    · exact Or.inr ⟨fun a ha => hnone a.1 ((hmem a.1).mp (List.mem_map_of_mem ha)), hget⟩
  · simp only [hzero]
    exact (h.drains hlength).1
  · simp only [hzero]
    exact (h.drains hlength).2
  · have hentries : ∀ e ∈ list.entries, e.seq ≤ kMaxSequenceNumber := by
      intro e he
      obtain ⟨a, ha, rfl⟩ := List.mem_map.mp ((hmem e).mpr he)
      exact hbound a ha
    obtain ⟨it, hseek, hlands⟩ := h.lands hentries target
    exact ⟨it, hseek, hlands.congr hmem⟩

/-- A value of a key and the deletion that came after it, on towers of two levels and of
one. -/
def twoVersions : List (Entry × TowerHeight) :=
  [(⟨[1], 1, kTypeValue, [7]⟩, ⟨2, by decide⟩), (⟨[1], 2, kTypeDeletion, []⟩, ⟨1, by decide⟩)]

theorem memtable_is_version_map_twoVersions :
    ∃ (m : SkipMemtable) (levels : Nat → List Entry), new.addAll twoVersions = some m ∧
      (levels 0).Perm (twoVersions.map Prod.fst) ∧
      ∀ target, ∃ it, m.seek target = some it ∧
        LandsOn (twoVersions.map Prod.fst) target it.key := by
  obtain ⟨m, levels, hrun, _, hperm, _, _, _, hseek⟩ := memtable_is_version_map twoVersions
    (by unfold Distinct; decide) (by decide)
  exact ⟨m, levels, hrun, hperm, hseek⟩

end SkipMemtable

end Strata
