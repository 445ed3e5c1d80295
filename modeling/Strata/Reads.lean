import Strata.Running

/-! A read of a running store. It takes a snapshot under the mutex and asks the two
memtables and the version later, one after the other, while the other threads go on. -/
namespace Strata

open Library System Layers Memtable VersionSet

variable {loose : Prop} {all : List Entry} {M : Medium FileName} {r : Recovery} {db db' : DBImpl}
  {m : Nat} {olds : List (Nat × List Entry)} {records : List Entry} {key : Key} {seq : Nat}
  {dir : Dir}

theorem Lookup.orElse_assoc (a b c : Lookup) : (a.orElse b).orElse c = a.orElse (b.orElse c) := by
  cases a <;> rfl

theorem Lookup.orElse_of_ne {a : Lookup} (h : a ≠ .absent) (b : Lookup) : a.orElse b = a := by
  cases a with
  | absent => exact absurd rfl h
  | _ => rfl

/-! A lookup in a memtable. -/

namespace Memtable

theorem get_add_newer (m : Memtable) {e : Entry} (h : seq < e.seq) :
    (m.add e).get key seq = m.get key seq := by
  have hlarger : ¬ e.before ⟨key, seq, kTypeValue, []⟩ → key < e.userKey := by
    intro hbefore
    rcases lt_trichotomy e.userKey key with hlt | heq | hgt
    · exact absurd (Or.inl hlt) hbefore
    · exact absurd (Or.inr ⟨heq, h⟩) hbefore
    · exact hgt
  unfold get add seekEntries insert
  simp only
  induction m.entries with
  | nil =>
    by_cases hbefore : e.before ⟨key, seq, kTypeValue, []⟩
    · simp [hbefore]
    · simp [hbefore, ne_of_gt (hlarger hbefore)]
  | cons first rest ih =>
    by_cases hfirst : first.before e
    · simp only [List.orderedInsert, hfirst, not_true_eq_false, ↓reduceIte]
      by_cases hbefore : first.before ⟨key, seq, kTypeValue, []⟩
      · simpa only [List.dropWhile_cons, hbefore, decide_true, ↓reduceIte] using ih
      · simp [hbefore]
    · simp only [List.orderedInsert, hfirst, not_false_eq_true, ↓reduceIte]
      by_cases hbefore : e.before ⟨key, seq, kTypeValue, []⟩
      · simp [List.dropWhile_cons, hbefore]
      -- the entry stands in front of the one that was found, and both have a larger key
      · have hkey := hlarger hbefore
        have hle : key < first.userKey :=
          lt_of_lt_of_le hkey (not_lt.mp fun hlt => hfirst (Or.inl hlt))
        have hstays : ¬ first.before ⟨key, seq, kTypeValue, []⟩ := by
          rintro (hlt | ⟨heq, _⟩)
          · exact absurd hlt (lt_asymm hle)
          · exact absurd heq (ne_of_gt hle)
        simp [hbefore, hstays, ne_of_gt hkey, ne_of_gt hle]

theorem get_foldl_add_newer (m : Memtable) {more : List Entry} (h : ∀ e ∈ more, seq < e.seq) :
    (more.foldl add m).get key seq = m.get key seq := by
  induction more generalizing m with
  | nil => rfl
  | cons e rest ih =>
    rw [List.foldl_cons, ih (m.add e) fun x hx => h x (by simp [hx]),
      m.get_add_newer (h e (by simp))]

theorem get_visible {m : Memtable} (hkeys : KeysSorted m.entries)
    (htypes : ∀ e ∈ m.entries, e.HasType) (hseq : ∀ e ∈ m.entries, e.seq ≤ seq) :
    m.get key seq = lookupOf (find key m.entries) := by
  unfold get seekEntries find
  generalize m.entries = es at hkeys htypes hseq
  induction es with
  | nil => rfl
  | cons e rest ih =>
    obtain ⟨hfirst, hrest⟩ := List.pairwise_cons.mp hkeys
    have hvisible : ¬ seq < e.seq := not_lt.mpr (hseq e (by simp))
    rcases lt_trichotomy e.userKey key with hlt | rfl | hgt
    · have hbefore : e.before ⟨key, seq, kTypeValue, []⟩ := Or.inl hlt
      have hkey : ¬ Ranked.key e = key := ne_of_lt hlt
      rw [List.dropWhile_cons_of_pos (by simpa using hbefore),
        List.find?_cons_of_neg (by simpa using hkey)]
      exact ih hrest (fun x hx => htypes x (by simp [hx])) fun x hx => hseq x (by simp [hx])
    · have hbefore : ¬ e.before ⟨e.userKey, seq, kTypeValue, []⟩ := by
        simp [Entry.before, hvisible]
      have hkey : Ranked.key e = e.userKey := rfl
      rw [List.dropWhile_cons_of_neg (by simpa using hbefore),
        List.find?_cons_of_pos (by simp [hkey])]
      rcases htypes e (by simp) with htype | htype <;>
        simp [lookupOf, htype, kTypeDeletion, kTypeValue]
    · have hbefore : ¬ e.before ⟨key, seq, kTypeValue, []⟩ := by
        rintro (hlt | ⟨heq, _⟩)
        · exact absurd hlt (lt_asymm hgt)
        · exact absurd heq (ne_of_gt hgt)
      have hnone : (e :: rest).find? (fun x => Ranked.key x = key) = none := by
        rw [List.find?_eq_none]
        intro x hx
        have hle : e.userKey ≤ x.userKey := by
          rcases List.mem_cons.mp hx with rfl | hx
          · exact le_refl _
          · exact hfirst x hx
        have hne : Ranked.key x ≠ key := ne_of_gt (lt_of_lt_of_le hgt hle)
        simpa using hne
      rw [List.dropWhile_cons_of_neg (by simpa using hbefore), hnone]
      simp [ne_of_gt hgt, lookupOf]

end Memtable

/-! The snapshot. -/

/-- A `Get` that took its snapshot: how many places it has asked, and what it knows. -/
structure PendingRead where
  key : Key
  snapshot : DBImpl.Snapshot
  asked : Nat
  answer : Lookup

namespace PendingRead

/-- What `Get` takes under the mutex. -/
def new (db : DBImpl) (key : Key) : PendingRead := ⟨key, db.capture, 0, .absent⟩

def askMem (db : DBImpl) (read : PendingRead) : Lookup :=
  (db.memtable read.snapshot.mem).get read.key read.snapshot.seq

def askImm (db : DBImpl) (read : PendingRead) : Lookup :=
  (read.snapshot.imm.map fun index =>
    (db.memtable index).get read.key read.snapshot.seq).getD .absent

def askVersion (dir : Dir) (read : PendingRead) : Lookup :=
  read.snapshot.current.get dir (fun _ => none) read.key read.snapshot.seq

/-- The places in their order: `mem_`, `imm_` and the version. -/
def place (db : DBImpl) (dir : Dir) (read : PendingRead) : Lookup :=
  match read.asked with
  | 0 => read.askMem db
  | 1 => read.askImm db
  | _ => read.askVersion dir

def ask (db : DBImpl) (dir : Dir) (read : PendingRead) : PendingRead :=
  { read with asked := read.asked + 1, answer := read.answer.orElse (read.place db dir) }

/-- `Get` returns as soon as a place knows the key, or when no place is left. -/
def Ready (read : PendingRead) : Prop := read.asked = 3 ∨ read.answer ≠ .absent

def finish (db : DBImpl) (dir : Dir) (read : PendingRead) : Lookup :=
  match read.asked with
  | 0 => read.answer.orElse
      ((read.askMem db).orElse ((read.askImm db).orElse (read.askVersion dir)))
  | 1 => read.answer.orElse ((read.askImm db).orElse (read.askVersion dir))
  | 2 => read.answer.orElse (read.askVersion dir)
  | _ => read.answer

theorem finish_new (db : DBImpl) (dir : Dir) (key : Key) :
    (new db key).finish db dir = db.lookupSnapshot dir (fun _ => none) db.capture key := rfl

theorem finish_of_ready {read : PendingRead} (h : read.Ready) (db : DBImpl) (dir : Dir) :
    read.finish db dir = read.answer := by
  unfold finish
  rcases h with hasked | hanswer
  · simp only [hasked]
  · split
    · exact Lookup.orElse_of_ne hanswer _
    · exact Lookup.orElse_of_ne hanswer _
    · exact Lookup.orElse_of_ne hanswer _
    · rfl

theorem finish_ask {read : PendingRead} (hasked : read.asked < 3) {dir dir' : Dir}
    (hversion : read.askVersion dir = read.askVersion dir') (db : DBImpl) :
    (read.ask db dir).finish db dir' = read.finish db dir' := by
  obtain ⟨key, snapshot, asked, answer⟩ := read
  match asked, hasked with
  | 0, _ => exact Lookup.orElse_assoc _ _ _
  | 1, _ => exact Lookup.orElse_assoc _ _ _
  | 2, _ => exact congrArg (Lookup.orElse answer) hversion

end PendingRead

/-- The value of a lookup as `Get` returns it. -/
def response : Option Bytes → Status × Bytes
  | some value => (.ok, value)
  | none => (.notFound "", [])

structure Pinned (db : DBImpl) (read : PendingRead) (value : Option Bytes) : Prop where
  asked : read.asked ≤ 3
  mem : read.snapshot.mem < db.heap.length
  imm : ∀ index ∈ read.snapshot.imm, index < db.heap.length
  seq : read.snapshot.seq ≤ db.versions.lastSequence
  version : ∀ dir dir', read.askVersion dir = read.askVersion dir'
  value : ∀ dir, DBImpl.lookupStatus (read.finish db dir) = response value

namespace Pinned

variable {read : PendingRead} {value : Option Bytes}

theorem get_grows (h : Pinned db read value) (hgrows : db.Grows db') {index : Nat}
    (hindex : index < db.heap.length) :
    (db'.memtable index).get read.key read.snapshot.seq =
      (db.memtable index).get read.key read.snapshot.seq := by
  obtain ⟨more, hmore, hnewer⟩ := hgrows.tables index hindex
  rw [hmore]
  exact get_foldl_add_newer _ fun e he => lt_of_le_of_lt h.seq (hnewer e he)

theorem grows (h : Pinned db read value) (hgrows : db.Grows db') : Pinned db' read value := by
  refine ⟨h.asked, lt_of_lt_of_le h.mem hgrows.length, fun index hindex =>
    lt_of_lt_of_le (h.imm index hindex) hgrows.length, le_trans h.seq hgrows.seq, h.version,
    fun dir => ?_⟩
  have hmem : read.askMem db' = read.askMem db := h.get_grows hgrows h.mem
  have himm : read.askImm db' = read.askImm db := by
    unfold PendingRead.askImm
    cases hsnapshot : read.snapshot.imm with
    | none => rfl
    | some index => exact h.get_grows hgrows (h.imm index hsnapshot)
  rw [← h.value dir]
  unfold PendingRead.finish
  rw [hmem, himm]

theorem ask (h : Pinned db read value) (hasked : read.asked < 3) (dir : Dir) :
    Pinned db (read.ask db dir) value := by
  refine ⟨hasked, h.mem, h.imm, h.seq, h.version, fun dir' => ?_⟩
  rw [PendingRead.finish_ask hasked (h.version dir dir')]
  exact h.value dir'

theorem returns (h : Pinned db read value) (hready : read.Ready) :
    DBImpl.lookupStatus read.answer = response value := by
  rw [← PendingRead.finish_of_ready hready db ∅]
  exact h.value ∅

end Pinned

/-! What was written, as a map. -/

def lastOf (all : List Entry) (key : Key) : Option Entry :=
  all.reverse.find? fun e => e.userKey = key

def mapOf (all : List Entry) (key : Key) : Option Bytes :=
  (lastOf all key).bind fun e => if e.type = kTypeDeletion then none else some e.value

theorem mapOf_nil : mapOf [] = fun _ => none := rfl

theorem mapOf_append (all : List Entry) (e : Entry) :
    mapOf (all ++ [e]) = Function.update (mapOf all) e.userKey
      (if e.type = kTypeDeletion then none else some e.value) := by
  funext key
  by_cases hkey : key = e.userKey
  · subst hkey
    simp [mapOf, lastOf]
  · have hne : e.userKey ≠ key := fun heq => hkey heq.symm
    simp [mapOf, lastOf, Function.update_of_ne hkey, hne]

theorem lastOf_top (h : all.Pairwise fun a b => a.seq < b.seq) {e : Entry}
    (hlast : lastOf all key = some e) : IsTop all key e := by
  obtain ⟨hkey, later, earlier, hsplit, hlater⟩ := List.find?_eq_some_iff_append.mp hlast
  have hall : all = earlier.reverse ++ e :: later.reverse := by
    rw [← List.reverse_reverse all, hsplit]
    simp
  have hkey' : e.userKey = key := by simpa using hkey
  refine ⟨by rw [hall]; simp, hkey', fun x hx hxkey => ?_⟩
  rw [hall] at hx h
  rcases List.mem_append.mp hx with hx | hx
  · exact le_of_lt ((List.pairwise_append.mp h).2.2 x hx e (by simp))
  · rcases List.mem_cons.mp hx with rfl | hx
    · exact le_refl _
    · have hnot := hlater x (by simpa using hx)
      have hxkey' : x.userKey = key := hxkey
      simp [hxkey'] at hnot

theorem lastOf_none (h : lastOf all key = none) {e : Entry} (he : e ∈ all) : e.userKey ≠ key := by
  have hnot := List.find?_eq_none.mp h e (by simpa using he)
  simpa using hnot

/-! The sources of a snapshot. -/

namespace Serving

variable (h : Serving loose all db M m r olds records) (hsingle : db.Single olds)

def sources (db : DBImpl) : List (List Entry) :=
  (db.memtables db.capture).map Memtable.entries ++ Version.sources db.versions.current.allFiles

theorem mem_foldl_add {e : Entry} :
    e ∈ (records.foldl add Memtable.new).entries ↔ e ∈ records := by
  rw [(perm_foldl_add Memtable.new records).mem_iff]
  simp [Memtable.new]

include h in
theorem memtables_logs : ∃ logs : List (List Entry),
    logs.Sublist ((db.logs olds records).map Prod.snd) ∧
    db.memtables db.capture = logs.reverse.map fun es => es.foldl add Memtable.new := by
  rw [db.map_logs, DBImpl.memtables]
  have hactive : db.memtable db.capture.mem = records.foldl add Memtable.new := h.mem.2
  rw [hactive]
  cases himm : db.imm with
  | none =>
    refine ⟨[records], List.sublist_append_right _ _, ?_⟩
    simp [DBImpl.capture, himm]
  | some index =>
    obtain ⟨_, _, rest, number, es, rfl, htable⟩ := h.imm index himm
    refine ⟨[es, records], ?_, ?_⟩
    · rw [List.map_append, List.append_assoc]
      exact List.sublist_append_right _ _
    · simp [DBImpl.capture, himm, htable]

include h hsingle in
theorem memtables_eq : db.memtables db.capture =
    ((db.logs olds records).map Prod.snd).reverse.map fun es => es.foldl add Memtable.new := by
  rw [db.map_logs, DBImpl.memtables]
  have hactive : db.memtable db.capture.mem = records.foldl add Memtable.new := h.mem.2
  rw [hactive]
  cases himm : db.imm with
  | none =>
    rw [DBImpl.Single, himm] at hsingle
    have hnil : olds = [] := List.length_eq_zero_iff.mp hsingle
    simp [DBImpl.capture, himm, hnil]
  | some index =>
    obtain ⟨_, _, rest, number, es, rfl, htable⟩ := h.imm index himm
    rw [DBImpl.Single, himm] at hsingle
    have hnil : rest = [] := by simpa using hsingle
    simp [DBImpl.capture, himm, hnil, htable]

include h hsingle in
theorem mem_sources {e : Entry} : e ∈ (sources db).flatten ↔
    e ∈ held ((db.logs olds records).map Prod.snd) db.versions.current := by
  rw [sources, h.memtables_eq hsingle, List.flatten_append, held, List.mem_append, List.mem_append]
  apply or_congr_left
  generalize (db.logs olds records).map Prod.snd = logs
  rw [List.mem_flatten, List.mem_flatten, List.map_map]
  constructor
  · rintro ⟨es, hes, he⟩
    obtain ⟨log, hlog, rfl⟩ := List.mem_map.mp hes
    exact ⟨log, List.mem_reverse.mp hlog, mem_foldl_add.mp he⟩
  · rintro ⟨log, hlog, he⟩
    exact ⟨_, List.mem_map_of_mem (List.mem_reverse.mpr hlog), mem_foldl_add.mpr he⟩

include h in
theorem sources_ordered : Ordered loose (sources db) := by
  have hstacked := h.holds.stacked
  have hfiles := hstacked.good.ordered
  obtain ⟨logs, hsub, hmemtables⟩ := h.memtables_logs
  rw [sources, hmemtables, List.map_map]
  constructor
  · intro source hsource
    rcases List.mem_append.mp hsource with hmem | hfile
    · obtain ⟨es, _, rfl⟩ := List.mem_map.mp hmem
      exact topFirst_of_sorted (sorted_foldl_add (m := Memtable.new) List.Pairwise.nil es)
    · exact hfiles.sorted source hfile
  · rw [List.pairwise_append]
    refine ⟨?_, hfiles.newer, ?_⟩
    · rw [List.pairwise_map, List.pairwise_reverse]
      apply (hstacked.newer.sublist hsub).imp
      intro older newer hnewer
      exact hnewer.of_mem (fun _ => mem_foldl_add) fun _ he => mem_foldl_add.mp he
    · intro newer hnewer older holder
      obtain ⟨es, hes, rfl⟩ := List.mem_map.mp hnewer
      obtain ⟨f, hf, rfl⟩ := List.mem_map.mp holder
      obtain ⟨level, hlevel⟩ := Version.mem_allFiles.mp hf
      apply (hstacked.above es (hsub.subset (List.mem_reverse.mp hes)) level f hlevel).of_mem
      · exact fun _ => mem_foldl_add
      · exact fun _ he => he

include h in
theorem held_hasType {e : Entry}
    (he : e ∈ held ((db.logs olds records).map Prod.snd) db.versions.current) : e.HasType := by
  rcases mem_held.mp he with ⟨es, hes, he⟩ | ⟨level, f, hf, he⟩
  · exact h.holds.stacked.types es hes e he
  · exact (h.holds.stacked.good.sound level f hf).types e he

include h hsingle in
theorem memtable_get {table : Memtable} (htable : table ∈ db.memtables db.capture) (key : Key) :
    table.get key db.versions.lastSequence = lookupOf (find key table.entries) := by
  have hheld : ∀ e ∈ table.entries,
      e ∈ held ((db.logs olds records).map Prod.snd) db.versions.current := by
    intro e he
    rw [← h.mem_sources hsingle, sources, List.flatten_append]
    exact List.mem_append_left _ (List.mem_flatten.mpr ⟨_, List.mem_map_of_mem htable, he⟩)
  apply get_visible
  · rw [h.memtables_eq hsingle] at htable
    obtain ⟨es, _, rfl⟩ := List.mem_map.mp htable
    exact keysSorted_of_sorted (sorted_foldl_add (m := Memtable.new) List.Pairwise.nil es)
  · exact fun e he => h.held_hasType (hheld e he)
  · exact fun e he => h.seqs e (hheld e he)

include h in
theorem version_get (dir : Dir) (faults : Faults) (key : Key) :
    db.versions.current.get dir faults key db.versions.lastSequence =
      lookupOf (firstHit (Version.sources db.versions.current.allFiles) key) := by
  apply Version.get_sound h.holds.stacked.good
  intro f hf e he _
  obtain ⟨level, hlevel⟩ := Version.mem_allFiles.mp hf
  exact h.seqs e (mem_held_file hlevel he)

include h hsingle in
theorem lookupSnapshot_eq (dir : Dir) (faults : Faults) (key : Key) :
    db.lookupSnapshot dir faults db.capture key = lookupOf (firstHit (sources db) key) := by
  have hone : ∀ table, table ∈ db.memtables db.capture →
      table.get key db.versions.lastSequence = lookupOf (firstHit [table.entries] key) := by
    intro table htable
    rw [h.memtable_get hsingle htable]
    simp [firstHit]
  have hmem := hone (db.memtable db.mem) (by simp [DBImpl.memtables, DBImpl.capture])
  have hversion := h.version_get dir faults key
  rw [DBImpl.lookupSnapshot]
  cases himm : db.imm with
  | none =>
    have hsources : sources db = [(db.memtable db.mem).entries] ++
        Version.sources db.versions.current.allFiles := by
      simp [sources, DBImpl.memtables, DBImpl.capture, himm]
    rw [hsources, Version.lookupOf_append, ← hmem, ← hversion]
    simp only [DBImpl.capture, himm, Option.map_none, Option.getD_none]
    rfl
  | some index =>
    have hsources : sources db = [(db.memtable db.mem).entries] ++
        ([(db.memtable index).entries] ++ Version.sources db.versions.current.allFiles) := by
      simp [sources, DBImpl.memtables, DBImpl.capture, himm]
    have hindex := hone (db.memtable index) (by
      simp [DBImpl.memtables, DBImpl.capture, himm])
    rw [hsources, Version.lookupOf_append, Version.lookupOf_append, ← hmem, ← hindex, ← hversion]
    simp only [DBImpl.capture, himm, Option.map_some, Option.getD_some]

include h hsingle in
theorem pinned (hordered : all.Pairwise fun a b => a.seq < b.seq) (key : Key) :
    Pinned db (PendingRead.new db key) (mapOf all key) := by
  have hversion : ∀ dir, (PendingRead.new db key).askVersion dir =
      lookupOf (firstHit (Version.sources db.versions.current.allFiles) key) :=
    fun dir => h.version_get dir _ key
  refine ⟨Nat.zero_le _, h.mem.1, fun index hindex => (h.imm index hindex).1, le_refl _,
    fun dir dir' => (hversion dir).trans (hversion dir').symm, fun dir => ?_⟩
  rw [PendingRead.finish_new, h.lookupSnapshot_eq hsingle]
  obtain ⟨flushed, haccounts⟩ := h.accounts
  have hreduces : Reduces all (sources db).flatten :=
    haccounts.reduces.of_mem_iff (fun _ => Iff.rfl) fun e => h.mem_sources hsingle
  cases hlast : lastOf all key with
  | none =>
    have hnone : firstHit (sources db) key = none := by
      rw [firstHit_none]
      exact fun e he => lastOf_none hlast (hreduces.subset e he)
    rw [hnone, mapOf, hlast]
    rfl
  | some e =>
    rw [mapOf, hlast, Option.bind_some]
    rcases hreduces.firstHit h.sources_ordered h.distinct (lastOf_top hordered hlast) with
      hhit | ⟨hnone, hdead⟩
    · have hmem := (firstHit_top h.sources_ordered hhit).1
      rw [hhit]
      rcases h.held_hasType ((h.mem_sources hsingle).mp hmem) with htype | htype
      · simp [lookupOf, htype, DBImpl.lookupStatus, response, kTypeValue, kTypeDeletion]
      · simp [lookupOf, htype, DBImpl.lookupStatus, response, kTypeValue, kTypeDeletion]
    · have htype : e.type = kTypeDeletion := hdead
      rw [hnone, htype]
      rfl

end Serving

end Strata
