import Strata.Lasting

/-! The running store: what holds between two critical sections, and what a
write and a switch of the memtable make of it. -/
namespace Strata

open Library System Layers Memtable VersionSet

variable {loose : Prop} {dir left : Dir} {M : Medium FileName} {r : Recovery} {db db' : DBImpl}
  {m : Nat} {olds : List (Nat × List Entry)} {all records : List Entry}

def contents (logs : List (Nat × List Entry)) (v : Version) : List Entry :=
  held (logs.map Prod.snd) v

/-- The logs of a store, the oldest one first; the last is the one it writes to. -/
def DBImpl.logs (db : DBImpl) (olds : List (Nat × List Entry)) (records : List Entry) :
    List (Nat × List Entry) :=
  olds ++ [(db.logFileNumber, records)]

theorem DBImpl.map_logs (db : DBImpl) (olds : List (Nat × List Entry)) (es : List Entry) :
    (db.logs olds es).map Prod.snd = olds.map Prod.snd ++ [es] := by
  simp [DBImpl.logs]

theorem Holds.open_log {v : Version} {logs : List (Nat × List Entry)} {number : Nat}
    (h : Holds loose dir r v logs) (hlast : ∀ log ∈ logs, log.1 < number)
    (hsmall : number < 2 ^ 63) (hleast : r.logNum ≤ number) :
    Holds loose (dir.insert (.log number) []) r v (logs ++ [(number, [])]) := by
  have hother : ∀ name, name ≠ .log number →
      (dir.insert (.log number) ([] : Bytes)).lookup name = dir.lookup name := fun name hne =>
    lookup_insert_other hne
  have hsome : ∀ n, ((dir.insert (.log number) ([] : Bytes)).lookup (.log n)).isSome →
      n = number ∨ (dir.lookup (.log n)).isSome := by
    intro n hfile
    by_cases hn : n = number
    · exact Or.inl hn
    · rw [hother _ (by simpa using hn)] at hfile
      exact Or.inr hfile
  constructor
  · rw [List.map_append]
    exact h.stacked.open_log
  · exact fun f hf => (h.stored f hf).of_lookup (hother _ (by simp))
  · exact h.numbers
  · exact h.seqs
  · rw [List.pairwise_append]
    refine ⟨h.ascending, List.pairwise_singleton _ _, fun log hlog other hother => ?_⟩
    rw [List.mem_singleton.mp hother]
    exact hlast log hlog
  · intro log hlog
    rcases List.mem_append.mp hlog with hlog | hlog
    · have hlt := hlast log hlog
      have hne : FileName.log log.1 ≠ .log number := by simp; omega
      exact ⟨(h.listed log hlog).1, (h.listed log hlog).2.of_lookup (hother _ hne)⟩
    · rw [List.mem_singleton.mp hlog]
      exact ⟨hleast, hsmall, by simp, [], lookup_insert_self _ _ _, tornTail_short (by simp)⟩
  · intro n hn hfile
    rcases hsome n hfile with rfl | hfile
    · exact ⟨(n, []), by simp, rfl⟩
    · obtain ⟨log, hlog, heq⟩ := h.counted n hn hfile
      exact ⟨log, by simp [hlog], heq⟩
  · intro n hn hfile
    rcases hsome n hfile with rfl | hfile
    · exact hleast
    · exact h.stale n hn hfile
  · exact fun text => (hother _ (by simp)).trans (h.known text)

theorem Holds.write {v : Version} {number : Nat} {records' : List Entry}
    (h : Holds loose dir r v (olds ++ [(number, records)]))
    (hother : ∀ name, name ≠ .log number → left.lookup name = dir.lookup name)
    (hfile : LogFile left number records')
    (hstacked : Stacked loose ((olds ++ [(number, records')]).map Prod.snd) v) :
    Holds loose left r v (olds ++ [(number, records')]) := by
  have hlast : (number, records) ∈ olds ++ [(number, records)] := by simp
  have hascending := List.pairwise_append.mp h.ascending
  have hsome : ∀ n, (left.lookup (.log n)).isSome → n = number ∨ (dir.lookup (.log n)).isSome := by
    intro n hfile
    by_cases hn : n = number
    · exact Or.inl hn
    · rw [hother _ (by simpa using hn)] at hfile
      exact Or.inr hfile
  constructor
  · exact hstacked
  · exact fun f hf => (h.stored f hf).of_lookup (hother _ (by simp))
  · exact h.numbers
  · exact h.seqs
  · rw [List.pairwise_append]
    refine ⟨hascending.1, List.pairwise_singleton _ _, fun log hlog other hmem => ?_⟩
    rw [List.mem_singleton.mp hmem]
    exact hascending.2.2 log hlog (number, records) (by simp)
  · intro log hlog
    rcases List.mem_append.mp hlog with hlog | hlog
    · have hlt := hascending.2.2 log hlog (number, records) (by simp)
      have hne : FileName.log log.1 ≠ .log number := by
        simp only [ne_eq, FileName.log.injEq]
        exact ne_of_lt hlt
      have hlisted := h.listed log (by simp [hlog])
      exact ⟨hlisted.1, hlisted.2.of_lookup (hother _ hne)⟩
    · rw [List.mem_singleton.mp hlog]
      exact ⟨(h.listed _ hlast).1, hfile⟩
  · intro n hn hfile
    rcases hsome n hfile with rfl | hfile
    · exact ⟨(n, records'), by simp, rfl⟩
    · obtain ⟨log, hlog, rfl⟩ := h.counted n hn hfile
      rcases List.mem_append.mp hlog with hlog | hlog
      · exact ⟨log, by simp [hlog], rfl⟩
      · rw [List.mem_singleton.mp hlog]
        exact ⟨(number, records'), by simp, rfl⟩
  · intro n hn hfile
    rcases hsome n hfile with rfl | hfile
    · exact (h.listed _ hlast).1
    · exact h.stale n hn hfile
  · exact fun text => (hother _ (by simp)).trans (h.known text)

/-- A running store over its directory. `records` went to the current log and to
`mem_`, and the last of the old logs is the one of `imm_`. -/
structure Running (loose : Prop) (db : DBImpl) (dir : Dir) (m : Nat) (r : Recovery)
    (olds : List (Nat × List Entry)) (records : List Entry) : Prop where
  attached : db.versions.Attached dir m [] r
  descriptor : db.versions.descriptorLog = some ⟨.manifest m, true⟩
  holds : Holds loose dir r db.versions.current (db.logs olds records)
  written : dir.lookup (.log db.logFileNumber) = some (walFrames records)
  writer : db.walWriter = ⟨.log db.logFileNumber, true⟩
  below : db.logFileNumber < db.versions.nextFileNumber
  seqs : ∀ e ∈ contents (db.logs olds records) db.versions.current,
    e.seq ≤ db.versions.lastSequence
  mem : db.mem < db.heap.length ∧ db.active = records.foldl add Memtable.new
  imm : ∀ index, db.imm = some index → index < db.heap.length ∧ index ≠ db.mem ∧
    ∃ rest number es, olds = rest ++ [(number, es)] ∧ db.memtable index = es.foldl add Memtable.new

structure DBImpl.Grows (db db' : DBImpl) : Prop where
  length : db.heap.length ≤ db'.heap.length
  seq : db.versions.lastSequence ≤ db'.versions.lastSequence
  tables : ∀ index < db.heap.length, ∃ more : List Entry,
    db'.memtable index = more.foldl add (db.memtable index) ∧
      ∀ e ∈ more, db.versions.lastSequence < e.seq

namespace DBImpl.Grows

theorem of_heap (hheap : db'.heap = db.heap)
    (hseq : db.versions.lastSequence ≤ db'.versions.lastSequence) : db.Grows db' := by
  refine ⟨le_of_eq (congrArg List.length hheap.symm), hseq, fun index _ => ⟨[], ?_, by simp⟩⟩
  simp [memtable, hheap]

theorem refl (db : DBImpl) : db.Grows db := of_heap rfl (le_refl _)

theorem trans {db'' : DBImpl} (h : db.Grows db') (h' : db'.Grows db'') : db.Grows db'' := by
  refine ⟨le_trans h.length h'.length, le_trans h.seq h'.seq, fun index hindex => ?_⟩
  obtain ⟨more, hmore, hseqs⟩ := h.tables index hindex
  obtain ⟨later, hlater, hseqs'⟩ := h'.tables index (lt_of_lt_of_le hindex h.length)
  refine ⟨more ++ later, ?_, fun e he => ?_⟩
  · rw [hlater, hmore, List.foldl_append]
  · rcases List.mem_append.mp he with he | he
    · exact hseqs e he
    · exact lt_of_le_of_lt h.seq (hseqs' e he)

end DBImpl.Grows

namespace Running

variable (h : Running loose db dir m r olds records)

include h in
theorem disk : Disk loose dir m [] r db.versions.current (db.logs olds records) :=
  h.attached.disk h.holds

include h in
theorem no_log {n : Nat} (hn : db.versions.nextFileNumber ≤ n) : dir.lookup (.log n) = none := by
  cases hfile : dir.lookup (.log n) with
  | none => rfl
  | some bytes =>
    have hsome : (dir.lookup (.log n)).isSome := by rw [hfile]; rfl
    have hstale := h.holds.stale n (le_trans h.attached.next hn) hsome
    obtain ⟨log, hlog, rfl⟩ := h.holds.counted n hstale hsome
    have hbelow := h.below
    rcases List.mem_append.mp hlog with hlog' | hlog'
    · have hlt := (List.pairwise_append.mp h.holds.ascending).2.2 log hlog' _
        (List.mem_singleton_self _)
      simp only at hlt
      omega
    · rw [List.mem_singleton.mp hlog'] at hn
      simp only at hn
      omega

include h in
theorem log_le {log : Nat × List Entry} (hlog : log ∈ db.logs olds records) :
    log.1 ≤ db.logFileNumber := by
  rcases List.mem_append.mp hlog with hlog | hlog
  · exact le_of_lt ((List.pairwise_append.mp h.holds.ascending).2.2 log hlog _
      (List.mem_singleton_self _))
  · rw [List.mem_singleton.mp hlog]

end Running

/-- A running store over its medium, with all that was ever written to it. -/
structure Serving (loose : Prop) (all : List Entry) (db : DBImpl) (M : Medium FileName) (m : Nat)
    (r : Recovery) (olds : List (Nat × List Entry)) (records : List Entry) : Prop
    extends Running loose db M.dir m r olds records where
  accounts : ∃ flushed, Accounts loose all r.maxSeq ((db.logs olds records).map Prod.snd)
    db.versions.current flushed
  recent : ∀ e ∈ all, e.seq ≤ db.versions.lastSequence
  distinct : Distinct all
  secure : Secure M m db.versions.current
  saved : db.imm = none → r.maxFileNum = db.versions.nextFileNumber
  ahead : db.versions.nextFileNumber ≤ climbed r.maxFileNum olds + 1
  reached : Reached r (db.logs olds records)

/-- No memtable was given up before it was flushed: the old logs are the one of
`imm_`, if there is one. -/
def DBImpl.Single (db : DBImpl) (olds : List (Nat × List Entry)) : Prop :=
  olds.length = if db.imm.isSome then 1 else 0

def DBImpl.inserted (db : DBImpl) (e : Entry) : DBImpl :=
  { db with
    heap := db.heap.modify db.mem fun m => m.add e
    versions := { db.versions with lastSequence := max db.versions.lastSequence e.seq } }

theorem DBImpl.memtable_inserted (db : DBImpl) (e : Entry) {index : Nat} (hmem : db.mem < db.heap.length) :
    (db.inserted e).memtable index =
      if index = db.mem then (db.memtable index).add e else db.memtable index := by
  simp only [memtable, inserted, List.getD_eq_getElem?_getD, List.getElem?_modify]
  by_cases hindex : index = db.mem
  · subst hindex
    simp [hmem]
  · simp [hindex, Ne.symm hindex]

namespace Serving

variable (h : Serving loose all db M m r olds records)

include h in
theorem intact : Intact loose all M.dir m [] r db.versions.current (db.logs olds records) :=
  ⟨⟨h.disk, h.accounts, h.reached⟩, h.attached.fresh⟩

include h in
theorem outlasts {past : List Entry → Prop} (hpast : past all) : Outlasts loose past M :=
  Outlasts.of_secure hpast h.intact h.secure

include h in
theorem reached_records (more : List Entry) : Reached r (db.logs olds more) := by
  obtain ⟨holds, hlast⟩ := climbs_append.mp h.reached.2
  exact ⟨h.reached.1, climbs_append.mpr ⟨holds, hlast⟩⟩

include h in
/-- The next number is in reach behind a log that is not empty, and behind any log while
all numbers are recorded. -/
theorem next_le (hroom : db.imm = none ∨ records ≠ []) :
    db.versions.nextFileNumber ≤ climbed r.maxFileNum (db.logs olds records) := by
  have hahead := h.ahead
  simp only [climbed, DBImpl.logs, List.countP_append, List.countP_singleton] at hahead ⊢
  rcases hroom with himm | hrecords
  · have hsaved := h.saved himm
    omega
  · rw [if_pos (by simpa using hrecords)]
    omega

/-! A new memtable with a new log. -/

include h in
theorem switch {past : List Entry → Prop} (hpast : past all)
    (hroom : db.imm = none ∨ records ≠ []) :
    Endures steady M db.switchMemtable
      (fun db' M' => Serving loose all db' M' m r (db.logs olds records) [] ∧ db.Grows db' ∧
        db'.options = db.options ∧ db'.imm.isSome ∧
        db'.versions.lastSequence = db.versions.lastSequence) (Outlasts loose past) := by
  unfold DBImpl.switchMemtable
  simp only [newFileNumber]
  refine Endures.bind (openAppend_endures steady_noFail _ (h.outlasts hpast)) ?_
  rintro writer M' ⟨rfl, hM', hcreate⟩
  have hsmall : db.versions.nextFileNumber < 2 ^ 63 := steady_limited _ hcreate
  have hnone := h.no_log (le_refl _)
  have hdir : M'.dir = M.dir.insert (FileName.log db.versions.nextFileNumber) ([] : Bytes) := by
    rw [hM', M.perform_openAppend]
    simp [touch, hnone]
  have honly : Medium.Only (fun name => name = .log db.versions.nextFileNumber) M M' := by
    rw [hM']
    exact (Medium.Only.refl _ M).perform fun _ => Eq.symm
  have hleast : r.logNum ≤ db.logFileNumber :=
    (h.holds.listed (db.logFileNumber, records) (by simp [DBImpl.logs])).1
  have hbelow := h.below
  have hmem : ∀ index < db.heap.length,
      (db.heap ++ [Memtable.new]).getD index Memtable.new = db.memtable index := by
    intro index hindex
    simp [DBImpl.memtable, List.getElem?_append_left hindex]
  apply Endures.ret
  refine ⟨⟨⟨?_, h.descriptor, ?_, ?_, rfl, Nat.lt_succ_self _, ?_, ?_, ?_⟩, ?_, h.recent, h.distinct,
    ?_, (fun hnone => by cases hnone), Nat.succ_le_succ (h.next_le hroom), h.reached.1,
    climbs_append.mpr ⟨h.reached.2, h.next_le hroom⟩⟩, ?_, rfl, rfl, rfl⟩
  · apply (h.attached.advance (Nat.le_succ _) hsmall (le_refl _)
      h.attached.bounded.lastSequence).of_same
    rw [hdir]
    exact ⟨lookup_insert_other (by simp), fun n => lookup_insert_other (by simp)⟩
  · rw [hdir]
    exact h.holds.open_log (fun log hlog => lt_of_le_of_lt (h.log_le hlog) hbelow) hsmall (by omega)
  · rw [hdir]
    exact lookup_insert_self _ _ _
  · intro e he
    apply h.seqs e
    simpa [contents, held, DBImpl.logs] using he
  · simp [DBImpl.active, DBImpl.memtable]
  · rintro index ⟨⟩
    refine ⟨by have := h.mem.1; simp; omega, ne_of_lt h.mem.1, olds, db.logFileNumber, records, rfl, ?_⟩
    exact (hmem db.mem h.mem.1).trans h.mem.2
  · obtain ⟨flushed, haccounts⟩ := h.accounts
    refine ⟨flushed, ?_⟩
    have hopened := haccounts.open_log
    simpa [DBImpl.logs] using hopened
  · exact h.secure.only honly (by simp) (by simp) (by simp)
  · exact ⟨by simp, le_refl _, fun index hindex => ⟨[], hmem index hindex, by simp⟩⟩

/-! A record for the log. -/

section Append

variable {e : Entry} (htype : e.HasType) (hseq : e.seq = db.versions.lastSequence + 1)
  (hlimit : db.versions.lastSequence + 1 < 2 ^ 64)

include h in
theorem torn_held {part : Bytes} (htail : TornTail part) :
    Holds loose (extend M.dir (.log db.logFileNumber) part) r db.versions.current
      (db.logs olds records) := by
  have hfile := (h.holds.listed (db.logFileNumber, records) (by simp [DBImpl.logs])).2
  refine h.holds.write (fun name hname => lookup_extend_other hname)
    ⟨hfile.small, hfile.fits, part, ?_, htail⟩ h.holds.stacked
  rw [lookup_extend_self h.written]

include h htype hseq hlimit in
theorem whole_held (hsmall : (walPayload e).length ≤ kMaxRecordSize) :
    Holds loose (extend M.dir (.log db.logFileNumber) (walFrame e)) r db.versions.current
        (db.logs olds (records ++ [e])) ∧
      ∃ flushed, Accounts loose (all ++ [e]) r.maxSeq ((db.logs olds (records ++ [e])).map Prod.snd)
        db.versions.current flushed := by
  have hfile := (h.holds.listed (db.logFileNumber, records) (by simp [DBImpl.logs])).2
  have hstacked := h.holds.stacked
  obtain ⟨flushed, haccounts⟩ := h.accounts
  rw [db.map_logs] at hstacked haccounts
  refine ⟨h.holds.write (fun name hname => lookup_extend_other hname)
    ⟨hfile.small, fun x hx => ?_, [], ?_, tornTail_short (by simp)⟩ ?_, flushed, ?_⟩
  · rcases List.mem_append.mp hx with hx | hx
    · exact hfile.fits x hx
    · rw [List.mem_singleton.mp hx]
      exact ⟨hseq ▸ hlimit, hsmall⟩
  · rw [lookup_extend_self h.written, walFrames_append, walFrames_singleton, List.append_nil]
  · change Stacked loose ((db.logs olds (records ++ [e])).map Prod.snd) _
    rw [db.map_logs]
    apply hstacked.write htype
    intro x hx
    have hle := h.seqs x (by rw [contents, db.map_logs]; exact hx)
    omega
  · rw [db.map_logs]
    apply haccounts.write
    intro x hx
    have hle := h.recent x hx
    omega

include h hseq in
theorem inserted_grows : db.Grows (db.inserted e) := by
  refine ⟨by simp [DBImpl.inserted], ?_, fun index hindex => ?_⟩
  · exact le_max_left _ _
  · rw [db.memtable_inserted e h.mem.1]
    split
    · refine ⟨[e], rfl, fun x hx => ?_⟩
      rw [List.mem_singleton.mp hx, hseq]
      exact Nat.lt_succ_self _
    · exact ⟨[], rfl, by simp⟩

include h htype hseq hlimit in
theorem append : Endures steady M (db.walWriter.appendRecord e db.options.sync)
    (fun status M' => status = .ok ∧
      Serving loose (all ++ [e]) (db.inserted e) M' m r olds (records ++ [e]))
    (Outlasts loose fun past => past = all ∨ past = all ++ [e]) := by
  have hlast : (db.inserted e).versions.lastSequence = e.seq := by
    simp only [DBImpl.inserted]
    omega
  have honly : ∀ {M' : Medium FileName},
      Medium.Only (fun name => name = .log db.logFileNumber) M M' →
      SameManifests M.dir M'.dir ∧ Secure M' m db.versions.current := by
    intro M' honly
    exact ⟨⟨(honly _ (by simp)).1, fun n => (honly _ (by simp)).1⟩,
      h.secure.only honly (by simp) (by simp) (by simp)⟩
  rw [h.writer]
  apply (appendRecord_endures steady_noFail rfl e db.options.sync).weaken
  · rintro status M' ⟨rfl, hdir, _, _, hframe, offset, hcall⟩
    obtain ⟨hsame, hsecure⟩ := honly hframe
    obtain ⟨hholds, haccounts⟩ := h.whole_held htype hseq hlimit (steady_limited _ hcall).1
    refine ⟨rfl, ⟨?_, h.descriptor, hdir ▸ hholds, ?_, h.writer, h.below, ?_, ?_, ?_⟩, haccounts, ?_, ?_,
      hsecure, h.saved, h.ahead, h.reached_records _⟩
    · have hmax : max db.versions.lastSequence e.seq < 2 ^ 64 := by omega
      exact (h.attached.advance (le_refl _) h.attached.bounded.next (le_max_left _ _) hmax).of_same hsame
    · rw [hdir, walFrames_append, walFrames_singleton]
      exact lookup_extend_self h.written
    · intro x hx
      rw [hlast]
      change x ∈ contents (db.logs olds (records ++ [e])) db.versions.current at hx
      have hmem : x ∈ contents (db.logs olds records) db.versions.current ∨ x = e := by
        simp only [contents, db.map_logs, held, List.flatten_append, List.flatten_cons,
          List.flatten_nil, List.append_nil, List.mem_append, List.mem_singleton] at hx ⊢
        tauto
      rcases hmem with hx | rfl
      · have hle := h.seqs x hx
        omega
      · exact le_refl _
    · refine ⟨by simpa [DBImpl.inserted] using h.mem.1, ?_⟩
      rw [DBImpl.active, db.memtable_inserted e h.mem.1, List.foldl_append]
      exact (if_pos rfl).trans (congrArg (fun m => m.add e) h.mem.2)
    · intro index himm
      obtain ⟨hlt, hne, rest, number, es, holds, htable⟩ := h.imm index himm
      refine ⟨by simpa [DBImpl.inserted] using hlt, hne, rest, number, es, holds, ?_⟩
      rw [db.memtable_inserted e h.mem.1, if_neg hne, htable]
    · intro x hx
      rw [hlast]
      rcases List.mem_append.mp hx with hx | hx
      · have hle := h.recent x hx
        omega
      · rw [List.mem_singleton.mp hx]
    · apply (h.distinct.insert (e := e) ?_).mono
      · intro x hx
        rw [List.mem_append, List.mem_singleton] at hx
        exact List.mem_cons.mpr hx.symm
      · intro x hx
        have hle := h.recent x hx
        change x.seq < e.seq
        omega
  · intro M' happending
    obtain ⟨hsame, hsecure⟩ := honly happending.only
    obtain ⟨torn, htorn, hdir, _⟩ := happending.dir
    have hattached := h.attached.of_same hsame
    rcases htorn.wholeOrTorn steady_limited with htail | ⟨rfl, hsmall⟩
    · exact Outlasts.of_secure (Or.inl rfl) ⟨⟨hattached.disk (hdir ▸ h.torn_held htail),
        h.accounts, h.reached⟩, hattached.fresh⟩ hsecure
    · obtain ⟨hholds, haccounts⟩ := h.whole_held htype hseq hlimit hsmall
      exact Outlasts.of_secure (Or.inr rfl) ⟨⟨hattached.disk (hdir ▸ hholds), haccounts,
        h.reached_records _⟩, hattached.fresh⟩ hsecure

end Append

/-! A write, which first makes room for itself. -/

include h in
theorem makeRoom {past : List Entry → Prop} (hpast : past all) :
    Endures steady M db.makeRoomForWrite
      (fun result M' => result = none ∧ M' = M ∧ db.imm.isSome ∨ ∃ db' olds' records',
        result = some db' ∧ Serving loose all db' M' m r olds' records' ∧ db.Grows db' ∧
        db'.options = db.options ∧ db'.versions.lastSequence = db.versions.lastSequence ∧
        (db.Single olds → db'.Single olds')) (Outlasts loose past) := by
  unfold DBImpl.makeRoomForWrite
  split
  · exact Endures.ret (Or.inr ⟨db, olds, records, rfl, h, DBImpl.Grows.refl db, rfl, rfl, fun hs => hs⟩)
  · split
    · rename_i himm
      exact Endures.ret (Or.inl ⟨rfl, rfl, himm⟩)
    · rename_i himm
      refine Endures.bind (h.switch hpast (Or.inl (by simpa using himm))) ?_
      rintro db' M' ⟨hserving, hgrows, hoptions, himm', hlast⟩
      refine Endures.ret (Or.inr ⟨db', _, [], rfl, hserving, hgrows, hoptions, hlast, fun hsingle => ?_⟩)
      rw [DBImpl.Single, if_neg himm] at hsingle
      rw [DBImpl.Single, if_pos himm', DBImpl.logs, List.length_append, hsingle]
      rfl

include h in
theorem write {type : ValueType} (htype : type = kTypeValue ∨ type = kTypeDeletion) (key : Key)
    (value : Bytes) (hlimit : db.versions.lastSequence + 1 < 2 ^ 64) :
    Endures steady M (db.write type key value)
      (fun result M' => result = none ∧ M' = M ∧ db.imm.isSome ∨ ∃ db' olds' records',
        result = some (.ok, db') ∧
        Serving loose (all ++ [⟨key, db.versions.lastSequence + 1, type, value⟩]) db' M' m r olds'
          records' ∧ db.Grows db' ∧ (db.Single olds → db'.Single olds'))
      (Outlasts loose fun past => past = all ∨
        past = all ++ [⟨key, db.versions.lastSequence + 1, type, value⟩]) := by
  unfold DBImpl.write
  refine Endures.bind (h.makeRoom (Or.inl rfl)) ?_
  rintro result M' (⟨rfl, rfl, himm⟩ | ⟨db', olds', records', rfl, hserving, hgrows, hoptions, hlast,
    hsingle⟩)
  · exact Endures.ret (Or.inl ⟨rfl, rfl, himm⟩)
  · simp only [hlast]
    refine Endures.bind (hserving.append (e := ⟨key, db.versions.lastSequence + 1, type, value⟩) htype
      (by rw [hlast]) (by rw [hlast]; exact hlimit)) ?_
    rintro status M'' ⟨rfl, hdone⟩
    refine Endures.ret (Or.inr ⟨_, olds', _, ?_, hdone, ?_, hsingle⟩)
    · rw [setLastSequence_eq]
      rfl
    · exact hgrows.trans (hserving.inserted_grows (by rw [hlast]))

end Serving

end Strata
