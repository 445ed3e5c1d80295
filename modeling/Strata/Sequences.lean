import Strata.StoreSteps

/-! Sequence numbers in the logs. A write takes the number behind `LastSequence`
and moves `LastSequence` only if its append returned OK. A record whose append
failed after all of it was in the file has the number of the next one. -/
namespace Strata

open Library System

/-- What `Recover` reads of a log. -/
def recordsOf (dir : Dir) (number : Nat) : List Entry :=
  (WalReader.new (dir.lookup (.log number)) none).readAll.1

theorem recordsOf_eq (dir : Dir) (number : Nat) :
    recordsOf dir number = (WalReader.readAll ⟨true, logBytes dir number, 0⟩).1 := by
  unfold recordsOf logBytes
  cases dir.lookup (.log number) with
  | none => rfl
  | some bytes => rfl

/-- From this log on, no two records that are added to one memtable have the same key and
sequence, and the sequences increase from record to record and from log to log. -/
structure Sequenced (first : Nat) (dir : Dir) : Prop where
  distinct : ∀ number, first ≤ number → (recordsOf dir number).Pairwise fun a b =>
    ¬ (a.userKey = b.userKey ∧ a.seq = b.seq)
  increasing : ∀ numbers : List Nat, numbers.Pairwise (· < ·) → (∀ n ∈ numbers, first ≤ n) →
    (numbers.flatMap (recordsOf dir)).Pairwise fun a b => a.seq < b.seq

/-- The record is in the log as a whole, where the reading of the log ends. -/
def Lands (log left : Bytes) (e : Entry) : Prop := unread log = [] ∧ left = walFrame e ∧ e.Fits

/-- No call of `Put` or `Delete` that returned an error left its whole record, and bytes
that are no record of their own make none of what the log ends with. -/
def Transition.Settled (t : Transition) : Prop :=
  match t.action with
  | .write type key value =>
    let db := t.before.db
    let log := logBytes t.before.machine.dir db.logToWrite
    let left := (logBytes t.after.machine.dir db.logToWrite).drop log.length
    let e : Entry := ⟨key, db.versions.lastSequence + 1, type, value⟩
    (∀ status trace, db.write type key value t.before.machine =
        .done (some (status, t.after.db)) t.after.machine trace →
      status ≠ .ok → ¬ Lands log left e) ∧
    (¬ Lands log left e → (WalReader.readAll ⟨true, unread log ++ left, 0⟩).1 = [])
  | _ => True

/-- The records of the logs are in order, and `LastSequence` is not behind them. -/
structure InOrder (first : Nat) (store : Store) : Prop where
  logging : store.db.Logging
  since : first ≤ store.db.logFileNumber
  inside : ∀ n, first ≤ n → (recordsOf store.machine.dir n).Pairwise fun a b => a.seq < b.seq
  across : ∀ m n, first ≤ m → m < n → ∀ a ∈ recordsOf store.machine.dir m,
    ∀ b ∈ recordsOf store.machine.dir n, a.seq < b.seq
  latest : ∀ n, store.db.logFileNumber < n → recordsOf store.machine.dir n = []
  bound : ∀ n, first ≤ n → ∀ e ∈ recordsOf store.machine.dir n,
    e.seq ≤ store.db.versions.lastSequence

namespace InOrder

variable {first : Nat} {store next : Store}

theorem sequenced (h : InOrder first store) : Sequenced first store.machine.dir := by
  constructor
  · intro number hnumber
    apply (h.inside number hnumber).imp
    intro a b hlt hsame
    exact absurd hsame.2 (ne_of_lt hlt)
  · intro numbers hascending hsince
    apply List.pairwise_flatMap.mpr
    constructor
    · exact fun n hn => h.inside n (hsince n hn)
    · apply hascending.imp_of_mem
      intro m n hm _ hlt a ha b hb
      exact h.across m n (hsince m hm) hlt a ha b hb

theorem same (h : InOrder first store) (hlogging : next.db.Logging)
    (hnumber : store.db.logFileNumber ≤ next.db.logFileNumber)
    (hlast : store.db.versions.lastSequence ≤ next.db.versions.lastSequence)
    (hrecords : ∀ n, recordsOf next.machine.dir n = recordsOf store.machine.dir n) :
    InOrder first next := by
  constructor
  · exact hlogging
  · exact h.since.trans hnumber
  · intro n hn
    rw [hrecords n]
    exact h.inside n hn
  · intro m n hm hlt
    rw [hrecords m, hrecords n]
    exact h.across m n hm hlt
  · intro n hn
    rw [hrecords n]
    exact h.latest n (lt_of_le_of_lt hnumber hn)
  · intro n hn e he
    rw [hrecords n] at he
    exact (h.bound n hn e he).trans hlast

theorem recordsOf_logsKept {dir dir' : Dir} (h : LogsKept dir dir') (n : Nat) :
    recordsOf dir' n = recordsOf dir n := by
  rw [recordsOf_eq, h n, recordsOf_eq]

theorem landed (h : InOrder first store) (hlogging : next.db.Logging) {e : Entry}
    (hnumber : store.db.logFileNumber ≤ next.db.logFileNumber)
    (hseq : e.seq = store.db.versions.lastSequence + 1)
    (hlast : next.db.versions.lastSequence = e.seq)
    (hhere : recordsOf next.machine.dir next.db.logFileNumber =
      recordsOf store.machine.dir next.db.logFileNumber ++ [e])
    (hothers : ∀ n, n ≠ next.db.logFileNumber →
      recordsOf next.machine.dir n = recordsOf store.machine.dir n) : InOrder first next := by
  have hsince := h.since.trans hnumber
  have hless : ∀ n, first ≤ n → ∀ x ∈ recordsOf store.machine.dir n, x.seq < e.seq := by
    intro n hn x hx
    rw [hseq]
    exact Nat.lt_succ_of_le (h.bound n hn x hx)
  constructor
  · exact hlogging
  · exact hsince
  · intro n hn
    by_cases heq : n = next.db.logFileNumber
    · rw [heq, hhere, List.pairwise_append]
      refine ⟨h.inside _ hsince, List.pairwise_singleton _ _, ?_⟩
      intro a ha b hb
      rw [List.mem_singleton.mp hb]
      exact hless _ hsince a ha
    · rw [hothers n heq]
      exact h.inside n hn
  · intro m n hm hlt a ha b hb
    by_cases hn : n = next.db.logFileNumber
    · rw [hothers m (by omega)] at ha
      rw [hn, hhere] at hb
      rcases List.mem_append.mp hb with hb | hb
      · exact h.across m _ hm (hn ▸ hlt) a ha b hb
      · rw [List.mem_singleton.mp hb]
        exact hless m hm a ha
    · rw [hothers n hn] at hb
      by_cases hm' : m = next.db.logFileNumber
      · rw [h.latest n (by omega)] at hb
        cases hb
      · rw [hothers m hm'] at ha
        exact h.across m n hm hlt a ha b hb
  · intro n hn
    rw [hothers n (ne_of_gt hn)]
    exact h.latest n (lt_of_le_of_lt hnumber hn)
  · intro n hn x hx
    rw [hlast]
    by_cases heq : n = next.db.logFileNumber
    · rw [heq, hhere] at hx
      rcases List.mem_append.mp hx with hx | hx
      · exact le_of_lt (hless _ hsince x hx)
      · rw [List.mem_singleton.mp hx]
    · rw [hothers n heq] at hx
      exact le_of_lt (hless n hn x hx)

end InOrder

theorem logsKept_of_lookup {dir dir' : Dir} (h : ∀ name, ¬ (∀ number, name ≠ .log number) →
    dir'.lookup name = dir.lookup name) : LogsKept dir dir' := by
  intro n
  rw [logBytes, h (.log n) fun hne => hne n rfl, logBytes]

theorem recordsOf_grown {dir dir' : Dir} {number : Nat} {left : Bytes}
    (h : LogGrows number left dir dir') : recordsOf dir' number = recordsOf dir number ++
      (WalReader.readAll ⟨true, unread (logBytes dir number) ++ left, 0⟩).1 := by
  rw [recordsOf_eq, recordsOf_eq, h.grown]
  exact readAll_more _ _

theorem LogGrows.drop {dir dir' : Dir} {number : Nat} {left : Bytes}
    (h : LogGrows number left dir dir') :
    (logBytes dir' number).drop (logBytes dir number).length = left := by
  rw [h.grown, List.drop_left]

theorem Lands.records {log left : Bytes} {e : Entry} (h : Lands log left e) :
    (WalReader.readAll ⟨true, unread log ++ left, 0⟩).1 = [e] := by
  obtain ⟨hend, hleft, hfits⟩ := h
  have hread := readAll_frames [e] [] 0 fun x hx => List.mem_singleton.mp hx ▸ hfits
  rw [List.append_nil, walFrames_singleton] at hread
  rw [hend, hleft, List.nil_append, hread]
  rfl

namespace InOrder

variable {first : Nat} {store next : Store}

theorem write (h : InOrder first store) {type : ValueType} {key : Key} {value : Bytes}
    (hstep : Step store (.write type key value) next)
    (hsettled : Transition.Settled ⟨store, .write type key value, next⟩) :
    InOrder first next := by
  obtain ⟨status, trace, hrun⟩ := hstep
  obtain ⟨hlogging, hnumber, hlast, hmoved, left, _, hgrows⟩ :=
    (DBImpl.write_logs h.logging type key value).done_any hrun status next.db rfl
  obtain ⟨herror, helse⟩ := hsettled
  rw [hgrows.drop] at herror helse
  have hle : store.db.logFileNumber ≤ next.db.logFileNumber := by
    rw [hnumber]
    exact h.logging.le_logToWrite
  have hothers : ∀ n, n ≠ next.db.logFileNumber →
      recordsOf next.machine.dir n = recordsOf store.machine.dir n := by
    intro n hne
    rw [hnumber] at hne
    rw [recordsOf_eq, hgrows.others n hne, recordsOf_eq]
  have hhere := recordsOf_grown hgrows
  by_cases hland : Lands (logBytes store.machine.dir store.db.logToWrite) left
      ⟨key, store.db.versions.lastSequence + 1, type, value⟩
  -- the call returned OK, and `LastSequence` is now the sequence of the record
  · have hok : status = .ok := by
      by_contra hfailed
      exact herror status trace hrun hfailed hland
    rw [hland.records, ← hnumber] at hhere
    exact h.landed hlogging hle rfl (hmoved hok) hhere hothers
  · rw [helse hland, List.append_nil, ← hnumber] at hhere
    apply h.same hlogging hle hlast
    intro n
    by_cases heq : n = next.db.logFileNumber
    · rw [heq]
      exact hhere
    · exact hothers n heq

theorem carried (h : InOrder first store) (hcarries : store.db.Carries next.db)
    (hfiles : ∀ name, ¬ (∀ number, name ≠ .log number) →
      next.machine.dir.lookup name = store.machine.dir.lookup name) : InOrder first next := by
  exact h.same (hcarries.logging h.logging) (le_of_eq hcarries.logFileNumber.symm)
    (le_of_eq hcarries.versions.lastSequence.symm) (recordsOf_logsKept (logsKept_of_lookup hfiles))

theorem step (h : InOrder first store) {action : Action} (hstep : Step store action next)
    (hsettled : Transition.Settled ⟨store, action, next⟩) : InOrder first next := by
  cases action with
  | write type key value => exact h.write hstep hsettled
  | flushMemTable =>
    obtain ⟨trace, hrun⟩ := hstep
    obtain ⟨hlogging, hnumber, hlast, hsame⟩ :=
      (DBImpl.flushMemTable_logs h.logging).done_any hrun
    exact h.same hlogging hnumber (le_of_eq hlast.symm) (recordsOf_logsKept hsame)
  | compactRange =>
    obtain ⟨status, trace, hrun⟩ := hstep
    obtain ⟨hfiles, hcarries⟩ := (DBImpl.compactRange_works h.logging.described).done hrun
    exact h.carried hcarries hfiles
  | backgroundCompaction =>
    obtain ⟨trace, hrun⟩ := hstep
    obtain ⟨hfiles, hcarries⟩ := (DBImpl.backgroundCompaction_works h.logging.described).done hrun
    exact h.carried hcarries hfiles

theorem history (h : InOrder first store) {transitions : List Transition}
    (hhistory : History store transitions next) (hsettled : ∀ t ∈ transitions, t.Settled) :
    InOrder first next := by
  induction hhistory with
  | start => exact h
  | step hfront hstep ih =>
    have hlast := hsettled _ (List.mem_append_right _ (List.mem_singleton_self _))
    exact (ih fun t ht => hsettled t (List.mem_append_left _ ht)).step hstep hlast

end InOrder

theorem openDB_logs {options : Options} {machine after : Machine FileName} {db : DBImpl}
    {trace : List (Event FileName)}
    (hexit : openDB options machine = .done (.ok, some db) after trace) : db.Logging := by
  have hworks : Works (Event.Within fun _ => True) (openDB options) fun result _ =>
      ∀ db, result.2 = some db → db.Logging :=
    ((openDB_logging options).within fun _ _ _ _ => trivial).weaken fun _ _ h => h.1
  exact (hworks.done hexit).2 db rfl

theorem inOrder_opened {options : Options} {machine start : Machine FileName} {db : DBImpl}
    {trace : List (Event FileName)} (hopen : openDB options machine = .done (.ok, some db) start trace)
    (hempty : ∀ n, db.logFileNumber ≤ n → recordsOf start.dir n = []) :
    InOrder db.logFileNumber ⟨db, start⟩ := by
  constructor
  · exact openDB_logs hopen
  · exact le_refl _
  · intro n hn
    rw [hempty n hn]
    exact List.Pairwise.nil
  · intro m n hm _ a ha
    rw [hempty m hm] at ha
    cases ha
  · exact fun n hn => hempty n (le_of_lt hn)
  · intro n hn e he
    rw [hempty n hn] at he
    cases he

/-- The logs of an open database stay in sequence, as long as no write that fails leaves
its whole record and no bytes behind a record that was cut off make it whole. -/
theorem logs_stay_sequenced (options : Options) (machine start : Machine FileName) (db : DBImpl)
    (trace : List (Event FileName)) (hopen : openDB options machine = .done (.ok, some db) start trace)
    (hempty : ∀ n, db.logFileNumber ≤ n → recordsOf start.dir n = [])
    (transitions : List Transition) (last : Store)
    (hhistory : History ⟨db, start⟩ transitions last)
    (hsettled : ∀ t ∈ transitions, t.Settled) :
    Sequenced db.logFileNumber last.machine.dir :=
  ((inOrder_opened hopen hempty).history hhistory hsettled).sequenced

/-! Writes that return OK, or that fail with less than their record in the log. -/

theorem settled_of_end {store next : Store} (hlogging : store.db.Logging) {type : ValueType}
    {key : Key} {value : Bytes} (hstep : Step store (.write type key value) next)
    (hend : unread (logBytes store.machine.dir store.db.logToWrite) = [])
    (hfits : Entry.Fits ⟨key, store.db.versions.lastSequence + 1, type, value⟩)
    (hfailed : ∀ status trace, store.db.write type key value store.machine =
        .done (some (status, next.db)) next.machine trace → status ≠ .ok →
      logBytes next.machine.dir store.db.logToWrite ≠
        logBytes store.machine.dir store.db.logToWrite ++
          walFrame ⟨key, store.db.versions.lastSequence + 1, type, value⟩) :
    Transition.Settled ⟨store, .write type key value, next⟩ := by
  obtain ⟨status, trace, hrun⟩ := hstep
  obtain ⟨_, _, _, _, left, ⟨hpart, _⟩, hgrows⟩ :=
    (DBImpl.write_logs hlogging type key value).done_any hrun status next.db rfl
  refine ⟨fun status trace hrun hne hland => ?_, fun hnot => ?_⟩
  · rw [hgrows.drop] at hland
    apply hfailed status trace hrun hne
    rw [hgrows.grown, hland.2.1]
  · rw [hgrows.drop] at hnot ⊢
    have hshort : left.length < (walFrame ⟨key, store.db.versions.lastSequence + 1, type,
        value⟩).length := by
      by_contra hlong
      exact hnot ⟨hend, hpart.eq_of_length_le (by omega), hfits⟩
    obtain ⟨status, hread⟩ := tornTail_part hpart hshort (lt_of_le_of_lt hfits.2 (by decide))
    rw [hend, List.nil_append, hread]

/-- A write returned OK and its record is within the limits of the reader. -/
def Transition.Accepted (t : Transition) : Prop :=
  match t.action with
  | .write type key value =>
    (∃ trace, t.before.db.write type key value t.before.machine =
      .done (some (.ok, t.after.db)) t.after.machine trace) ∧
    Entry.Fits ⟨key, t.before.db.versions.lastSequence + 1, type, value⟩
  | _ => True

def LogsEnd (first : Nat) (dir : Dir) : Prop := ∀ n, first ≤ n → unread (logBytes dir n) = []

theorem LogsEnd.kept {first : Nat} {dir dir' : Dir} (h : LogsEnd first dir)
    (hkept : LogsKept dir dir') : LogsEnd first dir' := by
  intro n hn
  rw [hkept n]
  exact h n hn

namespace InOrder

variable {first : Nat} {store next : Store}

theorem write_accepted (h : InOrder first store) (hends : LogsEnd first store.machine.dir)
    {type : ValueType} {key : Key} {value : Bytes}
    (haccepted : Transition.Accepted ⟨store, .write type key value, next⟩) :
    Transition.Settled ⟨store, .write type key value, next⟩ ∧
      LogsEnd first next.machine.dir := by
  obtain ⟨⟨trace, hrun⟩, hfits⟩ := haccepted
  obtain ⟨_, _, _, _, left, ⟨_, hwhole⟩, hgrows⟩ :=
    (DBImpl.write_logs h.logging type key value).done_any hrun .ok next.db rfl
  have hend := hends _ (h.since.trans h.logging.le_logToWrite)
  refine ⟨settled_of_end h.logging ⟨_, trace, hrun⟩ hend hfits ?_, ?_⟩
  · intro status trace' hrun' hne
    rw [hrun] at hrun'
    cases hrun'
    exact absurd rfl hne
  · intro n hn
    by_cases heq : n = store.db.logToWrite
    · rw [heq, hgrows.grown, unread_append hend]
      rcases hwhole rfl with rfl | rfl
      · exact unread_walFrame hfits
      · rfl
    · rw [hgrows.others n heq]
      exact hends n hn

theorem step_accepted (h : InOrder first store) (hends : LogsEnd first store.machine.dir)
    {action : Action} (hstep : Step store action next)
    (haccepted : Transition.Accepted ⟨store, action, next⟩) :
    Transition.Settled ⟨store, action, next⟩ ∧ LogsEnd first next.machine.dir := by
  cases action with
  | write type key value => exact h.write_accepted hends haccepted
  | flushMemTable =>
    obtain ⟨trace, hrun⟩ := hstep
    obtain ⟨_, _, _, hsame⟩ := (DBImpl.flushMemTable_logs h.logging).done_any hrun
    exact ⟨trivial, hends.kept hsame⟩
  | compactRange =>
    obtain ⟨status, trace, hrun⟩ := hstep
    obtain ⟨hfiles, _⟩ := (DBImpl.compactRange_works h.logging.described).done hrun
    exact ⟨trivial, hends.kept (logsKept_of_lookup hfiles)⟩
  | backgroundCompaction =>
    obtain ⟨trace, hrun⟩ := hstep
    obtain ⟨hfiles, _⟩ := (DBImpl.backgroundCompaction_works h.logging.described).done hrun
    exact ⟨trivial, hends.kept (logsKept_of_lookup hfiles)⟩

theorem history_accepted (h : InOrder first store) (hends : LogsEnd first store.machine.dir)
    {transitions : List Transition} (hhistory : History store transitions next)
    (haccepted : ∀ t ∈ transitions, t.Accepted) :
    (∀ t ∈ transitions, t.Settled) ∧ LogsEnd first next.machine.dir := by
  induction hhistory with
  | start => exact ⟨by simp, hends⟩
  | step hfront hstep ih =>
    obtain ⟨hsettled, hends'⟩ := ih fun t ht => haccepted t (List.mem_append_left _ ht)
    have horder := h.history hfront hsettled
    obtain ⟨hlast, hends''⟩ := horder.step_accepted hends' hstep
      (haccepted _ (List.mem_append_right _ (List.mem_singleton_self _)))
    refine ⟨fun t ht => ?_, hends''⟩
    rcases List.mem_append.mp ht with ht | ht
    · exact hsettled t ht
    · rw [List.mem_singleton.mp ht]
      exact hlast

end InOrder

theorem accepted_writes_sequenced {options : Options} {machine start : Machine FileName}
    {db : DBImpl} {trace : List (Event FileName)}
    (hopen : openDB options machine = .done (.ok, some db) start trace)
    (hempty : ∀ n, db.logFileNumber ≤ n → logBytes start.dir n = [])
    {transitions : List Transition} {last : Store} (hhistory : History ⟨db, start⟩ transitions last)
    (haccepted : ∀ t ∈ transitions, t.Accepted) : Sequenced db.logFileNumber last.machine.dir := by
  have horder : InOrder db.logFileNumber ⟨db, start⟩ := by
    apply inOrder_opened hopen
    intro n hn
    rw [recordsOf_eq, hempty n hn]
    rfl
  have hends : LogsEnd db.logFileNumber start.dir := by
    intro n hn
    rw [hempty n hn]
    rfl
  exact (horder.history hhistory (horder.history_accepted hends hhistory haccepted).1).sequenced

/-- A new database, if `DB::Open` returns one. -/
def newStore (options : Options) (fate : List Outcome) : Option Store :=
  match openDB options ⟨∅, fun _ => none, fate⟩ with
  | .done (.ok, some db) start _ => some ⟨db, start⟩
  | _ => none

theorem openDB_of_newStore {options : Options} {fate : List Outcome} {store : Store}
    (h : newStore options fate = some store) : ∃ trace,
      openDB options ⟨∅, fun _ => none, fate⟩ = .done (.ok, some store.db) store.machine trace := by
  unfold newStore at h
  split at h
  · rename_i db start trace hexit
    cases h
    exact ⟨trace, hexit⟩
  · cases h

def Store.put (store : Store) (key : Key) (value : Bytes) : Option Store :=
  match store.db.put key value store.machine with
  | .done (some (_, db)) machine _ => some ⟨db, machine⟩
  | _ => none

theorem Store.step_of_put {store next : Store} {key : Key} {value : Bytes}
    (h : store.put key value = some next) : Step store (.write kTypeValue key value) next := by
  unfold Store.put at h
  split at h
  · rename_i status db machine trace hexit
    cases h
    exact ⟨status, trace, hexit⟩
  · cases h

def Store.unlogged (store : Store) : Bool :=
  store.machine.dir.keys.all fun name => match name with
    | .log number => recordsOf store.machine.dir number = []
    | _ => true

theorem Store.recordsOf_unlogged {store : Store} (h : store.unlogged = true) (n : Nat) :
    recordsOf store.machine.dir n = [] := by
  by_cases hkey : FileName.log n ∈ store.machine.dir
  · have hall := List.all_eq_true.mp h (.log n) (AList.mem_keys.mp hkey)
    exact of_decide_eq_true hall
  · rw [recordsOf, AList.lookup_eq_none.mpr hkey]
    rfl

def Store.accepts (store : Store) (key : Key) (value : Bytes) : Bool :=
  match store.db.put key value store.machine with
  | .done (some (status, _)) _ _ => status.isOk
  | _ => false

theorem Store.ok_of_accepts {store next : Store} {key : Key} {value : Bytes}
    (h : store.accepts key value = true) {status : Status} {trace : List (Event FileName)}
    (hrun : store.db.write kTypeValue key value store.machine =
      .done (some (status, next.db)) next.machine trace) : status = .ok := by
  rw [Store.accepts, DBImpl.put, hrun] at h
  by_contra hne
  exact absurd h (by simp [Status.isOk_eq_false.mpr hne])

/-- The first write lands, the second one is cut off in the header, and the third one is
behind the torn record. -/
theorem logs_stay_sequenced_cutOff : ∃ db start trace transitions last,
    openDB {} ⟨∅, fun _ => none, List.replicate 19 .ok ++ [.fail 3]⟩ =
      .done (.ok, some db) start trace ∧ transitions.length = 3 ∧
      History ⟨db, start⟩ transitions last ∧
      recordsOf last.machine.dir db.logFileNumber = [⟨[97], 1, kTypeValue, [49]⟩] ∧
      Sequenced db.logFileNumber last.machine.dir := by
  have htest : (do
      let store ← newStore {} (List.replicate 19 .ok ++ [.fail 3])
      let store' ← store.put [97] [49]
      let store'' ← store'.put [97] [50]
      let final ← store''.put [97] [51]
      return (store.unlogged && store.accepts [97] [49] && store''.accepts [97] [51] &&
        decide (recordsOf final.machine.dir store.db.logFileNumber =
          [⟨[97], 1, kTypeValue, [49]⟩]) &&
        decide (unread (logBytes store.machine.dir store.db.logToWrite) = []) &&
        decide (store.db.versions.lastSequence = 0) &&
        decide (unread (logBytes store'.machine.dir store'.db.logToWrite) = []) &&
        decide (store'.db.versions.lastSequence = 1) &&
        decide (logBytes store''.machine.dir store'.db.logToWrite ≠
          logBytes store'.machine.dir store'.db.logToWrite ++
            walFrame ⟨[97], 2, kTypeValue, [50]⟩) &&
        decide ((WalReader.readAll ⟨true, unread (logBytes store''.machine.dir
          store''.db.logToWrite) ++ (logBytes final.machine.dir store''.db.logToWrite).drop
            (logBytes store''.machine.dir store''.db.logToWrite).length, 0⟩).1 = []))) =
        some true := by
    decide +kernel
  simp only [Option.bind_eq_bind, Option.bind_eq_some_iff, Option.pure_def, Option.some.injEq,
    Bool.and_eq_true, decide_eq_true_eq, and_assoc] at htest
  obtain ⟨store, hopened, store', hput, store'', hput', final, hput3, hunlogged, haccepts,
    haccepts3, hrecords, hend, hseq, hend', hseq', hcut, hnothing⟩ := htest
  obtain ⟨trace, hopen⟩ := openDB_of_newStore hopened
  have hempty : ∀ n, store.db.logFileNumber ≤ n → recordsOf store.machine.dir n = [] :=
    fun n _ => Store.recordsOf_unlogged hunlogged n
  have hlogging := (inOrder_opened hopen hempty).logging
  have hlogging' : store'.db.Logging := by
    obtain ⟨status, trace, hrun⟩ := Store.step_of_put hput
    exact ((DBImpl.write_logs hlogging _ _ _).done_any hrun status _ rfl).1
  have hhistory := (History.start store).step (Store.step_of_put hput)
    |>.step (Store.step_of_put hput') |>.step (Store.step_of_put hput3)
  refine ⟨_, _, trace, _, _, hopen, rfl, hhistory, hrecords, logs_stay_sequenced _ _ _ _ trace hopen
    hempty _ _ hhistory ?_⟩
  intro t ht
  simp only [List.nil_append, List.cons_append, List.mem_cons, List.not_mem_nil, or_false] at ht
  rcases ht with rfl | rfl | rfl
  · apply settled_of_end hlogging (Store.step_of_put hput) hend
    · rw [hseq]
      exact ⟨by decide, by decide⟩
    · exact fun _ _ hrun hne => absurd (Store.ok_of_accepts haccepts hrun) hne
  · apply settled_of_end hlogging' (Store.step_of_put hput') hend'
    · rw [hseq']
      exact ⟨by decide, by decide⟩
    · intro _ _ _ _
      rw [hseq']
      exact hcut
  · exact ⟨fun _ _ hrun hne => absurd (Store.ok_of_accepts haccepts3 hrun) hne,
      fun _ => hnothing⟩

/-- The sync behind the first record fails, and the second record takes its number. -/
theorem failed_sync_repeats_sequence :
    ¬ ∀ (options : Options) (machine start : Machine FileName) (db : DBImpl)
      (trace : List (Event FileName)),
      openDB options machine = .done (.ok, some db) start trace →
      (∀ n, db.logFileNumber ≤ n → recordsOf start.dir n = []) →
      ∀ (transitions : List Transition) (last : Store), History ⟨db, start⟩ transitions last →
        Sequenced db.logFileNumber last.machine.dir := by
  intro hall
  have htest : (do
      let store ← newStore { sync := true } (List.replicate 19 .ok ++ [.fail 0])
      let store' ← store.put [97] [49]
      let store'' ← store'.put [97] [50]
      return (store.unlogged && decide (recordsOf store''.machine.dir store.db.logFileNumber =
        [⟨[97], 1, kTypeValue, [49]⟩, ⟨[97], 1, kTypeValue, [50]⟩]))) = some true := by
    decide +kernel
  simp only [Option.bind_eq_bind, Option.bind_eq_some_iff, Option.pure_def, Option.some.injEq,
    Bool.and_eq_true, decide_eq_true_eq] at htest
  obtain ⟨store, hopened, store', hfirst, store'', hsecond, hunlogged, hrecords⟩ := htest
  obtain ⟨trace, hopen⟩ := openDB_of_newStore hopened
  have hhistory := (History.start store).step (Store.step_of_put hfirst)
    |>.step (Store.step_of_put hsecond)
  have hsequenced := hall _ _ _ _ trace hopen
    (fun n _ => Store.recordsOf_unlogged hunlogged n) _ _ hhistory
  have hdistinct := hsequenced.distinct store.db.logFileNumber (le_refl _)
  rw [hrecords] at hdistinct
  exact absurd hdistinct (by simp)

end Strata
