import Strata.KilledOpenings
import Strata.LiveIterators
import Strata.Sequences

/-! The replay of the logs, stopped and done again any number of times. -/
namespace Strata

open Library System Layers Memtable VersionSet Cursor

variable {loose : Prop} {past written : List Entry} {M : Medium FileName} {db db' : DBImpl}
  {start dir : Dir} {options : Options} {action : Action} {low high : Nat}

/-- Recoveries one behind the other: each has come to its end, or was stopped at some call, with
no manifest half made. -/
inductive Replays (start : Dir) : Dir → Prop
  | none : Replays start start
  | stopped {options : Options} {dir left : Dir} {fate : List Outcome}
      {trace : List (Event FileName)} (h : Replays start dir)
      (hexists : options.errorIfExists = false)
      (hexit : openDB options (machineOn dir fate) = .killed left trace)
      (hsteady : ∀ e ∈ trace, steady.events e) (htidy : Tidy left) : Replays start left
  | completed {options : Options} {dir : Dir} {fate : List Outcome} {db : DBImpl}
      {after : Machine FileName} {trace : List (Event FileName)} (h : Replays start dir)
      (hexit : openDB options (machineOn dir fate) = .done (.ok, some db) after trace)
      (hsteady : ∀ e ∈ trace, steady.events e) : Replays start after.dir

/-- What `Get`, a scan and `LastSequence` tell of a database. -/
structure Reproduces (past : List Entry) (top : Nat) (db : DBImpl) (dir : Dir) : Prop where
  answers : ∀ key, db.get dir (fun _ => none) key = response (mapOf past key)
  lastSequence : db.versions.lastSequence = top
  scans : top ≤ kMaxSequenceNumber → ∃ items : List (Key × Bytes),
    (items.Pairwise fun a b => a.1 < b.1) ∧
    (∀ key value, (key, value) ∈ items ↔ mapOf past key = some value) ∧
    ∃ enough, ∀ fuel ≥ enough, ∀ moves : List (Move Key),
      (DBImpl.newLiveIterator (fun _ _ => db) dir db.capture).Follows fuel items none moves

/-- A directory at rest, with the recorded sequence number between these bounds. -/
def RecoversWithin (low high : Nat) (past : List Entry) (dir : Dir) : Prop :=
  ∃ loose m torn r v logs, Intact loose past dir m torn r v logs ∧ low ≤ r.maxSeq ∧ r.maxSeq ≤ high

section Within

variable (h : RecoversWithin low high past dir) (hordered : InSequence past)
  (hseqs : ∀ e ∈ past, e.seq ≤ high)

include h hordered hseqs in
theorem RecoversWithin.openDB (hexists : options.errorIfExists = false) :
    ∃ loose, Endures steady (Medium.settled dir) (openDB options)
      (fun result M' => ∃ db, result = (.ok, some db) ∧
        InServiceWithin low high loose past db M')
      fun M' => RestorableWithin low high past M'.dir := by
  obtain ⟨loose, m, torn, r, v, logs, hintact, hlow, hhigh⟩ := h
  refine ⟨loose, ?_⟩
  apply (openDB_endures_within (M := Medium.settled dir) hintact (fun _ _ => ⟨rfl, rfl⟩) hlow hhigh
    hseqs hordered.distinct hexists).weaken _ fun _ hrest => hrest
  rintro result M' ⟨db, hresult, _, _, hdone⟩
  exact ⟨db, hresult, hdone⟩

include h hordered hseqs in
theorem RecoversWithin.opened {fate : List Outcome} {after : Machine FileName}
    {trace : List (Event FileName)}
    (hexit : Strata.openDB options (machineOn dir fate) = .done (.ok, some db) after trace)
    (hsteady : ∀ e ∈ trace, steady.events e) :
    ∃ loose, InServiceWithin low high loose past db ((Medium.settled dir).run trace) ∧
      ((Medium.settled dir).run trace).dir = after.dir := by
  have hexists : options.errorIfExists = false := by
    obtain ⟨_, m, torn, r, v, logs, hintact, _⟩ := h
    exact errorIfExists_of_opened hexit hintact.recorded.current
  obtain ⟨loose, hopen⟩ := h.openDB hordered hseqs hexists
  obtain ⟨hdir, _, hresult, hdone⟩ := hopen.done hexit rfl rfl hsteady
  cases hresult
  exact ⟨loose, hdone, hdir⟩

end Within

theorem InServiceWithin.recovers (h : InServiceWithin low high loose past db M) :
    RecoversWithin low high past M.dir := by
  obtain ⟨m, r, olds, records, hserving, _, hlow, hhigh⟩ := h
  exact ⟨loose, m, _, r, _, _, hserving.intact, hlow, le_trans hserving.attached.maxSeq hhigh⟩

/-- A stop or an end of a recovery leaves as much as there was. -/
theorem Replays.recovers (h : Replays start dir) (hstart : RecoversWithin low high past start)
    (hordered : InSequence past) (hseqs : ∀ e ∈ past, e.seq ≤ high) :
    RecoversWithin low high past dir := by
  induction h with
  | none => exact hstart
  | stopped _ hexists hexit hsteady htidy ih =>
    obtain ⟨loose, hopen⟩ := ih.openDB hordered hseqs hexists
    obtain ⟨rfl, m, torn, r, v, logs, hkept, hlow, hhigh⟩ := hopen.killed hexit rfl rfl hsteady
    exact ⟨True, m, torn, r, v, logs, hkept.intact htidy, hlow, hhigh⟩
  | completed _ hexit hsteady ih =>
    obtain ⟨loose, hdone, hdir⟩ := ih.opened hordered hseqs hexit hsteady
    exact hdir ▸ hdone.recovers

/-! A process that writes nothing. -/

theorem DBImpl.perform_idle (h : db.Logging) {machine after : Machine FileName} {status : Status}
    {trace : List (Event FileName)} (hidle : ∀ type key value, action ≠ .write type key value)
    (hexit : db.perform action machine = .done (some (status, db')) after trace) :
    db'.Logging ∧ db'.versions.lastSequence = db.versions.lastSequence := by
  cases action with
  | write type key value => exact absurd rfl (hidle type key value)
  | flushMemTable =>
    obtain ⟨_, _, _, _, hfirst, hlast⟩ := Sys.of_bind_done hexit
    cases hlast
    obtain ⟨hlogging, _, hsame, _⟩ := (DBImpl.flushMemTable_logs h).done_any hfirst
    exact ⟨hlogging, hsame⟩
  | compactRange =>
    obtain ⟨_, _, _, _, hfirst, hlast⟩ := Sys.of_bind_done hexit
    cases hlast
    obtain ⟨_, hcarries⟩ := (DBImpl.compactRange_works h.described).done hfirst
    exact ⟨hcarries.logging h, hcarries.versions.lastSequence⟩
  | backgroundCompaction =>
    obtain ⟨_, _, _, _, hfirst, hlast⟩ := Sys.of_bind_done hexit
    cases hlast
    obtain ⟨_, hcarries⟩ := (DBImpl.backgroundCompaction_works h.described).done hfirst
    exact ⟨hcarries.logging h, hcarries.versions.lastSequence⟩

theorem Powered.typed (h : Powered steady.events options start db written M) : db.Typed := by
  induction h with
  | opened hexit _ =>
    intro table htable e he
    rw [openDB_heap hexit, List.mem_singleton] at htable
    rw [htable] at he
    exact (List.not_mem_nil he).elim
  | did _ hgranted hexit _ ih =>
    intro table htable e he
    rcases (DBImpl.perform_turned hexit).puts table htable e he with ⟨old, hold, he⟩ | rfl
    · exact ih old hold e he
    · exact hgranted.1

/-- Such a process keeps the `LastSequence` that its opening came to. -/
theorem Powered.unwritten (h : Powered steady.events options start db written M)
    (hnone : written = []) :
    db.Logging ∧ ∃ (opened : DBImpl) (fate : List Outcome) (after : Machine FileName)
      (trace : List (Event FileName)),
      openDB options (machineOn start fate) = .done (.ok, some opened) after trace ∧
      (∀ e ∈ trace, steady.events e) ∧
      db.versions.lastSequence = opened.versions.lastSequence := by
  induction h with
  | opened hexit hsteady => exact ⟨openDB_logs hexit, _, _, _, _, hexit, hsteady, rfl⟩
  | @did before _ written _ action _ _ _ _ _ _ hexit _ ih =>
    have hidle : ∀ type key value, action ≠ .write type key value := by
      rintro type key value rfl
      simp [Action.record] at hnone
    have hwritten : written = [] := by
      cases action with
      | write type key value => exact absurd rfl (hidle type key value)
      | _ => exact hnone
    obtain ⟨hlogging, opened, fate, after, trace, hopen, hsteady, hlast⟩ := ih hwritten
    obtain ⟨hlogging', hsame⟩ := DBImpl.perform_idle hlogging hidle hexit
    exact ⟨hlogging', opened, fate, after, trace, hopen, hsteady, hsame.trans hlast⟩

theorem InServiceWithin.lastSequence (h : InServiceWithin low high loose past db M)
    (hhigh : high = past.foldl (fun seq e => max seq e.seq) low) :
    db.versions.lastSequence = high := by
  obtain ⟨m, r, olds, records, hserving, _, hlow, hle⟩ := h
  apply le_antisymm hle
  rw [hhigh]
  apply Nat.le_of_lt_succ
  apply Replaying.foldl_max_lt
  · exact Nat.lt_succ_of_le (le_trans hlow hserving.attached.maxSeq)
  · exact fun e he => Nat.lt_succ_of_le (hserving.recent e he)

theorem Replays.stopped_of {left : Dir} {fate : List Outcome} {m : Nat} (h : Replays start dir)
    (hexists : options.errorIfExists = false)
    (hkilled : killedOpening options dir fate = some (left, true)) (htidy : tidyAt m left = true) :
    Replays start left := by
  obtain ⟨trace, hexit, hsteady⟩ := of_killedOpening hkilled
  exact h.stopped hexists hexit hsteady (tidy_of_tidyAt htidy)

/-- Two logs. The first recovery is stopped between the edit for the first of them and its removal,
the second one in the table that it makes of the same log again. Behind the third one the tables
are compacted. -/
def stoppedTwice : Option (Dir × Dir × DBImpl × Medium FileName) := do
  let (_, written, M) ← poweredBy tinyTables ∅ [firstPut, secondPut]
  let (first, steadily) ← killedOpening tinyTables M.dir (List.replicate 23 .ok ++ [.kill 0])
  let (second, steadily') ← killedOpening tinyTables first (List.replicate 5 .ok ++ [.kill 1])
  let (db, more, M') ← poweredBy tinyTables second [.backgroundCompaction]
  if written = firstWrites ∧ more = [] ∧ steadily = true ∧ steadily' = true ∧
      tidyAt 5 first = true ∧ tidyAt 5 second = true ∧ (M.dir.lookup .current).isSome = true ∧
      (first.lookup (.log 3)).isSome = true ∧ db.versions.liveFiles = [10] then
    some (M.dir, second, db, M')
  else none

set_option maxRecDepth 8192 in
theorem stoppedTwice_replays : ∃ start dir db M, Lived firstWrites firstWrites start ∧
    (start.lookup .current).isSome ∧ Replays start dir ∧ Powered steady.events tinyTables dir db [] M ∧
      db.versions.liveFiles = [10] := by
  have hsome : stoppedTwice.isSome = true := by decide +kernel
  obtain ⟨⟨start, dir, db, M'⟩, hrun⟩ := Option.isSome_iff_exists.mp hsome
  simp only [stoppedTwice, Option.bind_eq_bind, Option.bind_eq_some_iff,
    Option.ite_none_right_eq_some, Option.some.injEq, Prod.mk.injEq] at hrun
  obtain ⟨⟨_, _, M⟩, hfirst, ⟨_, _⟩, hkill, ⟨second, _⟩, hkill', ⟨_, _, _⟩, hlast,
    ⟨rfl, rfl, rfl, rfl, htidy, htidy', hcurrent, _, hlive⟩, rfl, rfl, rfl, rfl⟩ := hrun
  have hlived := (Lived.new bare_empty).process (.between (powered_of_poweredBy hfirst))
  have hreplays := (Replays.none.stopped_of rfl hkill htidy).stopped_of rfl hkill' htidy'
  exact ⟨M.dir, second, _, _, hlived, hcurrent, hreplays, powered_of_poweredBy hlast, hlive⟩

def threeFiles : Options := { maxLevel0Files := 3 }

def tabledEntry : Entry := ⟨[107], 10, kTypeValue, [121]⟩

def loggedEntry : Entry := ⟨[107], 5, kTypeValue, [120]⟩

def disorderedEdit : VersionEdit :=
  { comparatorName := some byteComparator
    logNumber := some 5
    nextFileNumber := some 6
    lastSequence := some 10
    newFiles := [(0, ⟨4, (layoutOf threeFiles [tabledEntry]).image.length, [107], [107], none⟩)] }

def disordered : Dir :=
  ((((∅ : Dir).insert .current (currentText 2)).insert (.manifest 2)
    (walFrame (manifestEntry disorderedEdit))).insert (.table 4)
      (layoutOf threeFiles [tabledEntry]).image).insert (.log 5) (walFrame loggedEntry)

/-- Recovered at once, and stopped between the edit for the log and its removal and then recovered.
Only then are there three tables to compact. -/
def disorderedRuns : Option (Dir × (DBImpl × Medium FileName) × DBImpl × Medium FileName) := do
  let (db, written, M) ← poweredBy threeFiles disordered [.backgroundCompaction]
  let (left, steadily) ← killedOpening threeFiles disordered (List.replicate 23 .ok ++ [.kill 0])
  let (db', written', M') ← poweredBy threeFiles left [.backgroundCompaction]
  if written = [] ∧ written' = [] ∧ steadily = true ∧ tidyAt 7 left = true ∧
      db.get M.dir (fun _ => none) [107] = (.ok, [120]) ∧
      db'.get M'.dir (fun _ => none) [107] = (.ok, [121]) then
    some (left, (db, M), db', M')
  else none

end Strata
