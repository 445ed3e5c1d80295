import Strata.OversizedWrites

/-! The shape of the tree in every state that a database comes to, through writes, switches of
the memtable, flushes, compactions and openings with a replay of the logs. -/
namespace Strata

open Library System Layers Memtable VersionSet

variable {loose : Prop} {all : List Entry} {M : Medium FileName} {db : DBImpl} {dir : Dir}
  {v : Version} {m : Nat} {r : Recovery} {olds : List (Nat × List Entry)} {records : List Entry}
  {action : Action}

/-- A write is a `Put` or a `Delete` and finds a sequence number. `FlushMemTable` may come at any
time, also while a memtable is still to be flushed. -/
def Action.Numbered (db : DBImpl) : Action → Prop
  | .write type _ _ => (type = kTypeValue ∨ type = kTypeDeletion) ∧
      db.versions.lastSequence + 1 < 2 ^ 64
  | _ => True

/-- The states of a database that was opened in a new directory, used by its threads in any
order, closed, and opened again, where all calls are such events. -/
inductive Reachable (events : Event FileName → Prop) : DBImpl → Dir → Prop
  | created {options : Options} {dir : Dir} {fate : List Outcome} {db : DBImpl}
      {after : Machine FileName} {trace : List (Event FileName)} (hbare : Bare dir)
      (hexit : openDB options (machineOn dir fate) = .done (.ok, some db) after trace)
      (hevents : ∀ e ∈ trace, events e) : Reachable events db after.dir
  | did {db db' : DBImpl} {dir : Dir} {action : Action} {fate : List Outcome} {status : Status}
      {after : Machine FileName} {trace : List (Event FileName)} (h : Reachable events db dir)
      (hnumbered : action.Numbered db)
      (hexit : db.perform action (machineOn dir fate) = .done (some (status, db')) after trace)
      (hevents : ∀ e ∈ trace, events e) : Reachable events db' after.dir
  | reopened {options : Options} {db db' : DBImpl} {dir : Dir} {fate : List Outcome}
      {after : Machine FileName} {trace : List (Event FileName)} (h : Reachable events db dir)
      (hexit : openDB options (machineOn dir fate) = .done (.ok, some db') after trace)
      (hevents : ∀ e ∈ trace, events e) : Reachable events db' after.dir

structure WellShaped (db : DBImpl) : Prop where
  sorted : ∀ level, level ≠ 0 →
    (db.versions.current.files level).Pairwise fun a b => a.smallestKey ≤ b.smallestKey
  disjoint : ∀ level, level ≠ 0 →
    (db.versions.current.files level).Pairwise fun a b => a.largestKey < b.smallestKey
  level0 : (db.versions.current.files 0).Pairwise fun a b => b.number < a.number
  recency : (Serving.sources db).Pairwise fun newer older => ∀ x ∈ newer, ∀ y ∈ older,
    x.userKey = y.userKey → y.seq ≤ x.seq
  inside : ∀ f ∈ db.versions.current.allFiles, ∀ e ∈ f.entries,
    f.smallestKey ≤ e.userKey ∧ e.userKey ≤ f.largestKey
  distinct : db.versions.liveFiles.Nodup
  below : ∀ n ∈ db.versions.liveFiles, n < db.versions.nextFileNumber
  sequences : ∀ source ∈ Serving.sources db, ∀ e ∈ source, e.seq ≤ db.versions.lastSequence

theorem Version.Good.nodup_allFiles (h : v.Good loose) : v.allFiles.Nodup := by
  rw [Version.allFiles, List.nodup_flatMap]
  refine ⟨fun level _ => h.nodup level, ?_⟩
  apply (List.nodup_finRange kNumLevels).imp
  intro i j hne f hi hj
  exact hne (h.unique i j f hi f hj rfl).1

theorem Version.Good.nodup_numbers (h : v.Good loose) :
    (v.allFiles.map FileMetaData.number).Nodup := by
  apply h.nodup_allFiles.map_on
  intro x hx y hy hsame
  obtain ⟨i, hi⟩ := Version.mem_allFiles.mp hx
  obtain ⟨j, hj⟩ := Version.mem_allFiles.mp hy
  exact (h.unique i j x hi y hj hsame).2

namespace Serving

theorem held_of_source (h : Serving loose all db M m r olds records) {source : List Entry}
    (hsource : source ∈ sources db) {e : Entry} (he : e ∈ source) :
    e ∈ held ((db.logs olds records).map Prod.snd) db.versions.current := by
  obtain ⟨logs, hsub, hmemtables⟩ := h.memtables_logs
  rw [sources, hmemtables, List.map_map] at hsource
  rcases List.mem_append.mp hsource with hmem | hfile
  · obtain ⟨es, hes, rfl⟩ := List.mem_map.mp hmem
    exact mem_held_log (hsub.subset (List.mem_reverse.mp hes)) (mem_foldl_add.mp he)
  · obtain ⟨f, hf, rfl⟩ := List.mem_map.mp hfile
    obtain ⟨level, hlevel⟩ := Version.mem_allFiles.mp hf
    exact mem_held_file hlevel he

theorem wellShaped (h : Serving False all db M m r olds records) : WellShaped db := by
  have hgood := h.holds.stacked.good
  constructor
  · exact fun level hlevel => hgood.ascending level hlevel
  · exact fun level hlevel => hgood.disjoint hlevel
  · exact hgood.level0
  · apply h.sources_ordered.newer.imp
    intro newer older hnewer x hx y hy hkey
    obtain ⟨z, _, _, hle, rfl | hloose⟩ := hnewer x hx y hy hkey
    · exact hle
    · exact hloose.elim
  · intro f hf e he
    obtain ⟨level, hlevel⟩ := Version.mem_allFiles.mp hf
    have hsound := hgood.sound level f hlevel
    exact ⟨hsound.smallest_le he, hsound.le_largest he⟩
  · exact hgood.nodup_numbers
  · intro n hn
    obtain ⟨f, hf, rfl⟩ := List.mem_map.mp hn
    exact h.attached.bounded.numbers f hf
  · exact fun source hsource e he => h.seqs e (h.held_of_source hsource he)

theorem perform (h : Serving loose all db M m r olds records) (hnumbered : action.Numbered db) :
    Endures steady M (db.perform action)
      (fun result M' => result = none ∧ M' = M ∨ ∃ status db' all' r' olds' records',
        result = some (status, db') ∧ Serving loose all' db' M' m r' olds' records')
      fun _ => True := by
  cases action with
  | write type key value =>
    apply (h.write hnumbered.1 key value hnumbered.2).weaken _ fun _ _ => trivial
    rintro result M' (⟨rfl, hsame, _⟩ | ⟨db', olds', records', rfl, hserving, _, _⟩)
    · exact Or.inl ⟨rfl, hsame⟩
    · exact Or.inr ⟨_, _, _, _, _, _, rfl, hserving⟩
  | flushMemTable =>
    have hflush : Endures steady M db.flushMemTable
        (fun db' M' => ∃ olds' records', Serving loose all db' M' m r olds' records')
        fun _ => True := by
      unfold DBImpl.flushMemTable
      split
      · rename_i hcount
        have hrecords : records ≠ [] := by
          rintro rfl
          rw [h.mem.2] at hcount
          cases hcount
        have hswitch : Endures steady M db.switchMemtable _ (Outlasts loose fun _ => True) :=
          h.switch trivial (Or.inr hrecords)
        apply hswitch.weaken _ fun _ _ => trivial
        rintro db' M' ⟨hswitched, _⟩
        exact ⟨_, _, hswitched⟩
      · exact Endures.ret ⟨olds, records, h⟩
    refine Endures.bind hflush ?_
    rintro db' M' ⟨olds', records', hserving⟩
    exact Endures.ret (Or.inr ⟨_, _, _, _, _, _, rfl, hserving⟩)
  | compactRange =>
    have hcompact : Endures steady M db.compactRange
        (fun result M' => ∃ r', Serving loose all result.2 M' m r' olds records)
        (Outlasts loose fun _ => True) := by
      unfold DBImpl.compactRange
      cases hpick : Compaction.pickCompaction db.options db.versions.current with
      | none => exact Endures.ret ⟨r, h⟩
      | some c =>
        refine Endures.bind (h.compact trivial (Compaction.pickCompaction_covers hpick)) ?_
        rintro ⟨status, vs⟩ M₁ ⟨_, ⟨r₁, hcompacted⟩, _⟩
        refine Endures.bind (hcompacted.removeObsoleteFiles trivial) ?_
        exact fun _ M₂ hremoved => Endures.ret ⟨r₁, hremoved⟩
    refine Endures.bind (hcompact.weaken (fun _ _ hdone => hdone) fun _ _ => trivial) ?_
    rintro ⟨status, db'⟩ M' ⟨r', hserving⟩
    exact Endures.ret (Or.inr ⟨_, _, _, _, _, _, rfl, hserving⟩)
  | backgroundCompaction =>
    have hround : Endures steady M db.backgroundCompaction
        (fun db' M' => ∃ all' r' olds', Serving loose all' db' M' m r' olds' records)
        (Outlasts loose fun _ => True) := by
      unfold DBImpl.backgroundCompaction
      refine Endures.bind (h.flushImmutable fun _ _ => trivial) ?_
      rintro ⟨status, db₁⟩ M₁ ⟨_, all', r₁, olds₁, hflushed, _⟩
      refine Endures.bind (hflushed.majorCompaction trivial) ?_
      rintro ⟨status', db₂⟩ M₂ ⟨_, ⟨r₂, hcompacted⟩, _⟩
      refine Endures.bind (hcompacted.removeObsoleteFiles trivial) ?_
      exact fun _ M₃ hremoved => Endures.ret ⟨all', r₂, olds₁, hremoved⟩
    refine Endures.bind (hround.weaken (fun _ _ hdone => hdone) fun _ _ => trivial) ?_
    rintro db' M' ⟨all', r', olds', hserving⟩
    exact Endures.ret (Or.inr ⟨_, _, _, _, _, _, rfl, hserving⟩)

end Serving

theorem Reachable.serving (h : Reachable steady.events db dir) : ∃ all M m r olds records,
    M.dir = dir ∧ Serving False all db M m r olds records := by
  induction h with
  | created hbare hexit hsteady =>
    have hcreate := createIfMissing_of_opened hexit (hbare .current (by simp))
    obtain ⟨hdir, db', hresult, _, _, m, r, olds, records, hserving, _⟩ :=
      (openDB_new_endures (M := Medium.settled _) hbare hcreate).done hexit rfl rfl hsteady
    cases hresult
    exact ⟨[], _, m, r, olds, records, hdir, hserving⟩
  | did _ hnumbered hexit hsteady ih =>
    obtain ⟨all, M, m, r, olds, records, rfl, hserving⟩ := ih
    obtain ⟨hdir, ⟨hnone, _⟩ | ⟨_, _, all', r', olds', records', hresult, hserving'⟩⟩ :=
      (hserving.perform hnumbered).done hexit rfl rfl hsteady
    · cases hnone
    · cases hresult
      exact ⟨all', _, m, r', olds', records', hdir, hserving'⟩
  | reopened _ hexit hsteady ih =>
    obtain ⟨all, M, m, r, olds, records, rfl, hserving⟩ := ih
    have hexists := errorIfExists_of_opened hexit hserving.intact.recorded.current
    obtain ⟨hdir, db', hresult, _, _, m', r', olds', records', hserving', _⟩ :=
      (openDB_endures (M := Medium.settled _) hserving.intact (fun _ _ => ⟨rfl, rfl⟩)
        hserving.distinct hexists).done hexit rfl rfl hsteady
    cases hresult
    exact ⟨all, _, m', r', olds', records', hdir, hserving'⟩

/-- The structural invariant of the tree, in every state. -/
theorem reachable_wellShaped (db : DBImpl) (dir : Dir) (h : Reachable steady.events db dir) :
    WellShaped db := by
  obtain ⟨all, M, m, r, olds, records, _, hserving⟩ := h.serving
  exact hserving.wellShaped

/-! A state that can be computed. -/

instance (db : DBImpl) : DecidablePred (Action.Numbered db)
  | .write type _ _ => inferInstanceAs (Decidable ((type = kTypeValue ∨ type = kTypeDeletion) ∧
      db.versions.lastSequence + 1 < 2 ^ 64))
  | .flushMemTable | .compactRange | .backgroundCompaction => inferInstanceAs (Decidable True)

inductive Episode where
  | act (action : Action)
  | reopen

def Episode.run (options : Options) (state : DBImpl × Dir) : Episode → Option (DBImpl × Dir)
  | .act action =>
    match state.1.perform action (machineOn state.2 []) with
    | .done (some (_, db)) after trace =>
      if action.Numbered state.1 ∧ steadyTrace trace then some (db, after.dir) else none
    | _ => none
  | .reopen =>
    match openDB options (machineOn state.2 []) with
    | .done (.ok, some db) after trace => if steadyTrace trace then some (db, after.dir) else none
    | _ => none

def throughEpisodes (options : Options) (episodes : List Episode) : Option (DBImpl × Dir) :=
  match openDB options (machineOn ∅ []) with
  | .done (.ok, some db) after trace =>
    if steadyTrace trace then episodes.foldlM (Episode.run options) (db, after.dir) else none
  | _ => none

theorem Reachable.episode {options : Options} {state last : DBImpl × Dir} {episode : Episode}
    (h : Reachable steady.events state.1 state.2) (hrun : episode.run options state = some last) :
    Reachable steady.events last.1 last.2 := by
  cases episode with
  | act action =>
    unfold Episode.run at hrun
    simp only at hrun
    split at hrun
    · rename_i hexit
      split at hrun
      · rename_i hchecks
        cases hrun
        exact h.did hchecks.1 hexit (steady_of_steadyTrace hchecks.2)
      · cases hrun
    · cases hrun
  | reopen =>
    unfold Episode.run at hrun
    simp only at hrun
    split at hrun
    · rename_i hexit
      split at hrun
      · rename_i hsteady
        cases hrun
        exact h.reopened hexit (steady_of_steadyTrace hsteady)
      · cases hrun
    · cases hrun

theorem Reachable.episodes {options : Options} {episodes : List Episode} {state last : DBImpl × Dir}
    (h : Reachable steady.events state.1 state.2)
    (hrun : episodes.foldlM (Episode.run options) state = some last) :
    Reachable steady.events last.1 last.2 := by
  induction episodes generalizing state with
  | nil =>
    cases hrun
    exact h
  | cons episode rest ih =>
    rw [List.foldlM_cons, Option.bind_eq_bind, Option.bind_eq_some_iff] at hrun
    obtain ⟨middle, hfirst, hrest⟩ := hrun
    exact ih (h.episode hfirst) hrest

theorem reachable_of_throughEpisodes {options : Options} {episodes : List Episode} {last : DBImpl × Dir}
    (h : throughEpisodes options episodes = some last) :
    Reachable steady.events last.1 last.2 := by
  unfold throughEpisodes at h
  split at h
  · rename_i hexit
    split at h
    · rename_i hsteady
      exact Reachable.episodes (.created bare_empty hexit (steady_of_steadyTrace hsteady)) h
    · cases h
  · cases h

/-- Tables of two levels, a replay of a log, and a memtable that `FlushMemTable` puts in the place
of one that is still to be flushed. -/
def severalLevels : List Episode :=
  let put (key value : UInt8) : Episode := .act (.write kTypeValue [key] [value])
  [put 97 1, put 98 2, .act .backgroundCompaction, put 97 3, .reopen, put 98 4, put 99 5,
    .act .flushMemTable, put 97 6]

def DBImpl.fileCounts (db : DBImpl) : List Nat :=
  (List.finRange kNumLevels).map fun level => (db.versions.current.files level).length

set_option maxRecDepth 8192 in
theorem reachable_wellShaped_severalLevels : ∃ db dir, Reachable steady.events db dir ∧
    db.fileCounts = [2, 1, 0, 0, 0, 0, 0] ∧ db.imm.isSome ∧ WellShaped db := by
  have hrun : (throughEpisodes tinyTables severalLevels).map
      (fun last => (last.1.fileCounts, last.1.imm.isSome)) =
        some ([2, 1, 0, 0, 0, 0, 0], true) := by
    decide +kernel
  obtain ⟨⟨db, dir⟩, hrun, hlast⟩ := Option.map_eq_some_iff.mp hrun
  obtain ⟨hcounts, himm⟩ := Prod.mk.inj hlast
  have hreachable := reachable_of_throughEpisodes hrun
  exact ⟨db, dir, hreachable, hcounts, himm, reachable_wellShaped db dir hreachable⟩

/-! A state that is out of shape. -/

theorem Reachable.mono {events events' : Event FileName → Prop} (h : Reachable events db dir)
    (himp : ∀ e, events e → events' e) : Reachable events' db dir := by
  induction h with
  | created hbare hexit hevents => exact .created hbare hexit fun e he => himp e (hevents e he)
  | did _ hnumbered hexit hevents ih => exact .did ih hnumbered hexit fun e he => himp e (hevents e he)
  | reopened _ hexit hevents ih => exact .reopened ih hexit fun e he => himp e (hevents e he)

/-- A key in a table, and a new log. -/
def beforeForgery : Option (DBImpl × Dir) :=
  throughEpisodes tinyTables [.act (.write kTypeValue [98] [49]), .reopen]

/-- The record that the value hides: an older version of the key in the table. -/
def forgedRecord : Entry := ⟨[98], 0, kTypeValue, [50]⟩

/-- The record in which it hides, as the reader takes it. -/
def carrier : Entry := ⟨[107], 2, kTypeValue, []⟩

theorem exists_hidden_record : ∃ value : Bytes, value.length = 2 ^ 32 ∧
    WalReader.readAll ⟨true, walFrame { carrier with value := value }, 0⟩ =
      ([carrier, forgedRecord], .status (.corruption "WAL payload too small for fields")) :=
  exists_forgery rfl ⟨by decide, by decide⟩ ⟨by decide, by decide⟩

set_option maxRecDepth 8192 in
theorem beforeForgery_isSome : beforeForgery.isSome = true := by decide +kernel

/-- The directory with the value of 2^32 bytes in the log. -/
noncomputable def forgedDir : Dir :=
  extend (beforeForgery.get beforeForgery_isSome).2 (.log 6)
    (walFrame { carrier with value := exists_hidden_record.choose })

def opensOutOfOrder (result : Status × Option DBImpl) (_ : Dir) (trace : List (Event FileName)) :
    Bool :=
  trace.all (fun e => e.outcome == .ok) && result.1 == .ok && result.2.any fun db =>
    decide (¬ (Serving.sources db).Pairwise fun newer older => ∀ x ∈ newer, ∀ y ∈ older,
      x.userKey = y.userKey → y.seq ≤ x.seq)

set_option maxRecDepth 8192 in
theorem forged_recover : (VersionSet.new.recover forgedDir fun _ => none).map
    (fun r => (r.1, logFiles r.2.logNumber forgedDir.keys)) = some (.ok, some [6]) := by
  decide +kernel

set_option maxRecDepth 8192 in
theorem forged_open :
    (openRecords tinyTables 6 [carrier, forgedRecord] (machineOn forgedDir [])).returns
      opensOutOfOrder = true := by
  decide +kernel

set_option maxRecDepth 8192 in
theorem forged_start : (beforeForgery.map fun s => (s.1.walWriter, s.1.versions.lastSequence,
    s.1.options.sync, (s.2.lookup (.log 6)).any List.isEmpty,
    decide (s.1.active.approximateMemoryUsage < s.1.options.writeBufferSize))) =
      some (⟨.log 6, true⟩, 1, false, true, true) := by
  decide +kernel

set_option maxRecDepth 8192 in
theorem forged_files : ((forgedDir.lookup .lock).isSome, (forgedDir.lookup .current).isNone) =
    (true, false) := by
  decide +kernel

theorem forgedDir_eq (h : beforeForgery = some (db, dir)) : forgedDir =
    extend dir (.log 6) (walFrame { carrier with value := exists_hidden_record.choose }) := by
  have hget : beforeForgery.get beforeForgery_isSome = (db, dir) := Option.get_of_eq_some _ h
  rw [forgedDir, hget]

/-- The first process writes a key, the second one a value of 2^32 bytes, which the third one
reads as two records. -/
theorem hidden_record_breaks_shape : ∃ (value : Bytes) (db : DBImpl) (dir : Dir),
    value.length = 2 ^ 32 ∧
      Reachable unlimited db dir ∧ ¬ WellShaped db := by
  obtain ⟨⟨db, dir⟩, hbefore⟩ := Option.isSome_iff_exists.mp beforeForgery_isSome
  obtain ⟨hlength, hread⟩ := exists_hidden_record.choose_spec
  have hdir := forgedDir_eq hbefore
  generalize exists_hidden_record.choose = value at hlength hread hdir
  have hstart := forged_start
  rw [hbefore] at hstart
  simp only [Option.map_some, Option.some.injEq, Prod.mk.injEq, decide_eq_true_eq,
    Option.any_eq_true, List.isEmpty_iff] at hstart
  obtain ⟨hwriter, hseq, hsync, ⟨log, hlog, rfl⟩, hroom⟩ := hstart
  obtain ⟨trace, hwrite, hcalls, _⟩ :=
    db.write_completes dir hroom (by rw [hwriter]) kTypeValue [107] value
  rw [hwriter, hseq] at hwrite
  have hfirst : Reachable unlimited db dir :=
    (reachable_of_throughEpisodes hbefore).mono fun e he => he.1
  have hsecond := hfirst.did (show (Action.write kTypeValue [107] value).Numbered db from
    ⟨Or.inl rfl, by rw [hseq]; decide⟩) hwrite
    (unlimited_of_ok hcalls)
  have hlogged : logReading forgedDir (fun _ => none) 6 =
      ([carrier, forgedRecord], .status (.corruption "WAL payload too small for fields")) := by
    rw [logReading, hdir, lookup_extend_self hlog, List.nil_append]
    exact hread
  obtain ⟨hlock, hcurrent⟩ := Prod.mk.inj forged_files
  have hopen : openDB tinyTables (machineOn forgedDir []) = _ :=
    openDB_eq_openRecords hlock hcurrent rfl forged_recover hlogged
  obtain ⟨⟨status, last⟩, after, calls, hexit, hbroken⟩ := Exit.of_returns forged_open
  simp only [opensOutOfOrder, Bool.and_eq_true, List.all_eq_true, beq_iff_eq, Option.any_eq_true,
    decide_eq_true_eq] at hbroken
  obtain ⟨⟨hok, rfl⟩, db', rfl, hbroken⟩ := hbroken
  rw [hexit, hdir] at hopen
  exact ⟨value, db', after.dir, hlength,
    hsecond.reopened hopen (unlimited_of_ok hok),
    fun hshaped => hbroken hshaped.recency⟩

end Strata
