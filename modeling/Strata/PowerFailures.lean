import Strata.OversizedWrites

/-! A loss of power while a database is in use. What the manifest refers to is on the
medium, whole, and what is in no table yet is in a log that the manifest still counts. -/
namespace Strata

open Library System Layers Memtable VersionSet Simulation

variable {loose : Prop} {all written : List Entry} {M : Medium FileName} {db : DBImpl}
  {start : Dir} {options : Options}

/-- A process over a medium that held the directory when it started: its database, what it has
acknowledged so far, and the medium. Every call is one of `events`. -/
inductive Powered (events : Event FileName → Prop) (options : Options) (start : Dir) :
    DBImpl → List Entry → Medium FileName → Prop
  | opened {fate : List Outcome} {db : DBImpl} {after : Machine FileName}
      {trace : List (Event FileName)}
      (hexit : openDB options (machineOn start fate) = .done (.ok, some db) after trace)
      (hsteady : ∀ e ∈ trace, events e) :
      Powered events options start db [] ((Medium.settled start).run trace)
  | did {db db' : DBImpl} {written : List Entry} {M : Medium FileName} {action : Action}
      {fate : List Outcome} {status : Status} {after : Machine FileName}
      {trace : List (Event FileName)} (hrun : Powered events options start db written M)
      (hgranted : action.Granted db)
      (hexit : db.perform action (machineOn M.dir fate) = .done (some (status, db')) after trace)
      (hsteady : ∀ e ∈ trace, events e) :
      Powered events options start db' (action.record db written) (M.run trace)

/-- The medium at the moment when the power is lost, between two actions or at any call of one:
what was acknowledged, and with that what was under way. -/
inductive Interrupted (events : Event FileName → Prop) (options : Options) (start : Dir) :
    List Entry → List Entry → Medium FileName → Prop
  | between {db : DBImpl} {written : List Entry} {M : Medium FileName}
      (hrun : Powered events options start db written M) :
      Interrupted events options start written written M
  | during {db : DBImpl} {written : List Entry} {M : Medium FileName} {action : Action}
      {fate : List Outcome} {left : Dir} {trace : List (Event FileName)}
      (hrun : Powered events options start db written M) (hgranted : action.Granted db)
      (hexit : db.perform action (machineOn M.dir fate) = .killed left trace)
      (hsteady : ∀ e ∈ trace, events e) :
      Interrupted events options start written (action.record db written) (M.run trace)

/-- A directory at rest, with all that was acknowledged by the processes over it and all that
they began to write. -/
inductive Lived : List Entry → List Entry → Dir → Prop
  | new {dir : Dir} (hbare : Bare dir) : Lived [] [] dir
  | process {options : Options} {acknowledged issued written begun : List Entry} {start : Dir}
      {M : Medium FileName} (h : Lived acknowledged issued start)
      (hprocess : Interrupted steady.events options start written begun M) :
      Lived (acknowledged ++ written) (issued ++ begun) M.dir
  | opening {options : Options} {acknowledged issued : List Entry} {dir left : Dir}
      {fate : List Outcome} {trace : List (Event FileName)} (h : Lived acknowledged issued dir)
      (hexists : options.errorIfExists = false) (hcurrent : (dir.lookup .current).isSome)
      (hexit : openDB options (machineOn dir fate) = .killed left trace)
      (hsteady : ∀ e ∈ trace, steady.events e) (htidy : Tidy left) :
      Lived acknowledged issued left

theorem Action.record_append (db : DBImpl) (all written : List Entry) (action : Action) :
    action.record db (all ++ written) = all ++ action.record db written := by
  cases action with
  | write type key value => exact List.append_assoc _ _ _
  | _ => rfl

theorem Action.subset_record (db : DBImpl) (written : List Entry) (action : Action) :
    ∀ e ∈ written, e ∈ action.record db written := by
  intro e he
  cases action with
  | write type key value => exact List.mem_append_left _ he
  | _ => exact he

theorem Stands.opened (h : Stands all start) (hseq : InSequence all) {fate : List Outcome}
    {status : Status} {after : Machine FileName} {trace : List (Event FileName)}
    (hexit : Strata.openDB options (machineOn start fate) = .done (status, some db) after trace)
    (hsteady : ∀ e ∈ trace, steady.events e) :
    ∃ loose, InService loose all db ((Medium.settled start).run trace) := by
  rcases h with ⟨hbare, rfl⟩ | ⟨loose, m, torn, r, v, logs, hintact⟩
  · have hcreate := createIfMissing_of_opened hexit (hbare .current (by simp))
    obtain ⟨_, db', hresult, _, _, hdone⟩ :=
      (openDB_new_endures (M := Medium.settled start) hbare hcreate).done hexit rfl rfl hsteady
    cases hresult
    exact ⟨False, hdone⟩
  · have hexists := errorIfExists_of_opened hexit hintact.recorded.current
    obtain ⟨_, db', hresult, _, _, hdone⟩ :=
      (openDB_endures (M := Medium.settled start) hintact (fun _ _ => ⟨rfl, rfl⟩) hseq.distinct
        hexists).done hexit rfl rfl hsteady
    cases hresult
    exact ⟨loose, hdone⟩

theorem Powered.inService (h : Powered steady.events options start db written M)
    (hstands : Stands all start) (hseq : InSequence all) :
    ∃ loose, InService loose (all ++ written) db M ∧ InSequence (all ++ written) := by
  induction h with
  | opened hexit hsteady =>
    obtain ⟨loose, hdone⟩ := hstands.opened hseq hexit hsteady
    rw [List.append_nil]
    exact ⟨loose, hdone, hseq⟩
  | @did _ _ _ _ action _ _ _ _ _ hgranted hexit hsteady ih =>
    obtain ⟨loose, hservice, hordered⟩ := ih
    obtain ⟨_, ⟨hnone, _⟩ | ⟨db', hresult, _, hdone⟩⟩ :=
      (hservice.perform hgranted).done hexit rfl rfl hsteady
    · cases hnone
    · cases hresult
      rw [← Action.record_append]
      exact ⟨loose, hdone, hservice.inSequence hordered action⟩

structure Between (acknowledged issued past : List Entry) : Prop where
  ordered : InSequence past
  complete : ∀ e ∈ acknowledged, e ∈ past
  sound : ∀ e ∈ past, e ∈ issued

theorem Between.extend {acknowledged issued past written begun more : List Entry}
    (h : Between acknowledged issued past) (hordered : InSequence (past ++ more))
    (hcomplete : ∀ e ∈ written, e ∈ more) (hsound : ∀ e ∈ more, e ∈ begun) :
    Between (acknowledged ++ written) (issued ++ begun) (past ++ more) := by
  refine ⟨hordered, fun e he => ?_, fun e he => ?_⟩
  · rcases List.mem_append.mp he with he | he
    · exact List.mem_append_left _ (h.complete e he)
    · exact List.mem_append_right _ (hcomplete e he)
  · rcases List.mem_append.mp he with he | he
    · exact List.mem_append_left _ (h.sound e he)
    · exact List.mem_append_right _ (hsound e he)

theorem Interrupted.outlasts {acknowledged issued past begun : List Entry}
    (h : Interrupted steady.events options start written begun M) (hstands : Stands past start)
    (hbetween : Between acknowledged issued past) :
    ∃ loose, Outlasts loose (Between (acknowledged ++ written) (issued ++ begun)) M := by
  cases h with
  | between hrun =>
    obtain ⟨loose, ⟨m, r, olds, records, hserving, _⟩, hordered⟩ :=
      hrun.inService hstands hbetween.ordered
    exact ⟨loose, hserving.outlasts (hbetween.extend hordered (fun _ he => he) fun _ he => he)⟩
  | @during db _ _ action _ _ _ hrun hgranted hexit hsteady =>
    obtain ⟨loose, hservice, hordered⟩ := hrun.inService hstands hbetween.ordered
    refine ⟨loose, fun lost hlost => ?_⟩
    obtain ⟨_, houtlasts⟩ := (hservice.perform hgranted).killed hexit rfl rfl hsteady
    obtain ⟨_, hpast, hrest⟩ := houtlasts lost hlost
    refine ⟨_, ?_, hrest⟩
    rcases hpast with rfl | rfl
    · exact hbetween.extend hordered (fun _ he => he) (action.subset_record db written)
    · have hrecorded := hservice.inSequence hordered action
      rw [Action.record_append] at hrecorded ⊢
      exact hbetween.extend hrecorded (action.subset_record db written) fun _ he => he

theorem Lived.stands {acknowledged issued : List Entry} (h : Lived acknowledged issued start) :
    ∃ past, Stands past start ∧ Between acknowledged issued past := by
  induction h with
  | new hbare => exact ⟨[], Or.inl ⟨hbare, rfl⟩, List.Pairwise.nil, by simp, by simp⟩
  | process _ hprocess ih =>
    obtain ⟨past, hstands, hbetween⟩ := ih
    obtain ⟨loose, houtlasts⟩ := hprocess.outlasts hstands hbetween
    obtain ⟨past', hbetween', hrecovers⟩ := houtlasts.recovers
    exact ⟨past', Or.inr ⟨loose, hrecovers⟩, hbetween'⟩
  | @opening options _ _ dir _ _ _ _ hexists hcurrent hexit hsteady htidy ih =>
    obtain ⟨past, hstands, hbetween⟩ := ih
    rcases hstands with ⟨hbare, _⟩ | ⟨loose, m, torn, r, v, logs, hintact⟩
    · exact absurd hcurrent hbare.current_none
    · obtain ⟨rfl, hrest⟩ := (openDB_endures (M := Medium.settled dir) hintact
        (fun _ _ => ⟨rfl, rfl⟩) hbetween.ordered.distinct hexists).killed hexit rfl rfl hsteady
      exact ⟨past, Or.inr ⟨True, hrest.recovers htidy⟩, hbetween⟩

/-- The tables of a version answer for an entry: they have one of its key that is as new, or
none of its key, and the key was deleted behind it. -/
def CoveredBy (v : Version) (issued : List Entry) (e : Entry) : Prop :=
  (∃ f ∈ v.allFiles, ∃ x ∈ f.entries, x.userKey = e.userKey ∧ e.seq ≤ x.seq) ∨
    (∀ f ∈ v.allFiles, ∀ x ∈ f.entries, x.userKey ≠ e.userKey) ∧
      ∃ t ∈ issued, t.userKey = e.userKey ∧ t.type = kTypeDeletion ∧ e.seq ≤ t.seq

/-- The manifest that is left can be read and lists tables that are all there and whole. Every
acknowledged write is in them, or in a log from the recorded number on. -/
structure SurvivesPowerLoss (acknowledged issued : List Entry) (M : Medium FileName) (lost : Dir)
    (vs : VersionSet) : Prop where
  recovered : VersionSet.new.recover lost (fun _ => none) = some (.ok, vs)
  tables : ∀ f ∈ vs.current.allFiles, f.Stored lost ∧ f.Sound
  kept : ∀ e ∈ acknowledged, CoveredBy vs.current issued e ∨
    ∃ n records torn, vs.logNumber ≤ n ∧
      M.dir.lookup (.log n) = some (walFrames records ++ torn) ∧ e ∈ records

theorem coveredBy_of_reduces {v : Version} {flushed issued : List Entry} {e : Entry}
    (h : Reduces flushed (held [] v)) (he : e ∈ flushed) (hissued : ∀ t ∈ flushed, t ∈ issued) :
    CoveredBy v issued e := by
  have hfile : ∀ {x}, x ∈ held [] v ↔ ∃ f ∈ v.allFiles, x ∈ f.entries := by
    intro x
    rw [mem_held]
    constructor
    · rintro (⟨_, hnil, _⟩ | ⟨level, f, hf, hx⟩)
      · cases hnil
      · exact ⟨f, Version.mem_allFiles.mpr ⟨level, hf⟩, hx⟩
    · rintro ⟨f, hf, hx⟩
      obtain ⟨level, hlevel⟩ := Version.mem_allFiles.mp hf
      exact Or.inr ⟨level, f, hlevel, hx⟩
  rcases h.covered e he with ⟨x, hx, hkey, hle⟩ | ⟨hnone, t, ht, hkey, hdead, hle⟩
  · obtain ⟨f, hf, hx⟩ := hfile.mp hx
    exact Or.inl ⟨f, hf, x, hx, hkey, hle⟩
  · exact Or.inr ⟨fun f hf x hx => hnone x (hfile.mpr ⟨f, hf, hx⟩), t, hissued t ht, hkey, hdead, hle⟩

theorem Powered.trailing {events : Event FileName → Prop}
    (h : Powered events options start db written M) : M.Trailing := by
  induction h with
  | opened => exact (Medium.trailing_settled start).run _
  | did _ _ _ _ ih => exact ih.run _

/-- The power is lost at any moment of a process, behind any number of processes that were
closed or killed: the tables of the manifest are there and whole, and an acknowledged write that
is in no log that still counts is in the tables or superseded. -/
theorem power_loss_keeps_tables (acknowledged issued : List Entry) (start : Dir)
    (hlived : Lived acknowledged issued start) (options : Options) (written begun : List Entry)
    (M : Medium FileName) (h : Interrupted steady.events options start written begun M) (lost : Dir)
    (hlost : M.Leaves lost) :
    ∃ vs, SurvivesPowerLoss (acknowledged ++ written) (issued ++ begun) M lost vs := by
  obtain ⟨past, hstands, hbetween⟩ := hlived.stands
  obtain ⟨loose, houtlasts⟩ := h.outlasts hstands hbetween
  obtain ⟨history, hhistory, left, m, torn, r, v, logs, hintact, hother, halike⟩ :=
    houtlasts lost (Or.inr hlost)
  have hstored : ∀ f ∈ v.allFiles, f.Stored lost := fun f hf =>
    (hintact.stored f hf).of_lookup (halike.tables f hf)
  have hrecorded := hintact.recorded.of_lookup halike.current halike.manifest
  have hcurrent : (VersionSet.new.install lost (fun _ => none) r).current = v :=
    install_current _ hintact.lists hintact.stacked.good hstored
  refine ⟨_, hrecorded.recover hintact.tail VersionSet.new, ?_, fun e he => ?_⟩
  · rw [hcurrent]
    intro f hf
    obtain ⟨level, hlevel⟩ := Version.mem_allFiles.mp hf
    exact ⟨hstored f hf, hintact.stacked.good.sound level f hlevel⟩
  · obtain ⟨flushed, haccounts⟩ := hintact.accounts
    rw [hcurrent]
    rcases (haccounts.mem e).mp (hhistory.complete e he) with hflushed | hlog
    · left
      apply coveredBy_of_reduces haccounts.kept hflushed
      exact fun t ht => hhistory.sound t ((haccounts.mem t).mpr (Or.inl ht))
    · right
      obtain ⟨es, hes, he⟩ := List.mem_flatten.mp hlog
      obtain ⟨⟨n, records⟩, hmem, rfl⟩ := List.mem_map.mp hes
      obtain ⟨hnumber, hfile⟩ := hintact.listed (n, records) hmem
      obtain ⟨tail, hbytes, _⟩ := hfile.bytes
      rw [hother _ (by simp)] at hbytes
      exact ⟨n, records, tail, hnumber, hbytes, he⟩

/-! A loss of power that can be computed. -/

def poweredAct (state : DBImpl × List Entry × Medium FileName) (action : Action) :
    Option (DBImpl × List Entry × Medium FileName) :=
  match state.1.perform action (machineOn state.2.2.dir []) with
  | .done (some (_, db)) _ trace =>
    if action.Granted state.1 ∧ steadyTrace trace then
      some (db, action.record state.1 state.2.1, state.2.2.run trace)
    else none
  | _ => none

def poweredBy (options : Options) (start : Dir) (actions : List Action) :
    Option (DBImpl × List Entry × Medium FileName) :=
  match openDB options (machineOn start []) with
  | .done (.ok, some db) _ trace =>
    if steadyTrace trace then
      actions.foldlM poweredAct (db, [], (Medium.settled start).run trace)
    else none
  | _ => none

theorem Powered.act {state last : DBImpl × List Entry × Medium FileName} {action : Action}
    (h : Powered steady.events options start state.1 state.2.1 state.2.2)
    (hact : poweredAct state action = some last) :
    Powered steady.events options start last.1 last.2.1 last.2.2 := by
  unfold poweredAct at hact
  split at hact
  · rename_i hexit
    split at hact
    · rename_i hchecks
      cases hact
      exact h.did hchecks.1 hexit (steady_of_steadyTrace hchecks.2)
    · cases hact
  · cases hact

theorem Powered.acts {actions : List Action} {state last : DBImpl × List Entry × Medium FileName}
    (h : Powered steady.events options start state.1 state.2.1 state.2.2)
    (hacts : actions.foldlM poweredAct state = some last) :
    Powered steady.events options start last.1 last.2.1 last.2.2 := by
  induction actions generalizing state with
  | nil =>
    cases hacts
    exact h
  | cons action rest ih =>
    rw [List.foldlM_cons, Option.bind_eq_bind, Option.bind_eq_some_iff] at hacts
    obtain ⟨middle, hfirst, hrest⟩ := hacts
    exact ih (h.act hfirst) hrest

theorem powered_of_poweredBy {actions : List Action}
    {last : DBImpl × List Entry × Medium FileName}
    (h : poweredBy options start actions = some last) :
    Powered steady.events options start last.1 last.2.1 last.2.2 := by
  unfold poweredBy at h
  split at h
  · rename_i hexit
    split at h
    · rename_i hsteady
      exact Powered.acts (.opened hexit (steady_of_steadyTrace hsteady)) h
    · cases h
  · cases h

def secondPut : Action := .write kTypeValue [98] [50]

/-- What the first process writes, and has flushed for the most part when it is closed. -/
def firstWrites : List Entry := [⟨[97], 1, kTypeValue, [49]⟩, ⟨[98], 2, kTypeValue, [50]⟩]

def laterWrites : List Entry := [⟨[97], 3, kTypeDeletion, []⟩, ⟨[98], 4, kTypeValue, [51]⟩]

def lostInFlush : Option (List Entry × List Entry × Bool) := do
  let (_, written, M) ← poweredBy tinyTables ∅ [firstPut, secondPut, .backgroundCompaction]
  let (db, later, M') ← poweredBy tinyTables M.dir
    [.write kTypeDeletion [97] [], .write kTypeValue [98] [51]]
  match db.perform .backgroundCompaction (machineOn M'.dir [.ok, .ok, .kill 7]) with
  | .killed _ trace => return (written, later, steadyTrace trace)
  | _ => none

set_option maxRecDepth 8192 in
theorem lostInFlush_interrupted : ∃ start M, Lived firstWrites firstWrites start ∧
    Interrupted steady.events tinyTables start laterWrites laterWrites M ∧ M.Leaves M.dir := by
  have hplay : lostInFlush = some (firstWrites, laterWrites, true) := by decide +kernel
  simp only [lostInFlush, Option.bind_eq_bind, Option.bind_eq_some_iff] at hplay
  obtain ⟨⟨_, written, M⟩, hfirst, ⟨db, later, M'⟩, hsecond, hkilled⟩ := hplay
  have hpowered := powered_of_poweredBy hfirst
  have hpowered' := powered_of_poweredBy hsecond
  have hlived := (Lived.new bare_empty).process (.between hpowered)
  split at hkilled
  · rename_i trace hexit
    simp only [Option.pure_def, Option.some.injEq, Prod.mk.injEq] at hkilled
    obtain ⟨rfl, rfl, hsteady⟩ := hkilled
    have hgranted : Action.backgroundCompaction.Granted db := trivial
    have hinterrupted := Interrupted.during hpowered' hgranted hexit (steady_of_steadyTrace hsteady)
    exact ⟨M.dir, _, hlived, hinterrupted, (hpowered'.trailing.run trace).leaves⟩
  · cases hkilled

theorem power_loss_keeps_tables_midFlush : ∃ start M vs, Lived firstWrites firstWrites start ∧
    Interrupted steady.events tinyTables start laterWrites laterWrites M ∧
      SurvivesPowerLoss (firstWrites ++ laterWrites) (firstWrites ++ laterWrites) M M.dir vs := by
  obtain ⟨start, M, hlived, hinterrupted, hleaves⟩ := lostInFlush_interrupted
  obtain ⟨vs, hsurvives⟩ := power_loss_keeps_tables _ _ start hlived tinyTables _ _ M hinterrupted
    M.dir hleaves
  exact ⟨start, M, vs, hlived, hinterrupted, hsurvives⟩

theorem Powered.completes {status : Status} {dir dir' : Dir}
    (h : Powered unlimited options start db written M) (hdir : M.dir = dir)
    (hdone : Completes (db.perform action) (machineOn dir []) (some (status, db'))
      (machineOn dir' [])) (hgranted : action.Granted db) :
    ∃ M', Powered unlimited options start db' (action.record db written) M' ∧ M'.dir = dir' := by
  subst hdir
  obtain ⟨trace, hexit, hcalls, hlast⟩ := hdone
  exact ⟨M.run trace, h.did hgranted hexit (unlimited_of_ok hcalls), hlast M rfl⟩

/-- A value of 64 MiB is flushed to a table whose block is too long to be read. The compaction
of that table writes nothing and removes it, and the log with the value no longer counts. -/
theorem large_value_lost_with_power : ∃ M, Lived [] [] ∅ ∧
    Interrupted unlimited tinyTables ∅ [largeEntry] [largeEntry] M ∧ M.Leaves M.dir ∧
      ∀ vs, ¬ SurvivesPowerLoss [largeEntry] [largeEntry] M M.dir vs := by
  obtain ⟨db, after, trace, hexit, hnew, hstart⟩ := large_start
  have hopened : Powered unlimited tinyTables ∅ db [] ((Medium.settled ∅).run trace) :=
    .opened hexit (unlimited_of_ok hstart.calls)
  obtain ⟨_, _, _, himm, _, _, hseq, _⟩ := id hnew
  have hrecord : (Action.write kTypeValue [97] largeValue).record db [] = [largeEntry] := by
    rw [Action.record, hseq]
    rfl
  obtain ⟨M₁, hwritten, hdir₁⟩ := hopened.completes hstart.medium (hnew.written _)
    ⟨Or.inl rfl, by rw [hseq]; decide⟩
  obtain ⟨M₂, hswitched, hdir₂⟩ := hwritten.completes hdir₁ (hnew.switched _) (Or.inl himm)
  obtain ⟨M, hdropped, hdir⟩ := hswitched.completes hdir₂
    (hnew.dropped after.dir hstart.tables) trivial
  rw [hrecord] at hdropped
  obtain ⟨vs, hvs, hfiles, hnumber⟩ := hstart.recovered
  refine ⟨M, .new bare_empty, .between hdropped, hdropped.trailing.leaves, fun vs' hsurvives => ?_⟩
  have hsame := hsurvives.recovered
  rw [hdir, hvs] at hsame
  cases hsame
  rcases hsurvives.kept largeEntry List.mem_cons_self with
    (⟨f, hf, _⟩ | ⟨_, t, ht, _, hdead, _⟩) | ⟨n, records, torn, hle, hlog, hmem⟩
  · rw [hfiles] at hf
    cases hf
  · rw [List.mem_singleton.mp ht] at hdead
    cases hdead
  · rw [hdir] at hlog
    rw [hnumber] at hle
    obtain rfl : n = 4 := by
      refine le_antisymm (hstart.last n ?_) hle
      exact AList.mem_keys.mp (AList.lookup_isSome.mp (by rw [hlog]; rfl))
    rw [hstart.log, Option.some.injEq] at hlog
    have hnone := List.flatMap_eq_nil_iff.mp (List.append_eq_nil_iff.mp hlog.symm).1 _ hmem
    have hsize := congrArg List.length hnone
    rw [length_walFrame] at hsize
    simp at hsize

end Strata
