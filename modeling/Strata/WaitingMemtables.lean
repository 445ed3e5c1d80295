import Strata.PowerFailures

/-! Where an acknowledged write is until its memtable is in Level 0. -/
namespace Strata

open Library System Layers Memtable VersionSet

variable {loose : Prop} {all past acknowledged issued : List Entry} {M : Medium FileName}
  {db : DBImpl} {dir : Dir} {e : Entry}

def InMemtables (db : DBImpl) (e : Entry) : Prop :=
  e ∈ db.active.entries ∨ ∃ index ∈ db.imm, e ∈ (db.memtable index).entries

def InCountedLog (dir : Dir) (e : Entry) : Prop :=
  ∃ vs n records torn, VersionSet.new.recover dir (fun _ => none) = some (.ok, vs) ∧
    vs.logNumber ≤ n ∧ dir.lookup (.log n) = some (walFrames records ++ torn) ∧ e ∈ records

/-- What is in no memtable is answered for by the version, and so is what is in no log that still
counts. -/
structure NothingDiscarded (acknowledged issued : List Entry) (db : DBImpl) (dir : Dir) : Prop where
  held : ∀ e ∈ acknowledged, InMemtables db e ∨ CoveredBy db.versions.current issued e
  logged : ∀ e ∈ acknowledged, InCountedLog dir e ∨ CoveredBy db.versions.current issued e

theorem inMemtables_iff : InMemtables db e ↔ ∃ table ∈ db.memtables db.capture, e ∈ table.entries := by
  simp [InMemtables, DBImpl.memtables, DBImpl.capture, DBImpl.active]

theorem InService.of_log (h : InService loose all db M) : ∃ flushed,
    (∀ e ∈ flushed, e ∈ all) ∧ Reduces flushed (held [] db.versions.current) ∧
      ∀ e ∈ all, e ∈ flushed ∨ InMemtables db e ∧ InCountedLog M.dir e := by
  obtain ⟨m, r, olds, records, hserving, hsingle⟩ := h
  obtain ⟨flushed, haccounts⟩ := hserving.accounts
  refine ⟨flushed, fun e he => (haccounts.mem e).mpr (Or.inl he), haccounts.kept, fun e he => ?_⟩
  refine ((haccounts.mem e).mp he).imp_right fun hlog => ?_
  obtain ⟨es, hes, he⟩ := List.mem_flatten.mp hlog
  refine ⟨inMemtables_iff.mpr ?_, ?_⟩
  · rw [hserving.memtables_eq hsingle]
    exact ⟨_, List.mem_map_of_mem (List.mem_reverse.mpr hes), Serving.mem_foldl_add.mpr he⟩
  · obtain ⟨⟨n, log⟩, hmem, rfl⟩ := List.mem_map.mp hes
    obtain ⟨hnumber, hfile⟩ := hserving.holds.listed (n, log) hmem
    obtain ⟨torn, hbytes, _⟩ := hfile.bytes
    exact ⟨_, n, log, torn, hserving.attached.recorded.recover hserving.attached.tail _, hnumber,
      hbytes, he⟩

/-- No memtable is given up before it is in Level 0, in every order of writes, switches, flushes
and compactions in which `FlushMemTable` finds no memtable that is still to be flushed. -/
theorem memtables_reach_level0 (acknowledged issued : List Entry) (start : Dir)
    (hlived : Lived acknowledged issued start) (options : Options) (db : DBImpl)
    (written : List Entry) (M : Medium FileName)
    (h : Powered steady.events options start db written M) :
    NothingDiscarded (acknowledged ++ written) (issued ++ written) db M.dir := by
  obtain ⟨past, hstands, hbetween⟩ := hlived.stands
  obtain ⟨loose, hservice, hordered⟩ := h.inService hstands hbetween.ordered
  have hhistory := hbetween.extend hordered (fun _ he => he) fun _ he => he
  obtain ⟨flushed, hsubset, hreduces, hplace⟩ := hservice.of_log
  have hcovered : ∀ e ∈ flushed, CoveredBy db.versions.current (issued ++ written) e := fun e he =>
    coveredBy_of_reduces hreduces he fun t ht => hhistory.sound t (hsubset t ht)
  constructor
  · intro e he
    rcases hplace e (hhistory.complete e he) with hflushed | ⟨hmem, _⟩
    · exact Or.inr (hcovered e hflushed)
    · exact Or.inl hmem
  · intro e he
    rcases hplace e (hhistory.complete e he) with hflushed | ⟨_, hlog⟩
    · exact Or.inr (hcovered e hflushed)
    · exact Or.inl hlog

def inEveryPlace : Option (List Entry × List Entry × Bool) := do
  let (_, written, M) ← poweredBy tinyTables ∅ [firstPut, secondPut, .backgroundCompaction]
  let (db, later, _) ← poweredBy tinyTables M.dir
    [.write kTypeDeletion [97] [], .write kTypeValue [98] [51]]
  return (written, later, db.imm.isSome && db.active.count = 1 && db.versions.current.allFiles != [])

set_option maxRecDepth 8192 in
theorem memtables_reach_level0_everyPlace : ∃ start db M, Lived firstWrites firstWrites start ∧
    Powered steady.events tinyTables start db laterWrites M ∧ db.imm.isSome ∧ db.active.count = 1 ∧
      NothingDiscarded (firstWrites ++ laterWrites) (firstWrites ++ laterWrites) db M.dir := by
  have hplay : inEveryPlace = some (firstWrites, laterWrites, true) := by decide +kernel
  simp only [inEveryPlace, Option.bind_eq_bind, Option.bind_eq_some_iff, Option.pure_def,
    Option.some.injEq, Prod.mk.injEq, Bool.and_eq_true, decide_eq_true_eq] at hplay
  obtain ⟨⟨_, written, M⟩, hfirst, ⟨db, later, M'⟩, hsecond, rfl, rfl, ⟨himm, hcount⟩, _⟩ := hplay
  have hpowered := powered_of_poweredBy hsecond
  have hlived := (Lived.new bare_empty).process (.between (powered_of_poweredBy hfirst))
  exact ⟨M.dir, db, M', hlived, hpowered, himm, hcount,
    memtables_reach_level0 _ _ M.dir hlived tinyTables db _ M' hpowered⟩

instance (db : DBImpl) (e : Entry) : Decidable (InMemtables db e) :=
  decidable_of_iff _ inMemtables_iff.symm

instance (v : Version) (issued : List Entry) (e : Entry) : Decidable (CoveredBy v issued e) := by
  unfold CoveredBy
  infer_instance

def undisturbed (options : Options) (actions : List Action) : Option (DBImpl × Dir) :=
  let act (state : DBImpl × Dir) (action : Action) : Option (DBImpl × Dir) :=
    match state.1.perform action (machineOn state.2 []) with
    | .done (some (.ok, db)) after _ => some (db, after.dir)
    | _ => none
  match openDB options (machineOn ∅ []) with
  | .done (.ok, some db) after _ => actions.foldlM act (db, after.dir)
  | _ => none

set_option maxRecDepth 8192 in
/-- The second write fills `imm_`, and `FlushMemTable` puts the memtable of the second write in
its place. The first write is then in no memtable and in no table, and in a log that no longer
counts. -/
theorem flushMemTable_discards_imm : ∃ db dir,
    undisturbed { writeBufferSize := 1 }
      [firstPut, secondPut, .flushMemTable, .backgroundCompaction] = some (db, dir) ∧
    ¬ InMemtables db ⟨[97], 1, kTypeValue, [49]⟩ ∧
    ¬ CoveredBy db.versions.current firstWrites ⟨[97], 1, kTypeValue, [49]⟩ ∧
    dir.lookup (.log 3) = some (walFrames [⟨[97], 1, kTypeValue, [49]⟩]) ∧
    3 < db.versions.logNumber := by
  have hrun : (undisturbed { writeBufferSize := 1 }
      [firstPut, secondPut, .flushMemTable, .backgroundCompaction]).any (fun state =>
        decide (¬ InMemtables state.1 ⟨[97], 1, kTypeValue, [49]⟩ ∧
          ¬ CoveredBy state.1.versions.current firstWrites ⟨[97], 1, kTypeValue, [49]⟩ ∧
          state.2.lookup (.log 3) = some (walFrames [⟨[97], 1, kTypeValue, [49]⟩]) ∧
          3 < state.1.versions.logNumber)) = true := by
    decide +kernel
  obtain ⟨⟨db, dir⟩, hstate, hchecks⟩ := (Option.any_eq_true _ _).mp hrun
  exact ⟨db, dir, hstate, of_decide_eq_true hchecks⟩

end Strata
