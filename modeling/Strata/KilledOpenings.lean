import Strata.MapSemantics
import Strata.ReachableStates
import Strata.WaitingMemtables

/-! Openings of an existing database, of which any may be killed. -/
namespace Strata

open Library System Layers VersionSet

variable {loose : Prop} {all past : List Entry} {M : Medium FileName} {db : DBImpl}
  {start dir : Dir} {options : Options}

/-- The directories that openings lead to. An opening may be killed, and if it is not, the process
writes nothing until it is closed or killed. A killed opening has left no bytes in a manifest that
`CURRENT` does not name yet. -/
inductive Openings (start : Dir) : Dir → Prop
  | none : Openings start start
  | killed {options : Options} {dir left : Dir} {fate : List Outcome}
      {trace : List (Event FileName)} (h : Openings start dir)
      (hexists : options.errorIfExists = false)
      (hexit : openDB options (machineOn dir fate) = .killed left trace)
      (hsteady : ∀ e ∈ trace, steady.events e) (htidy : Tidy left) : Openings start left
  | process {options : Options} {dir : Dir} {M : Medium FileName} (h : Openings start dir)
      (hprocess : Interrupted steady.events options dir [] [] M) : Openings start M.dir

structure HoldsAgain (past : List Entry) (db : DBImpl) (dir : Dir) : Prop where
  answers : ∀ key, db.get dir (fun _ => none) key = response (mapOf past key)
  distinct : db.versions.liveFiles.Nodup
  stored : ∀ f ∈ db.versions.current.allFiles, f.Stored dir

theorem InSequence.eq_of_mem {other : List Entry} (h : InSequence all) (hother : InSequence other)
    (hmem : ∀ e, e ∈ all ↔ e ∈ other) : all = other := by
  have hnodup : ∀ {l : List Entry}, InSequence l → l.Nodup := fun hl =>
    hl.imp fun hlt heq => absurd (congrArg Entry.seq heq) (Nat.ne_of_lt hlt)
  have hperm := (List.perm_ext_iff_of_nodup (hnodup h) (hnodup hother)).mpr hmem
  exact hperm.eq_of_pairwise (fun a b _ _ hab hba => absurd hab (Nat.lt_asymm hba)) h hother

theorem Interrupted.recovers (h : Interrupted steady.events options dir [] [] M)
    (hrecovers : Recovers loose past dir)
    (hordered : InSequence past) : ∃ loose, Recovers loose past M.dir := by
  have hbetween : Between past past past := ⟨hordered, fun _ he => he, fun _ he => he⟩
  obtain ⟨loose', houtlasts⟩ := h.outlasts (Or.inr ⟨loose, hrecovers⟩) hbetween
  obtain ⟨history, hhistory, hleft⟩ := houtlasts.recovers
  rw [List.append_nil] at hhistory
  have hsame : past = history :=
    hordered.eq_of_mem hhistory.ordered fun e => ⟨hhistory.complete e, hhistory.sound e⟩
  exact ⟨loose', hsame ▸ hleft⟩

theorem Openings.recovers (h : Openings start dir) (hrecovers : Recovers loose past start)
    (hordered : InSequence past) : ∃ loose, Recovers loose past dir := by
  induction h with
  | none => exact ⟨loose, hrecovers⟩
  | @killed _ dir _ _ _ _ hexists hexit hsteady htidy ih =>
    obtain ⟨_, m, torn, r, v, logs, hintact⟩ := ih
    obtain ⟨rfl, hrest⟩ := (openDB_endures (M := Medium.settled dir) hintact
      (fun _ _ => ⟨rfl, rfl⟩) hordered.distinct hexists).killed hexit rfl rfl hsteady
    exact ⟨True, hrest.recovers htidy⟩
  | process _ hprocess ih =>
    obtain ⟨_, hmiddle⟩ := ih
    exact hprocess.recovers hmiddle hordered

theorem InService.holdsAgain (h : InService loose all db M) (hordered : InSequence all) :
    HoldsAgain all db M.dir := by
  refine ⟨fun key => h.get hordered M.dir key, ?_, ?_⟩
  · obtain ⟨m, r, olds, records, hserving, _⟩ := h
    exact hserving.holds.stacked.good.nodup_numbers
  · obtain ⟨m, r, olds, records, hserving, _⟩ := h
    exact hserving.holds.stored

/-- However often an opening was killed or a process closed again: an opening that is not
interrupted succeeds, and has what the database held at the start. -/
theorem killed_openings_keep_map (acknowledged issued : List Entry) (start : Dir)
    (hlived : Lived acknowledged issued start) (hcurrent : (start.lookup .current).isSome) :
    ∃ past, Between acknowledged issued past ∧ ∀ dir, Openings start dir →
      ∀ options : Options, options.errorIfExists = false → ∀ fate,
      (∀ e ∈ (openDB options (machineOn dir fate)).trace, steady.events e ∧ ¬ e.Fatal) →
      ∃ db after trace, openDB options (machineOn dir fate) = .done (.ok, some db) after trace ∧
        HoldsAgain past db after.dir := by
  obtain ⟨past, ⟨hbare, _⟩ | ⟨loose, hrecovers⟩, hbetween⟩ := hlived.stands
  · exact absurd hcurrent hbare.current_none
  refine ⟨past, hbetween, fun dir hdir options hexists fate hcalls => ?_⟩
  obtain ⟨loose', m, torn, r, v, logs, hintact⟩ := hdir.recovers hrecovers hbetween.ordered
  have hfaults : steady.faults (machineOn dir fate).faults := rfl
  obtain ⟨result, after, trace, hexit, hafter, db, rfl, _, _, hservice⟩ :=
    (openDB_endures (M := Medium.settled dir) hintact (fun _ _ => ⟨rfl, rfl⟩)
      hbetween.ordered.distinct hexists).completes rfl hfaults id hcalls
  exact ⟨db, after, trace, hexit, hafter ▸ hservice.holdsAgain hbetween.ordered⟩

/-! Openings that can be computed. -/

def tidyAt (m : Nat) (dir : Dir) : Bool :=
  dir.lookup .current == some (currentText m) && dir.keys.all fun name => match name with
    | .manifest n => n ≤ m || dir.lookup (.manifest n) == some []
    | _ => true

theorem tidy_of_tidyAt {m : Nat} (h : tidyAt m dir = true) : Tidy dir := by
  intro named n hnamed hlt
  obtain ⟨hcurrent, hkeys⟩ := Bool.and_eq_true_iff.mp h
  rw [beq_iff_eq, hnamed] at hcurrent
  obtain rfl := currentText_injective (Option.some.inj hcurrent)
  cases hbytes : dir.lookup (.manifest n) with
  | none => rfl
  | some bytes =>
    have hmem : FileName.manifest n ∈ dir.keys := by
      rw [← AList.mem_keys, ← AList.lookup_isSome, hbytes]
      rfl
    have hkey := List.all_eq_true.mp hkeys _ hmem
    simp only [Bool.or_eq_true, decide_eq_true_eq, beq_iff_eq, hbytes, Option.some.injEq] at hkey
    rcases hkey with hle | rfl
    · exact absurd hlt (Nat.not_lt.mpr hle)
    · rfl

def killedOpening (options : Options) (dir : Dir) (fate : List Outcome) : Option (Dir × Bool) :=
  match openDB options (machineOn dir fate) with
  | .killed left trace => some (left, steadyTrace trace)
  | _ => none

def wholeOpening (options : Options) (dir : Dir) : Option (DBImpl × Dir) :=
  match openDB options (machineOn dir []) with
  | .done (.ok, some db) after _ => some (db, after.dir)
  | _ => none

theorem of_killedOpening {left : Dir} {fate : List Outcome}
    (h : killedOpening options dir fate = some (left, true)) :
    ∃ trace, openDB options (machineOn dir fate) = .killed left trace ∧
      ∀ e ∈ trace, steady.events e := by
  unfold killedOpening at h
  split at h
  · rename_i trace hexit
    simp only [Option.some.injEq, Prod.mk.injEq] at h
    obtain ⟨rfl, hsteady⟩ := h
    exact ⟨trace, hexit, steady_of_steadyTrace hsteady⟩
  · cases h

theorem Openings.killed_of {left : Dir} {fate : List Outcome} {m : Nat} (h : Openings start dir)
    (hexists : options.errorIfExists = false)
    (hkilled : killedOpening options dir fate = some (left, true)) (htidy : tidyAt m left = true) :
    Openings start left := by
  obtain ⟨trace, hexit, hsteady⟩ := of_killedOpening hkilled
  exact h.killed hexists hexit hsteady (tidy_of_tidyAt htidy)

/-- A kill in the table of the replayed log, one behind the new `CURRENT`, and a process that
compacts a level and is closed: the directory in front of all that, and the one it leaves. -/
def killedTwice : Option (Dir × Dir) := do
  let (_, written, M) ← poweredBy tinyTables ∅ [firstPut, secondPut, .backgroundCompaction]
  let (first, steadily) ← killedOpening tinyTables M.dir (List.replicate 4 .ok ++ [.kill 2])
  let (second, steadily') ← killedOpening tinyTables first (List.replicate 21 .ok ++ [.kill 5])
  let (_, more, M') ← poweredBy tinyTables second [.backgroundCompaction]
  if written = firstWrites ∧ more = [] ∧ steadily = true ∧ steadily' = true ∧
      tidyAt 2 first = true ∧ tidyAt 8 second = true ∧ (M.dir.lookup .current).isSome = true ∧
      flawlessTrace (openDB tinyTables (machineOn M'.dir [])).trace = true then
    some (M.dir, M'.dir)
  else none

set_option maxRecDepth 8192 in
theorem killedTwice_openings : ∃ start last, Lived firstWrites firstWrites start ∧
    (start.lookup .current).isSome ∧ Openings start last ∧
      ∀ e ∈ (openDB tinyTables (machineOn last [])).trace, steady.events e ∧ ¬ e.Fatal := by
  have hsome : killedTwice.isSome = true := by decide +kernel
  obtain ⟨⟨start, last⟩, hrun⟩ := Option.isSome_iff_exists.mp hsome
  simp only [killedTwice, Option.bind_eq_bind, Option.bind_eq_some_iff,
    Option.ite_none_right_eq_some, Option.some.injEq, Prod.mk.injEq] at hrun
  obtain ⟨⟨_, _, M⟩, hfirst, ⟨_, _⟩, hkill, ⟨_, _⟩, hkill', ⟨_, _, M'⟩, hlast,
    ⟨rfl, rfl, rfl, rfl, htidy, htidy', hcurrent, hflawless⟩, rfl, rfl⟩ := hrun
  have hlived := (Lived.new bare_empty).process (.between (powered_of_poweredBy hfirst))
  have hopenings := (Openings.none.killed_of rfl hkill htidy).killed_of rfl hkill' htidy'
  exact ⟨M.dir, M'.dir, hlived, hcurrent, hopenings.process (.between (powered_of_poweredBy hlast)),
    steady_of_flawlessTrace hflawless⟩

theorem killed_openings_keep_map_twice : ∃ start last past db after trace,
    Lived firstWrites firstWrites start ∧ Openings start last ∧
      Between firstWrites firstWrites past ∧
      openDB tinyTables (machineOn last []) = .done (.ok, some db) after trace ∧
      HoldsAgain past db after.dir := by
  obtain ⟨start, last, hlived, hcurrent, hopenings, hcalls⟩ := killedTwice_openings
  obtain ⟨past, hbetween, hopened⟩ := killed_openings_keep_map _ _ start hlived hcurrent
  obtain ⟨db, after, trace, hexit, hholds⟩ := hopened last hopenings tinyTables rfl [] hcalls
  exact ⟨start, last, past, db, after, trace, hlived, hopenings, hbetween, hexit, hholds⟩

def tornSnapshot : Option (Bool × (Status × Bytes) × (Status × Bytes)) := do
  let (_, start) ← undisturbed {} [firstPut]
  let (left, steadily) ← killedOpening {} start (List.replicate 13 .ok ++ [.kill 3])
  let (db, middle) ← wholeOpening {} left
  let (db', last) ← wholeOpening {} middle
  return (steadily, db.get middle (fun _ => none) [97], db'.get last (fun _ => none) [97])

set_option maxRecDepth 8192 in
/-- A `Put` in a new database, which is closed. The next opening is killed in the first record of
its manifest. The one behind it uses the number again and appends its records to that, and the
third finds no record in front of the damage. -/
theorem killed_opening_loses_map : ∃ created start left db middle db' last,
    undisturbed {} [firstPut] = some (created, start) ∧
      killedOpening {} start (List.replicate 13 .ok ++ [.kill 3]) = some (left, true) ∧
      wholeOpening {} left = some (db, middle) ∧ wholeOpening {} middle = some (db', last) ∧
      db.get middle (fun _ => none) [97] = (.ok, [49]) ∧
      db'.get last (fun _ => none) [97] = (.notFound "", []) := by
  have hrun : tornSnapshot = some (true, (.ok, [49]), (.notFound "", [])) := by decide +kernel
  simp only [tornSnapshot, Option.bind_eq_bind, Option.bind_eq_some_iff, Option.pure_def,
    Option.some.injEq] at hrun
  obtain ⟨⟨created, start⟩, hclosed, ⟨left, steadily⟩, hkilled, ⟨db, middle⟩, hwhole,
    ⟨db', last⟩, hlast, hanswers⟩ := hrun
  obtain ⟨hsteady, hgets⟩ := Prod.mk.inj hanswers
  obtain ⟨hfound, hlost⟩ := Prod.mk.inj hgets
  obtain rfl : steadily = true := hsteady
  exact ⟨created, start, left, db, middle, db', last, hclosed, hkilled, hwhole, hlast, hfound, hlost⟩

end Strata
