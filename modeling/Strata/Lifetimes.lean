import Strata.Library.Simulation
import Strata.Opening
import Strata.Reads
import Strata.StoreSteps

/-! The life of a database, from one process to the next: opened, used by threads that
interleave, killed at any call, and opened again. All of it is a run of a map. -/
namespace Strata

open Library System Layers Memtable VersionSet Simulation

variable {loose : Prop} {all : List Entry} {M : Medium FileName} {db db' : DBImpl} {dir left : Dir}
  {options : Options} {action : Action}

/-! What a thread does under the mutex. -/

/-- An action with the status it returns, or nothing where it has to wait. -/
def DBImpl.perform (db : DBImpl) : Action → Prog (Option (Status × DBImpl))
  | .write type key value => db.write type key value
  | .flushMemTable => do
    let db ← db.flushMemTable
    return some (.ok, db)
  | .compactRange => do
    let result ← db.compactRange
    return some result
  | .backgroundCompaction => do
    let db ← db.backgroundCompaction
    return some (.ok, db)

/-- A write is a `Put` or a `Delete` and finds a sequence number, and `FlushMemTable` does not
put a memtable in the place of one that is still to be flushed. -/
def Action.Granted (db : DBImpl) : Action → Prop
  | .write type _ _ => (type = kTypeValue ∨ type = kTypeDeletion) ∧
      db.versions.lastSequence + 1 < 2 ^ 64
  | .flushMemTable => db.imm = none ∨ db.active.count = 0
  | _ => True

def Action.record (db : DBImpl) (all : List Entry) : Action → List Entry
  | .write type key value => all ++ [⟨key, db.versions.lastSequence + 1, type, value⟩]
  | _ => all

theorem InService.perform (h : InService loose all db M) (hgranted : action.Granted db) :
    Endures steady M (db.perform action)
      (fun result M' => result = none ∧ M' = M ∨ ∃ db', result = some (.ok, db') ∧
        db.Grows db' ∧ InService loose (action.record db all) db' M')
      (Outlasts loose fun past => past = all ∨ past = action.record db all) := by
  cases action with
  | write type key value =>
    apply (h.write hgranted.1 key value hgranted.2).weaken _ fun _ h => h
    rintro result M' (⟨hnone, hsame, _⟩ | hdone)
    · exact Or.inl ⟨hnone, hsame⟩
    · exact Or.inr hdone
  | flushMemTable =>
    refine Endures.bind (h.flushMemTable (Or.inl rfl) hgranted) ?_
    rintro db' M' ⟨hdone, hgrows⟩
    exact Endures.ret (Or.inr ⟨db', rfl, hgrows, hdone⟩)
  | compactRange =>
    refine Endures.bind (h.compactRange (Or.inl rfl)) ?_
    rintro ⟨status, db'⟩ M' ⟨hstatus, hdone, hgrows⟩
    simp only at hstatus
    exact Endures.ret (Or.inr ⟨db', by rw [hstatus], hgrows, hdone⟩)
  | backgroundCompaction =>
    refine Endures.bind (h.backgroundCompaction (Or.inl rfl)) ?_
    rintro db' M' ⟨hdone, hgrows⟩
    exact Endures.ret (Or.inr ⟨db', rfl, hgrows, hdone⟩)

/-! The database as it is seen from outside. -/

/-- What is seen of a database: an opening, an action that returned, a read that took its
snapshot, the answer to one of the reads, the end of the process, and undefined behaviour. -/
inductive Deed where
  | opened (status : Status)
  | did (action : Action) (status : Status)
  | took (key : Key)
  | got (index : Nat) (result : Status × Bytes)
  | ended (during : Option Action)
  | undefined
  deriving DecidableEq, Repr

/-- A process with an open database and the reads it has begun, or a directory without one. -/
inductive World where
  | resting (dir : Dir)
  | serving (db : DBImpl) (dir : Dir) (reads : List PendingRead)

/-- The directory has no manifest behind the one that `CURRENT` names. -/
def Tidy (dir : Dir) : Prop :=
  ∀ m n, dir.lookup .current = some (currentText m) → m < n →
    (dir.lookup (.manifest n)).getD [] = []

def machineOn (dir : Dir) (fate : List Outcome) : Machine FileName := ⟨dir, fun _ => none, fate⟩

/-- One step of one thread, or of the system that starts and ends the process, in which every
call is one of `events`. A kill that comes while an existing database is opened leaves no
manifest without a name. -/
inductive World.Step (events : Event FileName → Prop) (options : Options) :
    World → Option Deed → World → Prop
  | opened {dir : Dir} {fate : List Outcome} {status : Status} {db : DBImpl}
      {after : Machine FileName} {trace : List (Event FileName)}
      (hexit : openDB options (machineOn dir fate) = .done (status, some db) after trace)
      (hsteady : ∀ e ∈ trace, events e) :
      Step events options (.resting dir) (some (.opened status)) (.serving db after.dir [])
  | refused {dir : Dir} {fate : List Outcome} {status : Status} {after : Machine FileName}
      {trace : List (Event FileName)}
      (hexit : openDB options (machineOn dir fate) = .done (status, none) after trace)
      (hsteady : ∀ e ∈ trace, events e) :
      Step events options (.resting dir) (some (.opened status)) (.resting after.dir)
  | openKilled {dir left : Dir} {fate : List Outcome} {trace : List (Event FileName)}
      (hexit : openDB options (machineOn dir fate) = .killed left trace)
      (hsteady : ∀ e ∈ trace, events e) (hexists : (dir.lookup .current).isSome)
      (htidy : Tidy left) :
      Step events options (.resting dir) (some (.ended none)) (.resting left)
  | openStuck {dir : Dir} {fate : List Outcome} {trace : List (Event FileName)}
      (hexit : openDB options (machineOn dir fate) = .stuck trace)
      (hsteady : ∀ e ∈ trace, events e) :
      Step events options (.resting dir) (some .undefined) (.resting dir)
  | did {db db' : DBImpl} {dir : Dir} {reads : List PendingRead} {action : Action}
      {fate : List Outcome} {status : Status} {after : Machine FileName}
      {trace : List (Event FileName)} (hgranted : action.Granted db)
      (hexit : db.perform action (machineOn dir fate) = .done (some (status, db')) after trace)
      (hsteady : ∀ e ∈ trace, events e) :
      Step events options (.serving db dir reads) (some (.did action status))
        (.serving db' after.dir reads)
  | waits {db : DBImpl} {dir : Dir} {reads : List PendingRead} {action : Action}
      {fate : List Outcome} {after : Machine FileName} {trace : List (Event FileName)}
      (hgranted : action.Granted db)
      (hexit : db.perform action (machineOn dir fate) = .done none after trace)
      (hsteady : ∀ e ∈ trace, events e) :
      Step events options (.serving db dir reads) none (.serving db after.dir reads)
  | killed {db : DBImpl} {dir left : Dir} {reads : List PendingRead} {action : Action}
      {fate : List Outcome} {trace : List (Event FileName)} (hgranted : action.Granted db)
      (hexit : db.perform action (machineOn dir fate) = .killed left trace)
      (hsteady : ∀ e ∈ trace, events e) :
      Step events options (.serving db dir reads) (some (.ended (some action))) (.resting left)
  | stuck {db : DBImpl} {dir : Dir} {reads : List PendingRead} {action : Action}
      {fate : List Outcome} {trace : List (Event FileName)} (hgranted : action.Granted db)
      (hexit : db.perform action (machineOn dir fate) = .stuck trace)
      (hsteady : ∀ e ∈ trace, events e) :
      Step events options (.serving db dir reads) (some .undefined) (.serving db dir reads)
  | stopped {db : DBImpl} {dir : Dir} {reads : List PendingRead} :
      Step events options (.serving db dir reads) (some (.ended none)) (.resting dir)
  | took {db : DBImpl} {dir : Dir} {reads : List PendingRead} (key : Key) :
      Step events options (.serving db dir reads) (some (.took key))
        (.serving db dir (reads ++ [PendingRead.new db key]))
  | asks {db : DBImpl} {dir : Dir} {reads : List PendingRead} {index : Nat} {read : PendingRead}
      (hread : reads[index]? = some read) (hasked : read.asked < 3) :
      Step events options (.serving db dir reads) none
        (.serving db dir (reads.set index (read.ask db dir)))
  | got {db : DBImpl} {dir : Dir} {reads : List PendingRead} {index : Nat} {read : PendingRead}
      (hread : reads[index]? = some read) (hready : read.Ready) :
      Step events options (.serving db dir reads)
        (some (.got index (DBImpl.lookupStatus read.answer))) (.serving db dir reads)

def databaseUnder (events : Event FileName → Prop) (options : Options) : System World Deed :=
  ⟨fun world => ∃ dir, Bare dir ∧ world = .resting dir, World.Step events options⟩

/-- No call fails, and every write keeps to the limits. -/
def database (options : Options) : System World Deed := databaseUnder steady.events options

/-! The database as it should be: a map, and the values that reads have taken from it. -/

structure Ideal where
  map : Key → Option Bytes
  reads : List (Option Bytes)

def Action.apply : Action → (Key → Option Bytes) → Key → Option Bytes
  | .write type key value, map =>
    Function.update map key (if type = kTypeDeletion then none else some value)
  | _, map => map

/-- Every action succeeds. A process that ends during an action leaves the map with or without
it, and nothing else is lost. -/
inductive Ideal.Step : Ideal → Option Deed → Ideal → Prop
  | opened (ideal : Ideal) : Step ideal (some (.opened .ok)) { ideal with reads := [] }
  | did (ideal : Ideal) (action : Action) :
      Step ideal (some (.did action .ok)) { ideal with map := action.apply ideal.map }
  | took (ideal : Ideal) (key : Key) :
      Step ideal (some (.took key)) { ideal with reads := ideal.reads ++ [ideal.map key] }
  | got {ideal : Ideal} {index : Nat} {value : Option Bytes}
      (hread : ideal.reads[index]? = some value) :
      Step ideal (some (.got index (response value))) ideal
  | ended (ideal : Ideal) (during : Option Action) : Step ideal (some (.ended during)) ideal
  | endedBehind (ideal : Ideal) (action : Action) :
      Step ideal (some (.ended (some action))) { ideal with map := action.apply ideal.map }

def Ideal.system : System Ideal Deed := ⟨fun ideal => ideal = ⟨fun _ => none, []⟩, Ideal.Step⟩

/-! The simulation. -/

def InSequence (all : List Entry) : Prop := all.Pairwise fun a b => a.seq < b.seq

theorem InSequence.distinct (h : InSequence all) : Distinct all := by
  intro a ha b hb _ hrank
  have hseq : a.seq = b.seq := hrank
  obtain ⟨i, hi, rfl⟩ := List.mem_iff_getElem.mp ha
  obtain ⟨j, hj, rfl⟩ := List.mem_iff_getElem.mp hb
  have hpair := List.pairwise_iff_getElem.mp h
  rcases lt_trichotomy i j with hlt | rfl | hgt
  · exact absurd hseq (ne_of_lt (hpair i j hi hj hlt))
  · rfl
  · exact absurd hseq (ne_of_gt (hpair j i hj hi hgt))

theorem InService.inSequence (h : InService loose all db M) (hseq : InSequence all)
    (action : Action) : InSequence (action.record db all) := by
  cases action with
  | write type key value =>
    obtain ⟨m, r, olds, records, hserving, _⟩ := h
    apply List.pairwise_append.mpr
    refine ⟨hseq, List.pairwise_singleton _ _, fun a ha b hb => ?_⟩
    rw [List.mem_singleton.mp hb]
    exact Nat.lt_succ_of_le (hserving.recent a ha)
  | _ => exact hseq

theorem mapOf_record (db : DBImpl) (all : List Entry) (action : Action) :
    mapOf (action.record db all) = action.apply (mapOf all) := by
  cases action with
  | write type key value => exact mapOf_append all _
  | _ => rfl

/-- The reads that were begun are sure of the values that were taken for them. -/
structure AllPinned (db : DBImpl) (reads : List PendingRead) (values : List (Option Bytes)) :
    Prop where
  length : reads.length = values.length
  pinned : ∀ (index : Nat) (read : PendingRead) (value : Option Bytes),
    reads[index]? = some read → values[index]? = some value → Pinned db read value

namespace AllPinned

variable {reads : List PendingRead} {values : List (Option Bytes)} {index : Nat}
  {read : PendingRead} {value : Option Bytes}

theorem nil (db : DBImpl) : AllPinned db [] [] := ⟨rfl, fun _ _ _ hread => by simp at hread⟩

theorem grows (h : AllPinned db reads values) (hgrows : db.Grows db') :
    AllPinned db' reads values :=
  ⟨h.length, fun index read value hread hvalue =>
    (h.pinned index read value hread hvalue).grows hgrows⟩

theorem take (h : AllPinned db reads values) (hnew : Pinned db read value) :
    AllPinned db (reads ++ [read]) (values ++ [value]) := by
  refine ⟨by simp [h.length], fun index other other' hread hvalue => ?_⟩
  rw [List.getElem?_append] at hread hvalue
  rw [← h.length] at hvalue
  split at hread
  · rename_i hlt
    rw [if_pos hlt] at hvalue
    exact h.pinned index other other' hread hvalue
  · rename_i hge
    rw [if_neg hge] at hvalue
    cases hlast : index - reads.length with
    | zero =>
      rw [hlast] at hread hvalue
      cases hread
      cases hvalue
      exact hnew
    | succ n =>
      rw [hlast] at hread
      cases hread

theorem exists_value (h : AllPinned db reads values) (hread : reads[index]? = some read) :
    ∃ value, values[index]? = some value ∧ Pinned db read value := by
  obtain ⟨hlt, _⟩ := List.getElem?_eq_some_iff.mp hread
  rw [h.length] at hlt
  exact ⟨values[index], List.getElem?_eq_getElem hlt,
    h.pinned index read _ hread (List.getElem?_eq_getElem hlt)⟩

theorem set (h : AllPinned db reads values) (hread : reads[index]? = some read)
    {read' : PendingRead} (hnew : ∀ value, Pinned db read value → Pinned db read' value) :
    AllPinned db (reads.set index read') values := by
  refine ⟨by simp [h.length], fun other found value hfound hvalue => ?_⟩
  rw [List.getElem?_set] at hfound
  split at hfound
  · rename_i heq
    subst heq
    split at hfound
    · cases hfound
      exact hnew value (h.pinned index read value hread hvalue)
    · cases hfound
  · exact h.pinned other found value hfound hvalue

end AllPinned

def Stands (all : List Entry) (dir : Dir) : Prop :=
  Bare dir ∧ all = [] ∨ ∃ loose, Recovers loose all dir

def Embodies : World → Ideal → Prop
  | .resting dir, ideal => ∃ all, InSequence all ∧ ideal.map = mapOf all ∧ Stands all dir
  | .serving db dir reads, ideal => ∃ all, InSequence all ∧ ideal.map = mapOf all ∧
      (∃ loose M, M.dir = dir ∧ InService loose all db M) ∧ AllPinned db reads ideal.reads

section Steps

variable {reads : List PendingRead} {ideal : Ideal}

theorem Kept.intact {m : Nat} {torn : Bytes} {r : Recovery} {v : Version}
    {logs : List (Nat × List Entry)} (h : Kept loose all dir m torn r v logs) (htidy : Tidy dir) :
    Intact loose all dir m torn r v logs :=
  ⟨h, fun n hn => htidy m n h.recorded.current (lt_of_lt_of_le h.manifest hn)⟩

theorem Restorable.recovers (h : Restorable all dir) (htidy : Tidy dir) :
    Recovers True all dir := by
  obtain ⟨m, torn, r, v, logs, hkept⟩ := h
  exact ⟨m, torn, r, v, logs, hkept.intact htidy⟩

theorem Bare.current_none (h : Bare dir) : ¬ (dir.lookup .current).isSome := by
  rw [h .current (by simp)]
  simp

theorem Stands.openDB (h : Stands all dir) (hseq : InSequence all)
    (hcreate : options.createIfMissing = true) (hexists : options.errorIfExists = false) :
    ∃ loose, Endures steady (Medium.settled dir) (openDB options)
      (fun result M' => ∃ db, result = (.ok, some db) ∧ InService loose all db M')
      fun M' => (dir.lookup .current).isSome → Restorable all M'.dir := by
  rcases h with ⟨hbare, rfl⟩ | ⟨loose, m, torn, r, v, logs, hintact⟩
  · refine ⟨False, ?_⟩
    apply (openDB_new_endures (M := Medium.settled dir) hbare hcreate).weaken
    · rintro result M' ⟨db, rfl, _, _, hdone⟩
      exact ⟨db, rfl, hdone⟩
    · exact fun _ _ hsome => absurd hsome hbare.current_none
  · refine ⟨loose, ?_⟩
    apply (openDB_endures (M := Medium.settled dir) hintact (fun _ _ => ⟨rfl, rfl⟩) hseq.distinct
      hexists).weaken
    · rintro result M' ⟨db, rfl, _, _, hdone⟩
      exact ⟨db, rfl, hdone⟩
    · exact fun _ hrest _ => hrest

theorem Embodies.serve {label : Option Deed} {world' : World}
    (hrel : Embodies (.serving db dir reads) ideal)
    (hstep : World.Step steady.events options (.serving db dir reads) label world') :
    ∃ ideal', Embodies world' ideal' ∧
      (Ideal.Step ideal label ideal' ∨ label = none ∧ ideal' = ideal) := by
  cases hstep with
  | @did _ _ _ _ action _ _ _ _ hgranted hexit hsteady =>
    obtain ⟨all, hseq, hmap, ⟨loose, M, rfl, hservice⟩, hpinned⟩ := hrel
    obtain ⟨hdir, ⟨hnone, _⟩ | ⟨db', hresult, hgrows, hdone⟩⟩ :=
      (hservice.perform hgranted).done hexit rfl rfl hsteady
    · cases hnone
    · cases hresult
      refine ⟨{ ideal with map := action.apply ideal.map }, ⟨_, hservice.inSequence hseq action, ?_,
        ⟨loose, _, hdir, hdone⟩, hpinned.grows hgrows⟩, Or.inl (.did ideal action)⟩
      rw [mapOf_record, hmap]
  | waits hgranted hexit hsteady =>
    obtain ⟨all, hseq, hmap, ⟨loose, M, rfl, hservice⟩, hpinned⟩ := hrel
    obtain ⟨hdir, ⟨_, hsame⟩ | ⟨db', hresult, _⟩⟩ :=
      (hservice.perform hgranted).done hexit rfl rfl hsteady
    · rw [hsame] at hdir
      exact ⟨ideal, ⟨all, hseq, hmap, ⟨loose, M, hdir, hservice⟩, hpinned⟩, Or.inr ⟨rfl, rfl⟩⟩
    · cases hresult
  | @killed _ _ _ _ action _ _ hgranted hexit hsteady =>
    obtain ⟨all, hseq, hmap, ⟨loose, M, rfl, hservice⟩, _⟩ := hrel
    obtain ⟨rfl, houtlasts⟩ := (hservice.perform hgranted).killed hexit rfl rfl hsteady
    obtain ⟨past, rfl | rfl, hrecovers⟩ := houtlasts.recovers
    · exact ⟨ideal, ⟨_, hseq, hmap, Or.inr ⟨loose, hrecovers⟩⟩, Or.inl (.ended ideal (some action))⟩
    · refine ⟨{ ideal with map := action.apply ideal.map }, ⟨_, hservice.inSequence hseq action, ?_,
        Or.inr ⟨loose, hrecovers⟩⟩, Or.inl (.endedBehind ideal action)⟩
      rw [mapOf_record, hmap]
  | stuck hgranted hexit hsteady =>
    obtain ⟨all, _, _, ⟨loose, M, rfl, hservice⟩, _⟩ := hrel
    exact ((hservice.perform hgranted).stuck hexit rfl rfl hsteady).elim
  | stopped =>
    obtain ⟨all, hseq, hmap, ⟨loose, M, rfl, m, r, olds, records, hserving, _⟩, _⟩ := hrel
    exact ⟨ideal, ⟨all, hseq, hmap, Or.inr ⟨loose, m, [], r, _, _, hserving.intact⟩⟩,
      Or.inl (.ended ideal none)⟩
  | took key =>
    obtain ⟨all, hseq, hmap, ⟨loose, M, rfl, m, r, olds, records, hserving, hsingle⟩, hpinned⟩ := hrel
    have hnew := hserving.pinned hsingle hseq key
    rw [← hmap] at hnew
    exact ⟨{ ideal with reads := ideal.reads ++ [ideal.map key] }, ⟨all, hseq, hmap,
      ⟨loose, M, rfl, m, r, olds, records, hserving, hsingle⟩, hpinned.take hnew⟩,
      Or.inl (.took ideal key)⟩
  | asks hread hasked =>
    obtain ⟨all, hseq, hmap, hservice, hpinned⟩ := hrel
    exact ⟨ideal, ⟨all, hseq, hmap, hservice, hpinned.set hread fun _ h => h.ask hasked _⟩,
      Or.inr ⟨rfl, rfl⟩⟩
  | got hread hready =>
    obtain ⟨all, hseq, hmap, hservice, hpinned⟩ := hrel
    obtain ⟨value, hvalue, hpin⟩ := hpinned.exists_value hread
    rw [hpin.returns hready]
    exact ⟨ideal, ⟨all, hseq, hmap, hservice, hpinned⟩, Or.inl (.got hvalue)⟩

theorem database_simulates (hcreate : options.createIfMissing = true)
    (hexists : options.errorIfExists = false) :
    Simulates (database options) Ideal.system Embodies := by
  constructor
  · rintro world ⟨dir, hbare, rfl⟩
    exact ⟨_, rfl, [], List.Pairwise.nil, mapOf_nil.symm, Or.inl ⟨hbare, rfl⟩⟩
  intro world ideal label world' hrel hstep
  cases world with
  | serving db dir reads => exact hrel.serve hstep
  | resting dir =>
    obtain ⟨all, hseq, hmap, hstands⟩ := hrel
    obtain ⟨loose, hopen⟩ := hstands.openDB hseq hcreate hexists
    cases hstep with
    | opened hexit hsteady =>
      obtain ⟨hdir, db', hresult, hdone⟩ := hopen.done hexit rfl rfl hsteady
      cases hresult
      exact ⟨{ ideal with reads := [] }, ⟨all, hseq, hmap, ⟨loose, _, hdir, hdone⟩, AllPinned.nil _⟩,
        Or.inl (.opened ideal)⟩
    | refused hexit hsteady =>
      obtain ⟨_, db', hresult, _⟩ := hopen.done hexit rfl rfl hsteady
      cases hresult
    | openKilled hexit hsteady hsome htidy =>
      obtain ⟨rfl, hrest⟩ := hopen.killed hexit rfl rfl hsteady
      exact ⟨ideal, ⟨all, hseq, hmap, Or.inr ⟨True, (hrest hsome).recovers htidy⟩⟩,
        Or.inl (.ended ideal none)⟩
    | openStuck hexit hsteady =>
      exact (hopen.stuck hexit rfl rfl hsteady).elim

end Steps

inductive Command where
  | openIt (fate : List Outcome)
  | act (action : Action) (fate : List Outcome)
  | take (key : Key)
  | ask (index : Nat)
  | get (index : Nat)
  | stop

instance (db : DBImpl) (action : Action) : Decidable (action.Granted db) := by
  cases action <;> unfold Action.Granted <;> infer_instance

instance (read : PendingRead) : Decidable read.Ready :=
  inferInstanceAs (Decidable (_ ∨ _))

def steadyTrace (trace : List (Event FileName)) : Bool :=
  trace.all fun e => (match e.outcome with
    | .fail _ => false
    | _ => true) && decide (WithinLimits e.call)

theorem steady_of_steadyTrace {trace : List (Event FileName)} (h : steadyTrace trace = true) :
    ∀ e ∈ trace, steady.events e := by
  intro e he
  have hsteady := List.all_eq_true.mp h e he
  rw [Bool.and_eq_true, decide_eq_true_eq] at hsteady
  refine ⟨fun n hfail => ?_, hsteady.2⟩
  rw [hfail] at hsteady
  cases hsteady.1

def World.next (options : Options) : World → Command → Option (Option Deed × World)
  | .resting dir, .openIt fate =>
    match openDB options (machineOn dir fate) with
    | .done (status, some db) after trace =>
      if steadyTrace trace then some (some (.opened status), .serving db after.dir []) else none
    | _ => none
  | .serving db dir reads, .act action fate =>
    match db.perform action (machineOn dir fate) with
    | .done (some (status, db')) after trace =>
      if action.Granted db ∧ steadyTrace trace then
        some (some (.did action status), .serving db' after.dir reads)
      else none
    | .killed left trace =>
      if action.Granted db ∧ steadyTrace trace then
        some (some (.ended (some action)), .resting left)
      else none
    | _ => none
  | .serving db dir reads, .take key =>
    some (some (.took key), .serving db dir (reads ++ [PendingRead.new db key]))
  | .serving db dir reads, .ask index =>
    match reads[index]? with
    | some read =>
      if read.asked < 3 then some (none, .serving db dir (reads.set index (read.ask db dir)))
      else none
    | none => none
  | .serving db dir reads, .get index =>
    match reads[index]? with
    | some read =>
      if read.Ready then
        some (some (.got index (DBImpl.lookupStatus read.answer)), .serving db dir reads)
      else none
    | none => none
  | .serving _ dir _, .stop => some (some (.ended none), .resting dir)
  | _, _ => none

theorem World.step_of_next {world world' : World} {command : Command} {label : Option Deed}
    (h : world.next options command = some (label, world')) :
    World.Step steady.events options world label world' := by
  unfold World.next at h
  split at h
  · split at h
    · rename_i hexit
      split at h
      · rename_i hsteady
        cases h
        exact .opened hexit (steady_of_steadyTrace hsteady)
      · cases h
    · cases h
  · split at h
    · rename_i hexit
      split at h
      · rename_i hchecks
        cases h
        exact .did hchecks.1 hexit (steady_of_steadyTrace hchecks.2)
      · cases h
    · rename_i hexit
      split at h
      · rename_i hchecks
        cases h
        exact .killed hchecks.1 hexit (steady_of_steadyTrace hchecks.2)
      · cases h
    · cases h
  · cases h
    exact .took _
  · split at h
    · rename_i hread
      split at h
      · rename_i hasked
        cases h
        exact .asks hread hasked
      · cases h
    · cases h
  · split at h
    · rename_i hread
      split at h
      · rename_i hready
        cases h
        exact .got hread hready
      · cases h
    · cases h
  · cases h
    exact .stopped
  · cases h

def World.play (options : Options) (start : List Deed × World) (commands : List Command) :
    Option (List Deed × World) :=
  commands.foldlM (fun state command =>
    (state.2.next options command).map fun result => (state.1 ++ result.1.toList, result.2)) start

theorem World.run_of_play {commands : List Command} {start last : List Deed × World}
    (hrun : (database options).Run start.1 start.2)
    (h : World.play options start commands = some last) :
    (database options).Run last.1 last.2 := by
  induction commands generalizing start with
  | nil =>
    cases h
    exact hrun
  | cons command rest ih =>
    rw [World.play, List.foldlM_cons, Option.bind_eq_bind, Option.bind_eq_some_iff] at h
    obtain ⟨state, hstate, hrest⟩ := h
    obtain ⟨⟨label, world⟩, hnext, rfl⟩ := Option.map_eq_some_iff.mp hstate
    exact ih (hrun.step (World.step_of_next hnext)) hrest

def tinyTables : Options := { writeBufferSize := 1, maxLevel0Files := 1 }

def firstPut : Action := .write kTypeValue [97] [49]

/-- A read takes its snapshot, the key is deleted, flushed and compacted, and then written
again; the kill comes when three bytes of that are in the log. -/
def tornWrite : List Command :=
  [.openIt [], .act firstPut [], .take [97],
    .act (.write kTypeDeletion [97] []) [], .act .backgroundCompaction [], .ask 0, .get 0,
    .act (.write kTypeValue [97] [50]) [.ok, .kill 3], .openIt [], .take [97], .ask 0, .ask 0,
    .ask 0, .get 0]

def tornWriteSeen : List Deed :=
  [.opened .ok, .did firstPut .ok, .took [97],
    .did (.write kTypeDeletion [97] []) .ok, .did .backgroundCompaction .ok, .got 0 (.ok, [49]),
    .ended (some (.write kTypeValue [97] [50])), .opened .ok, .took [97],
    .got 0 (.notFound "", [])]

def World.isServing : World → Bool
  | .serving .. => true
  | .resting _ => false

set_option maxRecDepth 8192 in
theorem tornWrite_run : ∃ db dir reads,
    (database tinyTables).Run tornWriteSeen (.serving db dir reads) := by
  have hplay : (World.play tinyTables ([], .resting ∅) tornWrite).map
      (fun last => (last.1, last.2.isServing)) = some (tornWriteSeen, true) := by
    decide +kernel
  obtain ⟨⟨seen, world⟩, hplay, hlast⟩ := Option.map_eq_some_iff.mp hplay
  obtain ⟨rfl, hserving⟩ := Prod.mk.inj hlast
  have hstart : (database tinyTables).Run [] (.resting ∅) :=
    .start ⟨∅, bare_empty, rfl⟩
  have hrun := World.run_of_play hstart hplay
  cases world with
  | resting dir => cases hserving
  | serving db dir reads => exact ⟨db, dir, reads, hrun⟩

end Strata
