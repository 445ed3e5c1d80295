import Strata.CompactionRounds
import Strata.Lifetimes

/-! The threads of a process. Callers take `mutex_` for each critical section and may sleep
on `write_cv_`; the background thread sleeps on `bg_cv_` and keeps the mutex from one round to
the next. Whoever sleeps is woken, and what the threads do together is a run of the database. -/
namespace Strata

open Library System Layers Simulation

variable {options : Options} {db db' : DBImpl} {dir : Dir} {action : Action}

/-! The state of the threads. -/

/-- What a caller does when it next has the mutex. `drain` is the loop of `FlushMemTable`
behind the switch, and `lookup` is `Get` behind its critical section. -/
inductive Task where
  | write (type : ValueType) (key : Key) (value : Bytes)
  | flush
  | drain
  | compactRange
  | capture (key : Key)
  | lookup (index : Nat)
  deriving DecidableEq

def Task.Called : Task → Prop
  | .drain => False
  | .lookup _ => False
  | _ => True

/-- The critical section of a task, where it is one that changes the database. -/
def Task.performs : Task → Option Action
  | .write type key value => some (.write type key value)
  | .flush => some .flushMemTable
  | .compactRange => some .compactRange
  | _ => none

inductive Client where
  | idle
  | runs (task : Task)
  | sleeps (task : Task)
  deriving DecidableEq

/-- `wakes` is a thread that wants the mutex, `holds` one that has it between two rounds. -/
inductive Background where
  | sleeps
  | wakes
  | holds
  | ended
  deriving DecidableEq

structure Threads where
  clients : List Client
  background : Background
  shuttingDown : Bool

/-- `bg_cv_.notify_one()`, on which nobody but the background thread waits. -/
def Threads.notifyBackground (t : Threads) : Threads :=
  { t with background := if t.background = .sleeps then .wakes else t.background }

def Client.woken : Client → Client
  | .sleeps task => .runs task
  | c => c

/-- `write_cv_.notify_all()` -/
def Threads.notifyClients (t : Threads) : Threads := { t with clients := t.clients.map Client.woken }

def Threads.set (t : Threads) (index : Nat) (c : Client) : Threads :=
  { t with clients := t.clients.set index c }

def DBImpl.switches (db : DBImpl) : Action → Bool
  | .write .. => !(db.active.approximateMemoryUsage < db.options.writeBufferSize) && db.imm.isNone
  | .flushMemTable => db.active.count > 0
  | _ => false

/-- `imm_ != nullptr`, or a compaction that would be picked. -/
def DBImpl.due (db : DBImpl) : Bool :=
  db.imm.isSome || (Compaction.pickCompaction db.options db.versions.current).isSome

/-- Where a caller is when its critical section is over: `FlushMemTable` goes on to wait. -/
def Task.behind (db : DBImpl) : Task → Client
  | .flush => if db.imm.isSome then .sleeps .drain else .idle
  | .drain => if db.imm.isSome then .sleeps .drain else .idle
  | _ => .idle

/-! The steps. -/

inductive Process where
  | down (dir : Dir)
  | up (db : DBImpl) (dir : Dir) (reads : List PendingRead) (threads : Threads)

/-- What is known of the calls, of the actions that are begun, and of the directory that an
opening leaves when it is killed. -/
structure Conditions where
  calls : Assume FileName
  grants : DBImpl → Action → Prop
  abandons : Dir → Dir → Prop

/-- The background thread at its loop, with the mutex. A round keeps the mutex, and so nobody
else has it before the thread sleeps or ends. -/
inductive Process.BackgroundStep (given : Conditions) : Process → Option Deed → Process → Prop
  | round {db db' : DBImpl} {dir : Dir} {reads : List PendingRead} {t : Threads} {faults : Faults}
      {fate : List Outcome} {status : Status} {after : Machine FileName}
      {trace : List (Event FileName)} (hready : t.background = .wakes ∨ t.background = .holds)
      (hopen : t.shuttingDown = false) (hdue : db.due = true)
      (hgranted : given.grants db .backgroundCompaction) (hfaults : given.calls.faults faults)
      (hexit : db.perform .backgroundCompaction ⟨dir, faults, fate⟩ =
        .done (some (status, db')) after trace)
      (hcalls : ∀ e ∈ trace, given.calls.events e) :
      BackgroundStep given (.up db dir reads t) (some (.did .backgroundCompaction status))
        (.up db' after.dir reads
          { (if db.imm.isSome then t.notifyClients else t) with background := .holds })
  | roundKilled {db : DBImpl} {dir left : Dir} {reads : List PendingRead} {t : Threads}
      {faults : Faults} {fate : List Outcome} {trace : List (Event FileName)}
      (hready : t.background = .wakes ∨ t.background = .holds)
      (hopen : t.shuttingDown = false) (hdue : db.due = true)
      (hgranted : given.grants db .backgroundCompaction) (hfaults : given.calls.faults faults)
      (hexit : db.perform .backgroundCompaction ⟨dir, faults, fate⟩ = .killed left trace)
      (hcalls : ∀ e ∈ trace, given.calls.events e) :
      BackgroundStep given (.up db dir reads t) (some (.ended (some .backgroundCompaction)))
        (.down left)
  | roundStuck {db : DBImpl} {dir : Dir} {reads : List PendingRead} {t : Threads}
      {faults : Faults} {fate : List Outcome} {trace : List (Event FileName)}
      (hready : t.background = .wakes ∨ t.background = .holds)
      (hopen : t.shuttingDown = false) (hdue : db.due = true)
      (hgranted : given.grants db .backgroundCompaction) (hfaults : given.calls.faults faults)
      (hexit : db.perform .backgroundCompaction ⟨dir, faults, fate⟩ = .stuck trace)
      (hcalls : ∀ e ∈ trace, given.calls.events e) :
      BackgroundStep given (.up db dir reads t) (some .undefined) (.up db dir reads t)
  | rests {db : DBImpl} {dir : Dir} {reads : List PendingRead} {t : Threads}
      (hready : t.background = .wakes ∨ t.background = .holds)
      (hopen : t.shuttingDown = false) (hdue : db.due = false) :
      BackgroundStep given (.up db dir reads t) none
        (.up db dir reads { t with background := .sleeps })
  | leaves {db : DBImpl} {dir : Dir} {reads : List PendingRead} {t : Threads}
      (hready : t.background = .wakes ∨ t.background = .holds) (hclosing : t.shuttingDown = true) :
      BackgroundStep given (.up db dir reads t) none
        (.up db dir reads { t with background := .ended })

/-- A caller, by its number. All but the lookups of a `Get` need the mutex. -/
inductive Process.ClientStep (given : Conditions) (index : Nat) :
    Process → Option Deed → Process → Prop
  | calls {db : DBImpl} {dir : Dir} {reads : List PendingRead} {t : Threads} {task : Task}
      (hclient : t.clients[index]? = some .idle) (hcalled : task.Called)
      (hopen : t.shuttingDown = false) :
      ClientStep given index (.up db dir reads t) none (.up db dir reads (t.set index (.runs task)))
  | acts {db db' : DBImpl} {dir : Dir} {reads : List PendingRead} {t : Threads} {task : Task}
      {action : Action} {faults : Faults} {fate : List Outcome} {status : Status}
      {after : Machine FileName} {trace : List (Event FileName)}
      (hclient : t.clients[index]? = some (.runs task)) (haction : task.performs = some action)
      (hfree : t.background ≠ .holds) (hgranted : given.grants db action)
      (hfaults : given.calls.faults faults)
      (hexit : db.perform action ⟨dir, faults, fate⟩ = .done (some (status, db')) after trace)
      (hcalls : ∀ e ∈ trace, given.calls.events e) :
      ClientStep given index (.up db dir reads t) (some (.did action status))
        (.up db' after.dir reads
          ((if db.switches action then t.notifyBackground else t).set index (task.behind db')))
  | waits {db : DBImpl} {dir : Dir} {reads : List PendingRead} {t : Threads} {task : Task}
      {action : Action} {faults : Faults} {fate : List Outcome} {after : Machine FileName}
      {trace : List (Event FileName)} (hclient : t.clients[index]? = some (.runs task))
      (haction : task.performs = some action) (hfree : t.background ≠ .holds)
      (hgranted : given.grants db action) (hfaults : given.calls.faults faults)
      (hexit : db.perform action ⟨dir, faults, fate⟩ = .done none after trace)
      (hcalls : ∀ e ∈ trace, given.calls.events e) :
      ClientStep given index (.up db dir reads t) none
        (.up db after.dir reads (t.set index (.sleeps task)))
  | killed {db : DBImpl} {dir left : Dir} {reads : List PendingRead} {t : Threads} {task : Task}
      {action : Action} {faults : Faults} {fate : List Outcome} {trace : List (Event FileName)}
      (hclient : t.clients[index]? = some (.runs task)) (haction : task.performs = some action)
      (hfree : t.background ≠ .holds) (hgranted : given.grants db action)
      (hfaults : given.calls.faults faults)
      (hexit : db.perform action ⟨dir, faults, fate⟩ = .killed left trace)
      (hcalls : ∀ e ∈ trace, given.calls.events e) :
      ClientStep given index (.up db dir reads t) (some (.ended (some action))) (.down left)
  | stuck {db : DBImpl} {dir : Dir} {reads : List PendingRead} {t : Threads} {task : Task}
      {action : Action} {faults : Faults} {fate : List Outcome} {trace : List (Event FileName)}
      (hclient : t.clients[index]? = some (.runs task)) (haction : task.performs = some action)
      (hfree : t.background ≠ .holds) (hgranted : given.grants db action)
      (hfaults : given.calls.faults faults)
      (hexit : db.perform action ⟨dir, faults, fate⟩ = .stuck trace)
      (hcalls : ∀ e ∈ trace, given.calls.events e) :
      ClientStep given index (.up db dir reads t) (some .undefined) (.up db dir reads t)
  | drains {db : DBImpl} {dir : Dir} {reads : List PendingRead} {t : Threads}
      (hclient : t.clients[index]? = some (.runs .drain)) (hfree : t.background ≠ .holds) :
      ClientStep given index (.up db dir reads t) none
        (.up db dir reads (t.set index (Task.drain.behind db)))
  | captures {db : DBImpl} {dir : Dir} {reads : List PendingRead} {t : Threads} {key : Key}
      (hclient : t.clients[index]? = some (.runs (.capture key))) (hfree : t.background ≠ .holds) :
      ClientStep given index (.up db dir reads t) (some (.took key))
        (.up db dir (reads ++ [PendingRead.new db key])
          (t.set index (.runs (.lookup reads.length))))
  | asks {db : DBImpl} {dir : Dir} {reads : List PendingRead} {t : Threads} {position : Nat}
      {read : PendingRead} (hclient : t.clients[index]? = some (.runs (.lookup position)))
      (hread : reads[position]? = some read) (hasked : read.asked < 3) :
      ClientStep given index (.up db dir reads t) none
        (.up db dir (reads.set position (read.ask db dir)) t)
  | answers {db : DBImpl} {dir : Dir} {reads : List PendingRead} {t : Threads} {position : Nat}
      {read : PendingRead} (hclient : t.clients[index]? = some (.runs (.lookup position)))
      (hread : reads[position]? = some read) (hready : read.Ready) :
      ClientStep given index (.up db dir reads t)
        (some (.got position (DBImpl.lookupStatus read.answer)))
        (.up db dir reads (t.set index .idle))
  | wakes {db : DBImpl} {dir : Dir} {reads : List PendingRead} {t : Threads} {task : Task}
      (hclient : t.clients[index]? = some (.sleeps task)) :
      ClientStep given index (.up db dir reads t) none
        (.up db dir reads (t.set index (.runs task)))

/-- A step of one of the threads, of the destructor, or of the system around the process. A
thread may wake though nobody notified it. -/
inductive Process.Step (given : Conditions) (options : Options) :
    Process → Option Deed → Process → Prop
  | opened {dir : Dir} {faults : Faults} {fate : List Outcome} {status : Status} {db : DBImpl}
      {after : Machine FileName} {trace : List (Event FileName)} (callers : Nat)
      (hfaults : given.calls.faults faults)
      (hexit : openDB options ⟨dir, faults, fate⟩ = .done (status, some db) after trace)
      (hcalls : ∀ e ∈ trace, given.calls.events e) :
      Step given options (.down dir) (some (.opened status))
        (.up db after.dir [] ⟨List.replicate callers .idle, .wakes, false⟩)
  | refused {dir : Dir} {faults : Faults} {fate : List Outcome} {status : Status}
      {after : Machine FileName} {trace : List (Event FileName)}
      (hfaults : given.calls.faults faults)
      (hexit : openDB options ⟨dir, faults, fate⟩ = .done (status, none) after trace)
      (hcalls : ∀ e ∈ trace, given.calls.events e) :
      Step given options (.down dir) (some (.opened status)) (.down after.dir)
  | openKilled {dir left : Dir} {faults : Faults} {fate : List Outcome}
      {trace : List (Event FileName)} (hfaults : given.calls.faults faults)
      (hexit : openDB options ⟨dir, faults, fate⟩ = .killed left trace)
      (hcalls : ∀ e ∈ trace, given.calls.events e) (hleft : given.abandons dir left) :
      Step given options (.down dir) (some (.ended none)) (.down left)
  | openStuck {dir : Dir} {faults : Faults} {fate : List Outcome} {trace : List (Event FileName)}
      (hfaults : given.calls.faults faults)
      (hexit : openDB options ⟨dir, faults, fate⟩ = .stuck trace)
      (hcalls : ∀ e ∈ trace, given.calls.events e) :
      Step given options (.down dir) (some .undefined) (.down dir)
  | client {p p' : Process} {label : Option Deed} (index : Nat)
      (h : ClientStep given index p label p') : Step given options p label p'
  | background {p p' : Process} {label : Option Deed} (h : BackgroundStep given p label p') :
      Step given options p label p'
  | backgroundWakes {db : DBImpl} {dir : Dir} {reads : List PendingRead} {t : Threads} :
      Step given options (.up db dir reads t) none (.up db dir reads t.notifyBackground)
  | closes {db : DBImpl} {dir : Dir} {reads : List PendingRead} {t : Threads}
      (hidle : ∀ c ∈ t.clients, c = .idle) (hfree : t.background ≠ .holds) :
      Step given options (.up db dir reads t) none
        (.up db dir reads { t.notifyBackground with shuttingDown := true })
  | joined {db : DBImpl} {dir : Dir} {reads : List PendingRead} {t : Threads}
      (hclosing : t.shuttingDown = true) (hended : t.background = .ended) :
      Step given options (.up db dir reads t) (some (.ended none)) (.down dir)
  | stopped {db : DBImpl} {dir : Dir} {reads : List PendingRead} {t : Threads} :
      Step given options (.up db dir reads t) (some (.ended none)) (.down dir)

def process (given : Conditions) (options : Options) : System Process Deed :=
  ⟨fun p => ∃ dir, Bare dir ∧ p = .down dir, Process.Step given options⟩

/-! The threads do what the database does. -/

def calm : Conditions :=
  ⟨steady, fun db action => action.Granted db,
    fun dir left => (dir.lookup .current).isSome ∧ Tidy left⟩

def Process.world : Process → World
  | .down dir => .resting dir
  | .up db dir reads _ => .serving db dir reads

theorem Process.ClientStep.world {p p' : Process} {label : Option Deed} {index : Nat}
    (h : ClientStep calm index p label p') :
    World.Step steady.events options p.world label p'.world ∨ label = none ∧ p'.world = p.world := by
  cases h with
  | calls => exact Or.inr ⟨rfl, rfl⟩
  | acts _ _ _ hgranted hfaults hexit hcalls =>
    obtain rfl := hfaults
    exact Or.inl (.did hgranted hexit hcalls)
  | waits _ _ _ hgranted hfaults hexit hcalls =>
    obtain rfl := hfaults
    exact Or.inl (.waits hgranted hexit hcalls)
  | killed _ _ _ hgranted hfaults hexit hcalls =>
    obtain rfl := hfaults
    exact Or.inl (.killed hgranted hexit hcalls)
  | stuck _ _ _ hgranted hfaults hexit hcalls =>
    obtain rfl := hfaults
    change Action.Granted _ _ at hgranted
    exact Or.inl (.stuck hgranted hexit hcalls)
  | drains => exact Or.inr ⟨rfl, rfl⟩
  | captures => exact Or.inl (.took _)
  | asks _ hread hasked => exact Or.inl (.asks hread hasked)
  | answers _ hread hready => exact Or.inl (.got hread hready)
  | wakes => exact Or.inr ⟨rfl, rfl⟩

theorem Process.BackgroundStep.world {p p' : Process} {label : Option Deed}
    (h : BackgroundStep calm p label p') :
    World.Step steady.events options p.world label p'.world ∨ label = none ∧ p'.world = p.world := by
  cases h with
  | round _ _ _ hgranted hfaults hexit hcalls =>
    obtain rfl := hfaults
    exact Or.inl (.did hgranted hexit hcalls)
  | roundKilled _ _ _ hgranted hfaults hexit hcalls =>
    obtain rfl := hfaults
    exact Or.inl (.killed hgranted hexit hcalls)
  | roundStuck _ _ _ hgranted hfaults hexit hcalls =>
    obtain rfl := hfaults
    exact Or.inl (@World.Step.stuck steady.events options _ _ _ .backgroundCompaction _ _
      hgranted hexit hcalls)
  | rests => exact Or.inr ⟨rfl, rfl⟩
  | leaves => exact Or.inr ⟨rfl, rfl⟩

theorem process_simulates :
    Simulates (process calm options) (database options) fun p world => world = p.world := by
  constructor
  · rintro _ ⟨dir, hbare, rfl⟩
    exact ⟨.resting dir, ⟨dir, hbare, rfl⟩, rfl⟩
  · rintro p _ label p' rfl hstep
    refine ⟨p'.world, rfl, ?_⟩
    cases hstep with
    | opened _ hfaults hexit hcalls =>
      obtain rfl := hfaults
      exact Or.inl (.opened hexit hcalls)
    | refused hfaults hexit hcalls =>
      obtain rfl := hfaults
      exact Or.inl (.refused hexit hcalls)
    | openKilled hfaults hexit hcalls hleft =>
      obtain rfl := hfaults
      exact Or.inl (.openKilled hexit hcalls hleft.1 hleft.2)
    | openStuck hfaults hexit hcalls =>
      obtain rfl := hfaults
      exact Or.inl (.openStuck hexit hcalls)
    | client index h => exact h.world
    | background h => exact h.world
    | backgroundWakes => exact Or.inr ⟨rfl, rfl⟩
    | closes => exact Or.inr ⟨rfl, rfl⟩
    | joined => exact Or.inl .stopped
    | stopped => exact Or.inl .stopped

def DBImpl.Puts (db : DBImpl) (action : Action) (db' : DBImpl) : Prop :=
  ∀ table ∈ db'.heap, ∀ e ∈ table.entries,
    (∃ old ∈ db.heap, e ∈ old.entries) ∨ action = .write e.type e.userKey e.value

theorem DBImpl.Puts.refl (db : DBImpl) (action : Action) : db.Puts action db :=
  fun table htable _ he => Or.inl ⟨table, htable, he⟩

structure Turned (db : DBImpl) (action : Action) (db' : DBImpl) : Prop where
  options : db'.options = db.options
  imm : db'.imm = if db.switches action then some db.mem
    else if action = .backgroundCompaction then none else db.imm
  idle : db.due = false → action ≠ .backgroundCompaction →
    db'.versions.current = db.versions.current
  puts : db.Puts action db'

variable {machine after : Machine FileName} {trace : List (Event FileName)} {status : Status}

theorem DBImpl.switchMemtable_done (hexit : db.switchMemtable machine = .done db' after trace) :
    db'.options = db.options ∧ db'.imm = some db.mem ∧
      db'.versions.current = db.versions.current ∧ ∀ action, db.Puts action db' := by
  unfold switchMemtable at hexit
  obtain ⟨writer, _, _, _, _, hlast⟩ := Sys.of_bind_done hexit
  cases hlast
  refine ⟨rfl, rfl, rfl, fun action table htable e he => ?_⟩
  rcases List.mem_append.mp htable with hold | hnew
  · exact Or.inl ⟨table, hold, he⟩
  · rw [List.mem_singleton.mp hnew] at he
    exact (List.not_mem_nil he).elim

theorem DBImpl.makeRoomForWrite_done {room : Option DBImpl} (type : ValueType) (key : Key)
    (value : Bytes) (hexit : db.makeRoomForWrite machine = .done room after trace) :
    room = none ∧ db.imm.isSome ∨ ∃ db', room = some db' ∧
      Turned db (.write type key value) db' := by
  unfold makeRoomForWrite at hexit
  split at hexit
  · rename_i hsmall
    cases hexit
    exact Or.inr ⟨db, rfl, rfl, by simp [switches, hsmall], fun _ _ => rfl, .refl db _⟩
  · rename_i hfull
    split at hexit
    · rename_i hpending
      cases hexit
      exact Or.inl ⟨rfl, hpending⟩
    · rename_i hnone
      obtain ⟨db', _, _, _, hswitch, hlast⟩ := Sys.of_bind_done hexit
      cases hlast
      obtain ⟨hoptions, himm, hcurrent, hputs⟩ := switchMemtable_done hswitch
      have hswitches : db.switches (.write type key value) = true := by
        simpa [switches, hfull] using hnone
      exact Or.inr ⟨db', rfl, hoptions, by rw [himm, if_pos hswitches], fun _ _ => hcurrent,
        hputs _⟩

theorem DBImpl.flushImmutable_done
    (hexit : db.flushImmutable machine = .done (status, db') after trace) :
    db'.options = db.options ∧ db'.imm = none ∧ db'.heap = db.heap := by
  unfold flushImmutable at hexit
  cases himm : db.imm with
  | none =>
    simp only [himm] at hexit
    cases hexit
    exact ⟨rfl, himm, rfl⟩
  | some index =>
    simp only [himm] at hexit
    obtain ⟨⟨table, versions⟩, _, _, _, _, hrest⟩ := Sys.of_bind_done hexit
    cases table with
    | error status' =>
      cases hrest
      exact ⟨rfl, rfl, rfl⟩
    | ok file =>
      obtain ⟨⟨status', versions'⟩, _, _, _, _, hlast⟩ := Sys.of_bind_done hrest
      cases hlast
      exact ⟨rfl, rfl, rfl⟩

theorem DBImpl.majorCompaction_done
    (hexit : db.majorCompaction machine = .done (status, db') after trace) :
    db'.options = db.options ∧ db'.imm = db.imm ∧ db'.heap = db.heap := by
  unfold majorCompaction at hexit
  cases hpick : Compaction.pickCompaction db.options db.versions.current with
  | none =>
    simp only [hpick] at hexit
    cases hexit
    exact ⟨rfl, rfl, rfl⟩
  | some c =>
    simp only [hpick] at hexit
    obtain ⟨⟨status', versions⟩, _, _, _, _, hlast⟩ := Sys.of_bind_done hexit
    cases hlast
    exact ⟨rfl, rfl, rfl⟩

theorem DBImpl.perform_waits (hexit : db.perform action machine = .done none after trace) :
    db.imm.isSome := by
  cases action with
  | write type key value =>
    change db.write type key value machine = _ at hexit
    unfold DBImpl.write at hexit
    obtain ⟨room, _, _, _, hroom, hrest⟩ := Sys.of_bind_done hexit
    rcases makeRoomForWrite_done type key value hroom with ⟨_, hpending⟩ | ⟨db', rfl, _⟩
    · exact hpending
    · obtain ⟨status, _, _, _, _, hlast⟩ := Sys.of_bind_done hrest
      split at hlast <;> cases hlast
  | _ =>
    obtain ⟨_, _, _, _, _, hlast⟩ := Sys.of_bind_done hexit
    cases hlast

theorem DBImpl.perform_turned
    (hexit : db.perform action machine = .done (some (status, db')) after trace) :
    Turned db action db' := by
  cases action with
  | write type key value =>
    change db.write type key value machine = _ at hexit
    unfold DBImpl.write at hexit
    obtain ⟨room, _, _, _, hroom, hrest⟩ := Sys.of_bind_done hexit
    rcases makeRoomForWrite_done type key value hroom with ⟨rfl, _⟩ | ⟨db₁, rfl, hturned⟩
    · cases hrest
    · obtain ⟨status', _, _, _, _, hlast⟩ := Sys.of_bind_done hrest
      split at hlast
      · cases hlast
        exact hturned
      · cases hlast
        refine ⟨hturned.options, hturned.imm, fun hidle hother => ?_, fun table htable e he => ?_⟩
        · rw [VersionSet.setLastSequence_eq]
          exact hturned.idle hidle hother
        · obtain ⟨index, hget⟩ := List.mem_iff_getElem?.mp htable
          rw [List.getElem?_modify, Option.map_eq_map, Option.map_eq_some_iff] at hget
          obtain ⟨old, hold, rfl⟩ := hget
          have hputs := hturned.puts old (List.mem_of_getElem? hold)
          split at he
          · rw [(Memtable.perm_add old _).mem_iff, List.mem_cons] at he
            rcases he with rfl | he
            · exact Or.inr rfl
            · exact hputs e he
          · exact hputs e he
  | flushMemTable =>
    obtain ⟨db₁, _, _, _, hflush, hlast⟩ := Sys.of_bind_done hexit
    cases hlast
    unfold flushMemTable at hflush
    split at hflush
    · rename_i hcount
      obtain ⟨hoptions, himm, hcurrent, hputs⟩ := switchMemtable_done hflush
      exact ⟨hoptions, by simp [switches, hcount, himm], fun _ _ => hcurrent, hputs _⟩
    · rename_i hempty
      cases hflush
      exact ⟨rfl, by simp [switches, hempty], fun _ _ => rfl, .refl _ _⟩
  | compactRange =>
    obtain ⟨⟨status', db₁⟩, _, _, _, hcompact, hlast⟩ := Sys.of_bind_done hexit
    cases hlast
    unfold compactRange at hcompact
    cases hpick : Compaction.pickCompaction db.options db.versions.current with
    | none =>
      simp only [hpick] at hcompact
      cases hcompact
      exact ⟨rfl, by simp [switches], fun _ _ => rfl, .refl _ _⟩
    | some c =>
      simp only [hpick] at hcompact
      obtain ⟨⟨status', versions⟩, _, _, _, _, hrest⟩ := Sys.of_bind_done hcompact
      obtain ⟨_, _, _, _, _, hlast⟩ := Sys.of_bind_done hrest
      cases hlast
      exact ⟨rfl, by simp [switches], fun hidle => by simp [due, hpick] at hidle, .refl db _⟩
  | backgroundCompaction =>
    obtain ⟨db₃, _, _, _, hround, hlast⟩ := Sys.of_bind_done hexit
    cases hlast
    unfold backgroundCompaction at hround
    obtain ⟨⟨status₁, db₁⟩, _, _, _, hflush, hrest⟩ := Sys.of_bind_done hround
    obtain ⟨⟨status₂, db₂⟩, _, _, _, hmajor, hrest⟩ := Sys.of_bind_done hrest
    obtain ⟨_, _, _, _, _, hlast⟩ := Sys.of_bind_done hrest
    cases hlast
    obtain ⟨hoptions, himm, hheap⟩ := flushImmutable_done hflush
    obtain ⟨hoptions', himm', hheap'⟩ := majorCompaction_done hmajor
    refine ⟨hoptions'.trans hoptions, ?_, fun _ hother => absurd rfl hother, ?_⟩
    · rw [himm', himm]
      simp [switches]
    · rw [DBImpl.Puts, hheap', hheap]
      exact DBImpl.Puts.refl db _

/-! Nobody sleeps through what they wait for. -/

/-- Who sleeps on `write_cv_` waits for a memtable that is still to be flushed, and the
background thread sleeps on `bg_cv_` only where it has nothing to do. -/
structure Vigilant (db : DBImpl) (t : Threads) : Prop where
  pending : ∀ task, .sleeps task ∈ t.clients → db.imm.isSome
  resting : t.background = .sleeps → db.due = false ∧ t.shuttingDown = false
  ended : t.background = .ended → t.shuttingDown = true
  closing : t.shuttingDown = true → (∀ c ∈ t.clients, c = .idle) ∧ t.background ≠ .holds

namespace Vigilant

variable {t : Threads} {index : Nat} {task : Task}

theorem opened (h : Vigilant db t)
    (hclient : t.clients[index]? = some (.runs task) ∨ t.clients[index]? = some (.sleeps task)) :
    t.shuttingDown = false := by
  by_contra hclosing
  rw [Bool.not_eq_false] at hclosing
  rcases hclient with hclient | hclient
  · cases (h.closing hclosing).1 _ (List.mem_of_getElem? hclient)
  · cases (h.closing hclosing).1 _ (List.mem_of_getElem? hclient)

theorem set (h : Vigilant db t) {c : Client} (hc : ∀ task, c = .sleeps task → db.imm.isSome)
    (hopen : t.shuttingDown = false) : Vigilant db (t.set index c) := by
  refine ⟨fun task hmem => ?_, h.resting, h.ended, fun hclosing => ?_⟩
  · rcases List.mem_or_eq_of_mem_set hmem with hold | hnew
    · exact h.pending task hold
    · exact hc task hnew.symm
  · change t.shuttingDown = true at hclosing
    rw [hopen] at hclosing
    cases hclosing

theorem set_idle (h : Vigilant db t) (hopen : t.shuttingDown = false) :
    Vigilant db (t.set index .idle) :=
  h.set (fun _ hsleeps => by cases hsleeps) hopen

theorem set_runs (h : Vigilant db t) (hopen : t.shuttingDown = false) :
    Vigilant db (t.set index (.runs task)) :=
  h.set (fun _ hsleeps => by cases hsleeps) hopen

theorem notifyBackground (h : Vigilant db t) : Vigilant db t.notifyBackground := by
  by_cases hsleeps : t.background = .sleeps
  · have hwakes : t.notifyBackground = { t with background := .wakes } := by
      simp [Threads.notifyBackground, hsleeps]
    rw [hwakes]
    refine ⟨h.pending, fun hback => ?_, fun hback => ?_, fun hclosing => ⟨(h.closing hclosing).1,
      fun hback => ?_⟩⟩ <;> cases hback
  · have hsame : t.notifyBackground = t := by simp [Threads.notifyBackground, hsleeps]
    rw [hsame]
    exact h

theorem turned (h : Vigilant db t) (hturned : Turned db action db')
    (haction : task.performs = some action) :
    Vigilant db' (if db.switches action then t.notifyBackground else t) := by
  have hother : action ≠ .backgroundCompaction := by
    rintro rfl
    cases task <;> cases haction
  have himm := hturned.imm
  rw [if_neg hother] at himm
  by_cases hswitches : db.switches action = true
  · rw [if_pos hswitches] at himm ⊢
    have hnotified := h.notifyBackground
    refine ⟨fun _ _ => by rw [himm]; rfl, fun hsleeps => ?_, hnotified.ended, hnotified.closing⟩
    unfold Threads.notifyBackground at hsleeps
    split at hsleeps
    · cases hsleeps
    · contradiction
  · rw [if_neg hswitches] at himm ⊢
    refine ⟨fun task hmem => himm ▸ h.pending task hmem, fun hsleeps => ?_, h.ended, h.closing⟩
    obtain ⟨hidle, hopen⟩ := h.resting hsleeps
    refine ⟨?_, hopen⟩
    rw [DBImpl.due, himm, hturned.options, hturned.idle hidle hother]
    exact hidle

theorem behind (task : Task) {other : Task} (hsleeps : task.behind db = .sleeps other) :
    db.imm.isSome := by
  by_contra hnone
  cases task with
  | flush | drain => simp [Task.behind, hnone] at hsleeps
  | _ => cases hsleeps

end Vigilant

def Process.Watched : Process → Prop
  | .down _ => True
  | .up db _ _ t => Vigilant db t

theorem Process.ClientStep.watched {given : Conditions} {index : Nat} {p p' : Process}
    {label : Option Deed} (h : ClientStep given index p label p') (hwatched : p.Watched) :
    p'.Watched := by
  cases h with
  | calls hclient hcalled hopen => exact Vigilant.set_runs hwatched hopen
  | @acts _ _ _ _ t task _ _ _ _ _ _ hclient haction _ _ _ hexit _ =>
    have hopen := Vigilant.opened hwatched (Or.inl hclient)
    have hturned := Vigilant.turned hwatched (DBImpl.perform_turned hexit) haction
    apply hturned.set (fun _ => Vigilant.behind task)
    split
    · exact hopen
    · exact hopen
  | waits hclient haction _ _ _ hexit _ =>
    apply Vigilant.set hwatched (fun _ _ => DBImpl.perform_waits hexit)
    exact Vigilant.opened hwatched (Or.inl hclient)
  | killed => trivial
  | stuck => exact hwatched
  | drains hclient _ =>
    exact Vigilant.set hwatched (fun _ => Vigilant.behind .drain)
      (Vigilant.opened hwatched (Or.inl hclient))
  | captures hclient _ =>
    exact Vigilant.set_runs hwatched (Vigilant.opened hwatched (Or.inl hclient))
  | asks => exact hwatched
  | answers hclient _ _ =>
    exact Vigilant.set_idle hwatched (Vigilant.opened hwatched (Or.inl hclient))
  | wakes hclient => exact Vigilant.set_runs hwatched (Vigilant.opened hwatched (Or.inr hclient))

theorem not_sleeps_woken {task : Task} {clients : List Client} :
    .sleeps task ∉ clients.map Client.woken := by
  intro hmem
  obtain ⟨c, _, hwoken⟩ := List.mem_map.mp hmem
  cases c <;> cases hwoken

theorem Process.BackgroundStep.watched {given : Conditions} {p p' : Process}
    {label : Option Deed} (h : BackgroundStep given p label p') (hwatched : p.Watched) :
    p'.Watched := by
  cases h with
  | @round db _ _ _ t _ _ _ _ _ _ hopen _ _ _ hexit _ =>
    have hkept : (if db.imm.isSome then t.notifyClients else t).shuttingDown = false := by
      split
      · exact hopen
      · exact hopen
    refine ⟨fun task hmem => ?_, fun hback => (by cases hback), fun hback => (by cases hback),
      fun hclosing => ?_⟩
    · -- whoever slept had something to wait for, and so all have been woken
      split at hmem
      · exact absurd hmem not_sleeps_woken
      · rename_i hnone
        exact absurd (Vigilant.pending hwatched task hmem) hnone
    · change (if db.imm.isSome then t.notifyClients else t).shuttingDown = true at hclosing
      rw [hkept] at hclosing
      cases hclosing
  | roundKilled => trivial
  | roundStuck => exact hwatched
  | rests _ hopen hdue =>
    exact ⟨hwatched.pending, fun _ => ⟨hdue, hopen⟩, fun hback => (by cases hback),
      fun hclosing => ⟨(hwatched.closing hclosing).1, fun hback => (by cases hback)⟩⟩
  | leaves _ hclosing =>
    exact ⟨hwatched.pending, fun hback => (by cases hback), fun _ => hclosing,
      fun hclosing => ⟨(hwatched.closing hclosing).1, fun hback => (by cases hback)⟩⟩

theorem Process.Step.watched {given : Conditions} {p p' : Process} {label : Option Deed}
    (h : Step given options p label p') (hwatched : p.Watched) : p'.Watched := by
  cases h with
  | opened callers =>
    refine ⟨fun task hmem => ?_, fun hback => ?_, fun hback => ?_, fun hclosing => ?_⟩
    · cases (List.mem_replicate.mp hmem).2
    · cases hback
    · cases hback
    · cases hclosing
  | refused => trivial
  | openKilled => trivial
  | openStuck => trivial
  | client index h => exact h.watched hwatched
  | background h => exact h.watched hwatched
  | backgroundWakes => exact Vigilant.notifyBackground hwatched
  | @closes db _ _ t hidle hfree =>
    have hnotified := Vigilant.notifyBackground hwatched
    refine ⟨hnotified.pending, fun hsleeps => ?_, fun _ => rfl, fun _ => ⟨hidle, fun hholds => ?_⟩⟩
    · unfold Threads.notifyBackground at hsleeps
      simp only at hsleeps
      split at hsleeps
      · cases hsleeps
      · contradiction
    · unfold Threads.notifyBackground at hholds
      simp only at hholds
      split at hholds
      · cases hholds
      · exact hfree hholds
  | joined => trivial
  | stopped => trivial

theorem process_watched {given : Conditions} {seen : List Deed} {p : Process}
    (hrun : (process given options).Run seen p) : p.Watched := by
  apply hrun.invariant
  · rintro _ ⟨dir, _, rfl⟩
    trivial
  · exact fun _ _ _ hwatched hstep => Process.Step.watched hstep hwatched

/-! Endless runs. -/

def Process.client (index : Nat) : Process → Option Client
  | .down _ => none
  | .up _ _ _ t => t.clients[index]?

def Process.background : Process → Option Background
  | .down _ => none
  | .up _ _ _ t => some t.background

def Process.closing : Process → Bool
  | .down _ => false
  | .up _ _ _ t => t.shuttingDown

def Process.Ready (p : Process) : Prop := p.background = some .wakes ∨ p.background = some .holds

/-- A process that goes on for ever. Where the background thread is ready from some time on, it
gets its turn. -/
structure Endless (given : Conditions) (options : Options) (run : Nat → Process)
    (labels : Nat → Option Deed) : Prop where
  start : ∃ seen, (process given options).Run seen (run 0)
  step : ∀ n, Process.Step given options (run n) (labels n) (run (n + 1))
  up : ∀ n, (run n).background ≠ none
  defined : ∀ n, labels n ≠ some .undefined
  fair : ∀ n, (∀ m ≥ n, (run m).Ready) →
    ∃ m ≥ n, Process.BackgroundStep given (run m) (labels m) (run (m + 1))

section Turns

variable {given : Conditions} {p p' : Process} {label : Option Deed} {index : Nat} {task : Task}

theorem Threads.client_notified {t : Threads} (hsleeps : t.clients[index]? = some (.sleeps task)) :
    t.notifyClients.clients[index]? = some (.runs task) := by
  simp [notifyClients, hsleeps, Client.woken]

theorem Process.ClientStep.sleeper {other : Nat} (h : ClientStep given other p label p')
    (hup : p'.background ≠ none) (hsleeps : p.client index = some (.sleeps task)) :
    p'.client index = some (.sleeps task) ∨ p'.client index = some (.runs task) := by
  -- the step of a caller that does not sleep is not the sleeper's
  have hother : ∀ {clients : List Client} {c : Client} (c' : Client), clients[other]? = some c →
      (c = .idle ∨ ∃ task, c = .runs task) → clients[index]? = some (.sleeps task) →
      (clients.set other c')[index]? = some (.sleeps task) := by
    intro clients c c' hc hawake hindex
    have hne : other ≠ index := by
      rintro rfl
      rw [hc] at hindex
      rcases hawake with rfl | ⟨task, rfl⟩ <;> cases hindex
    simpa [hne] using hindex
  cases h with
  | calls hclient => exact Or.inl (hother _ hclient (Or.inl rfl) hsleeps)
  | @acts db db' _ _ t task' action _ _ _ _ _ hclient =>
    have hsame : (if db.switches action then t.notifyBackground else t).clients = t.clients := by
      split
      · rfl
      · rfl
    have hkept := hother (task'.behind db') hclient (Or.inr ⟨_, rfl⟩) hsleeps
    rw [← hsame] at hkept
    exact Or.inl hkept
  | waits hclient => exact Or.inl (hother _ hclient (Or.inr ⟨_, rfl⟩) hsleeps)
  | killed => exact absurd rfl hup
  | stuck => exact Or.inl hsleeps
  | drains hclient => exact Or.inl (hother _ hclient (Or.inr ⟨_, rfl⟩) hsleeps)
  | captures hclient => exact Or.inl (hother _ hclient (Or.inr ⟨_, rfl⟩) hsleeps)
  | asks => exact Or.inl hsleeps
  | answers hclient => exact Or.inl (hother _ hclient (Or.inr ⟨_, rfl⟩) hsleeps)
  | @wakes _ _ _ t task' hclient =>
    by_cases heq : other = index
    · subst heq
      change t.clients[other]? = _ at hsleeps
      rw [hclient] at hsleeps
      cases hsleeps
      have hlt := (List.getElem?_eq_some_iff.mp hclient).1
      exact Or.inr (by simp [Process.client, Threads.set, hlt])
    · exact Or.inl (by simpa [Process.client, Threads.set, heq] using hsleeps)

theorem Process.BackgroundStep.wakes_sleeper (h : BackgroundStep given p label p')
    (hwatched : p.Watched) (hup : p'.background ≠ none) (hdefined : label ≠ some .undefined)
    (hsleeps : p.client index = some (.sleeps task)) : p'.client index = some (.runs task) := by
  cases h with
  | @round db _ _ _ t =>
    have hpending : db.imm.isSome := hwatched.pending task (List.mem_of_getElem? hsleeps)
    rw [if_pos hpending]
    exact Threads.client_notified hsleeps
  | roundKilled => exact absurd rfl hup
  | roundStuck => exact absurd rfl hdefined
  | @rests db _ _ _ _ _ hdue =>
    have hpending : db.imm.isSome := hwatched.pending task (List.mem_of_getElem? hsleeps)
    simp [DBImpl.due, hpending] at hdue
  | leaves _ hclosing => cases (hwatched.closing hclosing).1 _ (List.mem_of_getElem? hsleeps)

theorem Process.Step.sleeper (h : Step given options p label p') (hwatched : p.Watched)
    (hup : p'.background ≠ none) (hdefined : label ≠ some .undefined)
    (hsleeps : p.client index = some (.sleeps task)) :
    p'.client index = some (.sleeps task) ∨ p'.client index = some (.runs task) := by
  cases h with
  | client other h => exact h.sleeper hup hsleeps
  | background h => exact Or.inr (h.wakes_sleeper hwatched hup hdefined hsleeps)
  | backgroundWakes => exact Or.inl hsleeps
  | closes => exact Or.inl hsleeps
  | opened => cases hsleeps
  | _ => exact absurd rfl hup

theorem Process.Step.stays_closing (h : Step given options p label p')
    (hup : p'.background ≠ none) (hclosing : p.closing = true) : p'.closing = true := by
  cases h with
  | client other h =>
    cases h with
    | @acts db _ _ _ t _ action =>
      change (if db.switches action then t.notifyBackground else t).shuttingDown = true
      split
      · exact hclosing
      · exact hclosing
    | killed => exact absurd rfl hup
    | _ => exact hclosing
  | background h =>
    cases h with
    | @round db _ _ _ t _ _ _ _ _ _ hopen =>
      change t.shuttingDown = true at hclosing
      rw [hopen] at hclosing
      cases hclosing
    | roundKilled => exact absurd rfl hup
    | _ => exact hclosing
  | backgroundWakes => exact hclosing
  | closes => rfl
  | opened => cases hclosing
  | _ => exact absurd rfl hup

end Turns

namespace Endless

variable {given : Conditions} {run : Nat → Process} {labels : Nat → Option Deed} {n index : Nat}
  {task : Task} (h : Endless given options run labels)
include h

theorem reaches (n : Nat) : ∃ seen, (process given options).Run seen (run n) := by
  induction n with
  | zero => exact h.start
  | succ n ih =>
    obtain ⟨seen, hrun⟩ := ih
    exact ⟨_, hrun.step (h.step n)⟩

theorem watched (n : Nat) : (run n).Watched := by
  obtain ⟨seen, hrun⟩ := h.reaches n
  exact process_watched hrun

theorem sleeps_on (hsleeps : (run n).client index = some (.sleeps task))
    (hnever : ∀ m > n, (run m).client index ≠ some (.runs task)) (m : Nat) (hm : n ≤ m) :
    (run m).client index = some (.sleeps task) := by
  induction m, hm using Nat.le_induction with
  | base => exact hsleeps
  | succ m hm ih =>
    have hnext := (h.step m).sleeper (h.watched m) (h.up (m + 1)) (h.defined m) ih
    exact hnext.resolve_right (hnever (m + 1) (by omega))

theorem ready_of_sleeper (hsleeps : (run n).client index = some (.sleeps task)) :
    (run n).Ready := by
  have hwatched := h.watched n
  cases hp : run n with
  | down dir =>
    rw [hp] at hsleeps
    cases hsleeps
  | up db dir reads t =>
    rw [hp] at hwatched hsleeps
    have hmem := List.mem_of_getElem? hsleeps
    have hpending : db.imm.isSome := hwatched.pending task hmem
    cases hback : t.background with
    | wakes => exact Or.inl (congrArg some hback)
    | holds => exact Or.inr (congrArg some hback)
    | sleeps =>
      have hidle := (hwatched.resting hback).1
      simp [DBImpl.due, hpending] at hidle
    | ended => cases (hwatched.closing (hwatched.ended hback)).1 _ hmem

theorem sleeper_is_woken (hsleeps : (run n).client index = some (.sleeps task)) :
    ∃ m > n, (run m).client index = some (.runs task) := by
  by_contra hnone
  have hnever : ∀ m > n, (run m).client index ≠ some (.runs task) :=
    fun m hm hruns => hnone ⟨m, hm, hruns⟩
  have hasleep := h.sleeps_on hsleeps hnever
  obtain ⟨m, hm, hturn⟩ := h.fair n fun m hm => h.ready_of_sleeper (hasleep m hm)
  apply hnever (m + 1) (by omega)
  exact hturn.wakes_sleeper (h.watched m) (h.up (m + 1)) (h.defined m) (hasleep m hm)

theorem closing_ends (hclosing : (run n).closing = true) :
    ∃ m ≥ n, (run m).background = some .ended := by
  by_contra hnone
  have hstays : ∀ m ≥ n, (run m).closing = true := by
    intro m hm
    induction m, hm using Nat.le_induction with
    | base => exact hclosing
    | succ m hm ih => exact (h.step m).stays_closing (h.up (m + 1)) ih
  have hwakes : ∀ m ≥ n, (run m).background = some .wakes := by
    intro m hm
    have hwatched := h.watched m
    have hclosed := hstays m hm
    have hgoes : (run m).background ≠ some .ended := fun hended => hnone ⟨m, hm, hended⟩
    cases hp : run m with
    | down dir => exact absurd (congrArg Process.background hp) (h.up m)
    | up db dir reads t =>
      rw [hp] at hwatched hclosed hgoes
      change some t.background = _
      cases hback : t.background with
      | wakes => rfl
      | holds => exact absurd hback (hwatched.closing hclosed).2
      | sleeps =>
        have hopen := (hwatched.resting hback).2
        change t.shuttingDown = true at hclosed
        rw [hopen] at hclosed
        cases hclosed
      | ended => exact absurd (congrArg some hback) hgoes
  obtain ⟨m, hm, hturn⟩ := h.fair n fun m hm => Or.inl (hwakes m hm)
  have hclosed := hstays m hm
  have hnext := hwakes (m + 1) (by omega)
  generalize run m = p, labels m = label, run (m + 1) = p' at hturn hclosed hnext
  cases hturn with
  | round _ hopen => simp [Process.closing, hopen] at hclosed
  | roundKilled => cases hnext
  | roundStuck _ hopen => simp [Process.closing, hopen] at hclosed
  | rests _ hopen => simp [Process.closing, hopen] at hclosed
  | leaves => cases hnext

end Endless

/-! Without failures the background thread comes to rest. -/

def Process.database : Process → Option DBImpl
  | .down _ => none
  | .up db _ _ _ => some db

theorem Process.Step.held {given : Conditions} {p p' : Process} {label : Option Deed}
    (h : Step given options p label p') (hholds : p.background = some .holds)
    (hup : p'.background ≠ none) : p'.database = p.database ∨ BackgroundStep given p label p' := by
  cases h with
  | client index h =>
    have hbusy : ∀ {t : Threads}, some t.background = some .holds → ¬ t.background ≠ .holds :=
      fun hback hfree => hfree (Option.some.inj hback)
    cases h with
    | acts _ _ hfree => exact absurd hfree (hbusy hholds)
    | killed => exact absurd rfl hup
    | _ => exact Or.inl rfl
  | background h => exact Or.inr h
  | backgroundWakes => exact Or.inl rfl
  | closes => exact Or.inl rfl
  | opened => cases hholds
  | _ => exact absurd rfl hup

theorem Process.inService (hcreate : options.createIfMissing = true)
    (hexists : options.errorIfExists = false) {seen : List Deed} {reads : List PendingRead}
    {t : Threads} (hrun : (process calm options).Run seen (.up db dir reads t)) :
    ∃ loose all M, M.dir = dir ∧ InService loose all db M := by
  obtain ⟨world, hworld, rfl⟩ := process_simulates.run hrun
  obtain ⟨ideal, _, all, _, _, ⟨loose, M, hdir, hservice⟩, _⟩ :=
    (database_simulates hcreate hexists).run hworld
  exact ⟨loose, all, M, hdir, hservice⟩

theorem InService.round_compacts {loose : Prop} {all : List Entry} {M : Medium FileName}
    {fate : List Outcome} (hservice : InService loose all db M) (hnone : db.imm = none)
    (hdue : db.due = true)
    (hexit : db.perform .backgroundCompaction (machineOn M.dir fate) =
      .done (some (status, db')) after trace)
    (hsteady : ∀ e ∈ trace, steady.events e) :
    CompactionRound db.options db.versions db'.versions := by
  obtain ⟨m, r, olds, records, hserving, _⟩ := hservice
  obtain ⟨db₃, _, front, _, hround, hlast, rfl⟩ := Sys.split_bind_done hexit
  cases hlast
  unfold DBImpl.backgroundCompaction at hround
  obtain ⟨⟨status₁, db₁⟩, _, first, back, hflush, hbehind, rfl⟩ := Sys.split_bind_done hround
  have hsame : db.flushImmutable = pure (.ok, db) := by simp only [DBImpl.flushImmutable, hnone]
  rw [hsame] at hflush
  cases hflush
  obtain ⟨⟨status₂, db₂⟩, _, middle, last, hmajor, hrest, rfl⟩ := Sys.split_bind_done hbehind
  obtain ⟨_, _, _, _, _, hlast⟩ := Sys.of_bind_done hrest
  cases hlast
  have hok := (@Serving.majorCompaction _ _ _ _ _ _ _ _ hserving (fun _ => True) trivial).done hmajor rfl rfl
    fun e he => hsteady e (by simp [he])
  obtain ⟨_, hstatus, _⟩ := hok
  change status₂ = .ok at hstatus
  subst hstatus
  unfold DBImpl.majorCompaction at hmajor
  cases hpick : Compaction.pickCompaction db.options db.versions.current with
  | none => simp [DBImpl.due, hnone, hpick] at hdue
  | some c =>
    simp only [hpick] at hmajor
    obtain ⟨⟨status', versions⟩, _, _, _, hcompact, hlast⟩ := Sys.of_bind_done hmajor
    cases hlast
    exact ⟨c, _, _, _, hpick, hcompact⟩

namespace Endless

variable {run : Nat → Process} {labels : Nat → Option Deed} (h : Endless calm options run labels)
  (hcreate : options.createIfMissing = true) (hexists : options.errorIfExists = false)
include h hcreate hexists

theorem round_shrinks {n : Nat}
    (hround : Process.BackgroundStep calm (run n) (labels n) (run (n + 1)))
    (hholds : (run (n + 1)).background = some .holds) :
    ∃ db db', (run n).database = some db ∧ (run (n + 1)).database = some db' ∧ db'.imm = none ∧
      (db.imm = none → db'.versions.current.counts < db.versions.current.counts) := by
  have hservice : ∀ {db dir reads t}, run n = .up db dir reads t →
      ∃ loose all M, M.dir = dir ∧ InService loose all db M := by
    intro db dir reads t hp
    obtain ⟨seen, hrun⟩ := h.reaches n
    rw [hp] at hrun
    exact Process.inService hcreate hexists hrun
  have hdefined := h.defined n
  generalize run n = p, labels n = label, run (n + 1) = p' at hround hholds hservice hdefined
  cases hround with
  | @round db db' dir reads t faults fate status after trace _ _ hdue _ hfaults hexit hcalls =>
    obtain rfl := hfaults
    have himm := (DBImpl.perform_turned hexit).imm
    refine ⟨db, db', rfl, rfl, by simpa [DBImpl.switches] using himm, fun hnone => ?_⟩
    obtain ⟨loose, all, M, rfl, hserves⟩ := hservice rfl
    exact (hserves.round_compacts hnone hdue hexit hcalls).counts_lt
  | roundKilled => cases hholds
  | roundStuck => exact absurd rfl hdefined
  | rests => cases hholds
  | leaves => cases hholds

theorem mutex_is_freed (n : Nat) : ∃ m ≥ n, (run m).background ≠ some .holds := by
  by_contra hnone
  have hholds : ∀ m ≥ n, (run m).background = some .holds := by
    intro m hm
    by_contra hfree
    exact hnone ⟨m, hm, hfree⟩
  have hready : ∀ m ≥ n, ∀ k ≥ m, (run k).Ready := fun m hm k hk => Or.inr (hholds k (hm.trans hk))
  have hstep : ∀ m ≥ n, (run (m + 1)).database = (run m).database ∨
      Process.BackgroundStep calm (run m) (labels m) (run (m + 1)) :=
    fun m hm => (h.step m).held (hholds m hm) (h.up (m + 1))
  obtain ⟨first, hfirst, hturn⟩ := h.fair n (hready n (le_refl n))
  obtain ⟨_, db, _, hdb, himm, _⟩ :=
    h.round_shrinks hcreate hexists hturn (hholds _ (by omega))
  -- from here on there is no memtable to flush, and the counts never go up
  have hflushed : ∀ m ≥ first + 1, ∃ db, (run m).database = some db ∧ db.imm = none := by
    intro m hm
    induction m, hm using Nat.le_induction with
    | base => exact ⟨db, hdb, himm⟩
    | succ m hm ih =>
      rcases hstep m (by omega) with hsame | hround
      · rw [hsame]
        exact ih
      · obtain ⟨_, db', _, hdb', himm', _⟩ :=
          h.round_shrinks hcreate hexists hround (hholds _ (by omega))
        exact ⟨db', hdb', himm'⟩
  have hshrinks : ∀ m ≥ first + 1, ∀ db db', (run m).database = some db → (run (m + 1)).database = some db' →
      db'.versions.current.counts ≤ db.versions.current.counts ∧
      (Process.BackgroundStep calm (run m) (labels m) (run (m + 1)) →
        db'.versions.current.counts < db.versions.current.counts) := by
    intro m hm db db' hdb hdb'
    have hlt : Process.BackgroundStep calm (run m) (labels m) (run (m + 1)) →
        db'.versions.current.counts < db.versions.current.counts := by
      intro hround
      obtain ⟨db₁, db₁', hdb₁, hdb₁', _, hlt⟩ :=
        h.round_shrinks hcreate hexists hround (hholds _ (by omega))
      obtain ⟨db₂, hdb₂, himm₂⟩ := hflushed m hm
      rw [hdb] at hdb₁ hdb₂
      rw [hdb'] at hdb₁'
      cases hdb₁
      cases hdb₁'
      cases hdb₂
      exact hlt himm₂
    refine ⟨?_, hlt⟩
    rcases hstep m (by omega) with hsame | hround
    · rw [hdb, hdb'] at hsame
      cases hsame
      exact le_refl _
    · exact le_of_lt (hlt hround)
  have hfalls : ∀ m ≥ first + 1, ∀ k ≥ m, ∀ db db', (run m).database = some db → (run k).database = some db' →
      db'.versions.current.counts ≤ db.versions.current.counts := by
    intro m hm k hk
    induction k, hk using Nat.le_induction with
    | base =>
      intro db db' hdb hdb'
      rw [hdb] at hdb'
      cases hdb'
      exact le_refl _
    | succ k hk ih =>
      intro db db' hdb hdb'
      obtain ⟨middle, hmiddle, _⟩ := hflushed k (by omega)
      exact ((hshrinks k (by omega) middle db' hmiddle hdb').1).trans (ih db middle hdb hmiddle)
  have hnever : ∀ counts : Lex (Fin 6 → Nat), ∀ m ≥ first + 1, ∀ db, (run m).database = some db →
      db.versions.current.counts ≠ counts := by
    intro counts
    induction counts using WellFoundedLT.induction with
    | ind counts ih =>
      intro m hm db hdb hcounts
      obtain ⟨k, hk, hturn⟩ := h.fair m (hready m (by omega))
      obtain ⟨middle, hmiddle, _⟩ := hflushed k (by omega)
      obtain ⟨last, hlast, _⟩ := hflushed (k + 1) (by omega)
      have hle := hfalls m hm k hk db middle hdb hmiddle
      have hlt := (hshrinks k (by omega) middle last hmiddle hlast).2 hturn
      exact ih _ (hcounts ▸ lt_of_lt_of_le hlt hle) (k + 1) (by omega) last hlast rfl
  exact hnever _ (first + 1) (le_refl _) db hdb rfl

end Endless

/-- Two writes, of which the second switches the memtables, a third that waits, and the round
that wakes it. -/
def thirdPutSleeps : Bool :=
  (openDB tinyTables (machineOn ∅ [])).returns fun result before trace₀ =>
    result.2.any fun db₀ => steadyTrace trace₀ && decide (firstPut.Granted db₀) &&
    (db₀.perform firstPut (machineOn before [])).returns fun first after₁ trace₁ =>
      first.any fun db₁ => steadyTrace trace₁ && decide (firstPut.Granted db₁.2) &&
      (db₁.2.perform firstPut (machineOn after₁ [])).returns fun second after₂ trace₂ =>
        second.any fun db₂ => steadyTrace trace₂ && decide (firstPut.Granted db₂.2) &&
        (db₂.2.perform firstPut (machineOn after₂ [])).returns fun third after₃ trace₃ =>
          third.isNone && steadyTrace trace₃ && db₂.2.imm.isSome &&
          (db₂.2.perform .backgroundCompaction (machineOn after₃ [])).returns
            fun round _ trace₄ => steadyTrace trace₄ && round.any fun db₃ => !db₃.2.due

def restless (db : DBImpl) (dir : Dir) (t : Threads) (n : Nat) : Process :=
  .up db dir [] { t with background := if n % 2 = 0 then .sleeps else .wakes }

/-- A process in front of a round, behind it, and then with nothing to do. -/
def behindRound (first : Process) (db : DBImpl) (dir : Dir) (t : Threads) : Nat → Process
  | 0 => first
  | 1 => .up db dir [] t
  | n + 2 => restless db dir t n

theorem restless_step {db : DBImpl} {dir : Dir} {t : Threads} (hidle : db.due = false)
    (hopen : t.shuttingDown = false) (n : Nat) :
    Process.Step calm options (restless db dir t n) none (restless db dir t (n + 1)) := by
  unfold restless
  by_cases heven : n % 2 = 0
  · have hodd : ¬ (n + 1) % 2 = 0 := by omega
    rw [if_pos heven, if_neg hodd]
    exact .backgroundWakes
  · have heven' : (n + 1) % 2 = 0 := by omega
    rw [if_neg heven, if_pos heven']
    exact .background (.rests (Or.inl rfl) hopen hidle)

def sleepyPut : Task := .write kTypeValue [97] [49]

/-- One caller that has nothing to do, with the background thread on its way to the mutex. -/
def oneCaller : Threads := ⟨[.idle], .wakes, false⟩

theorem put_by_oneCaller {seen : List Deed} {fate : List Outcome}
    (hrun : (process calm options).Run seen (.up db dir [] oneCaller))
    (hgranted : firstPut.Granted db)
    (hexit : db.perform firstPut (machineOn dir fate) = .done (some (status, db')) after trace)
    (hsteady : steadyTrace trace = true) :
    ∃ seen, (process calm options).Run seen (.up db' after.dir [] oneCaller) := by
  have hcalled := hrun.step (.client 0 (@Process.ClientStep.calls calm 0 _ _ _ _ sleepyPut rfl
    trivial rfl))
  have hdid := hcalled.step (.client 0 (.acts rfl rfl (fun hback => by cases hback) hgranted rfl
    hexit (steady_of_steadyTrace hsteady)))
  refine ⟨_, cast (congrArg _ ?_) hdid⟩
  congr 1
  split
  · rfl
  · rfl

set_option maxRecDepth 8192 in
theorem thirdPut_endless : ∃ run labels, Endless calm tinyTables run labels ∧
    (run 0).client 0 = some (.sleeps sleepyPut) := by
  have hplay : thirdPutSleeps = true := by decide +kernel
  have hstart : (process calm tinyTables).Run [] (.down ∅) :=
    .start ⟨∅, bare_empty, rfl⟩
  obtain ⟨⟨status₀, _ | db₀⟩, before, trace₀, hopen, hplay⟩ := Exit.of_returns hplay
  · cases hplay
  simp only [Option.any_some, Bool.and_eq_true, decide_eq_true_eq] at hplay
  obtain ⟨⟨hsteady₀, hgranted₀⟩, hplay⟩ := hplay
  obtain ⟨_ | ⟨status₁, db₁⟩, after₁, trace₁, hfirst, hplay⟩ := Exit.of_returns hplay
  · cases hplay
  simp only [Option.any_some, Bool.and_eq_true, decide_eq_true_eq] at hplay
  obtain ⟨⟨hsteady₁, hgranted₁⟩, hplay⟩ := hplay
  obtain ⟨_ | ⟨status₂, db₂⟩, after₂, trace₂, hsecond, hplay⟩ := Exit.of_returns hplay
  · cases hplay
  simp only [Option.any_some, Bool.and_eq_true, decide_eq_true_eq] at hplay
  obtain ⟨⟨hsteady₂, hgranted₂⟩, hplay⟩ := hplay
  obtain ⟨third, after₃, trace₃, hthird, hplay⟩ := Exit.of_returns hplay
  simp only [Bool.and_eq_true, Option.isNone_iff_eq_none] at hplay
  obtain ⟨⟨⟨rfl, hsteady₃⟩, hpending⟩, hplay⟩ := hplay
  obtain ⟨_ | ⟨status₄, db₄⟩, after₄, trace₄, hround, hplay⟩ := Exit.of_returns hplay
  · simp at hplay
  simp only [Option.any_some, Bool.and_eq_true, Bool.not_eq_true'] at hplay
  obtain ⟨hsteady₄, hidle⟩ := hplay
  obtain ⟨seen₁, hput₁⟩ := put_by_oneCaller
    (hstart.step (.opened 1 rfl hopen (steady_of_steadyTrace hsteady₀))) hgranted₀ hfirst hsteady₁
  obtain ⟨seen₂, hput₂⟩ := put_by_oneCaller hput₁ hgranted₁ hsecond hsteady₂
  have hcalled := hput₂.step (.client 0 (@Process.ClientStep.calls calm 0 _ _ _ _ sleepyPut rfl
    trivial rfl))
  have hwaits := hcalled.step (.client 0 (.waits rfl rfl (fun hback => by cases hback) hgranted₂ rfl
    hthird (steady_of_steadyTrace hsteady₃)))
  have hdue : db₂.due = true := by simp [DBImpl.due, hpending]
  have hturn : Process.BackgroundStep calm
      (.up db₂ after₃.dir [] ⟨[.sleeps sleepyPut], .wakes, false⟩)
      (some (.did .backgroundCompaction status₄))
      (.up db₄ after₄.dir [] ⟨[.runs sleepyPut], .holds, false⟩) := by
    have hstep := @Process.BackgroundStep.round calm _ _ _ [] ⟨[.sleeps sleepyPut], .wakes, false⟩
      _ _ _ _ _ (Or.inl rfl) rfl hdue trivial rfl hround (steady_of_steadyTrace hsteady₄)
    rw [if_pos hpending] at hstep
    exact hstep
  refine ⟨behindRound (.up db₂ after₃.dir [] ⟨[.sleeps sleepyPut], .wakes, false⟩) db₄ after₄.dir
      ⟨[.runs sleepyPut], .holds, false⟩,
    fun n => if n = 0 then some (.did .backgroundCompaction status₄) else none,
    ⟨⟨_, hwaits⟩, fun n => ?_, fun n => ?_, fun n => ?_, fun n hready => ?_⟩, rfl⟩
  · rcases n with _ | _ | n
    · exact .background hturn
    · exact .background (.rests (Or.inr rfl) rfl hidle)
    · exact restless_step hidle rfl n
  · rcases n with _ | _ | n <;> exact Option.some_ne_none _
  · split
    · exact fun h => by cases h
    · exact fun h => by cases h
  · have hasleep := hready (2 * n + 2) (by omega)
    rcases hasleep with hback | hback <;> simp [behindRound, restless, Process.background] at hback

end Strata
