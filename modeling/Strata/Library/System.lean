import Mathlib.Data.List.AList

/-! A process over a directory of files. Every call that changes the directory
takes the next outcome of the environment: it succeeds, it fails after some of
its bytes took effect, or the process is killed there. The rules below give
pre- and postconditions to such programs, with a third condition for the
directory that a kill leaves behind. -/
namespace Strata.Library.System

abbrev Directory (ν : Type) := AList fun _ : ν => List UInt8

/-- What becomes of one call. The number counts the bytes of a write that
reached the file before the failure or the kill. -/
inductive Outcome where
  | ok
  | fail (written : Nat)
  | kill (written : Nat)
  deriving DecidableEq, Repr

/-- The calls a run made, in order. `create` makes a file empty, `openAppend` leaves
the one there is. A write keeps the length of the file in front of it. -/
inductive Call (ν : Type) where
  | create (name : ν)
  | openAppend (name : ν)
  | append (name : ν) (offset : Nat) (data : List UInt8)
  | sync (name : ν)
  | syncDirectory
  | rename (source target : ν)
  | unlink (name : ν)
  deriving DecidableEq, Repr

structure Event (ν : Type) where
  call : Call ν
  outcome : Outcome
  deriving DecidableEq, Repr

/-- `faults name = some n` makes every read of that file fail from byte `n` on. -/
structure Machine (ν : Type) where
  dir : Directory ν
  faults : ν → Option Nat
  fate : List Outcome

/-- A run ends by returning, by a kill, or in a state the source gives no
meaning to. All three keep the calls made so far. -/
inductive Exit (ν α : Type) where
  | done (value : α) (machine : Machine ν) (trace : List (Event ν))
  | killed (dir : Directory ν) (trace : List (Event ν))
  | stuck (trace : List (Event ν))

def Exit.trace {ν α : Type} : Exit ν α → List (Event ν)
  | .done _ _ trace => trace
  | .killed _ trace => trace
  | .stuck trace => trace

def Event.Fatal {ν : Type} (e : Event ν) : Prop := ∃ n, e.outcome = .kill n

/-- The run returned, and what it returned passes the test. -/
def Exit.returns {ν α : Type} (test : α → Directory ν → List (Event ν) → Bool) :
    Exit ν α → Bool
  | .done value machine trace => test value machine.dir trace
  | _ => false

theorem Exit.of_returns {ν α : Type} {exit : Exit ν α}
    {test : α → Directory ν → List (Event ν) → Bool} (h : exit.returns test = true) :
    ∃ value machine trace, exit = .done value machine trace ∧
      test value machine.dir trace = true := by
  cases exit with
  | done value machine trace => exact ⟨value, machine, trace, rfl, h⟩
  | killed dir trace => cases h
  | stuck trace => cases h

def Sys (ν α : Type) := Machine ν → Exit ν α

namespace Sys

variable {ν α β : Type}

def ret (value : α) : Sys ν α := fun machine => .done value machine []

def andThen (program : Sys ν α) (next : α → Sys ν β) : Sys ν β := fun machine =>
  match program machine with
  | .killed dir trace => .killed dir trace
  | .stuck trace => .stuck trace
  | .done value machine trace =>
    match next value machine with
    | .killed dir later => .killed dir (trace ++ later)
    | .stuck later => .stuck (trace ++ later)
    | .done value machine later => .done value machine (trace ++ later)

instance : Monad (Sys ν) where
  pure := ret
  bind := andThen

theorem pure_bind (value : α) (next : α → Sys ν β) : (pure value >>= next) = next value := by
  funext machine
  change andThen (ret value) next machine = next value machine
  unfold andThen ret
  cases hexit : next value machine with
  | done result after later => simp [hexit]
  | killed left later => simp [hexit]
  | stuck later => simp [hexit]

theorem bind_assoc {γ : Type} (program : Sys ν α) (next : α → Sys ν β) (last : β → Sys ν γ) :
    (program >>= next >>= last) = (program >>= fun value => next value >>= last) := by
  funext machine
  change andThen (andThen program next) last machine =
    andThen program (fun value => andThen (next value) last) machine
  unfold andThen
  cases program machine with
  | killed left trace => rfl
  | stuck trace => rfl
  | done value after trace =>
    cases hnext : next value after with
    | killed left later => simp [hnext]
    | stuck later => simp [hnext]
    | done result final later =>
      cases hlast : last result final with
      | done => simp [hnext, hlast]
      | killed => simp [hnext, hlast]
      | stuck => simp [hnext, hlast]

theorem split_bind_done {program : Sys ν α} {next : α → Sys ν β} {machine after : Machine ν}
    {value : β} {trace : List (Event ν)}
    (h : (program >>= next) machine = .done value after trace) :
    ∃ middle between front back, program machine = .done middle between front ∧
      next middle between = .done value after back ∧ trace = front ++ back := by
  change andThen program next machine = _ at h
  unfold andThen at h
  cases hexit : program machine with
  | killed left front => simp [hexit] at h
  | stuck front => simp [hexit] at h
  | done middle between front =>
    simp only [hexit] at h
    cases hlast : next middle between with
    | killed left back => simp [hlast] at h
    | stuck back => simp [hlast] at h
    | done result last back =>
      simp only [hlast] at h
      cases h
      exact ⟨middle, between, front, back, rfl, hlast, rfl⟩

theorem of_bind_done {program : Sys ν α} {next : α → Sys ν β} {machine after : Machine ν}
    {value : β} {trace : List (Event ν)}
    (h : (program >>= next) machine = .done value after trace) :
    ∃ middle between front back, program machine = .done middle between front ∧
      next middle between = .done value after back := by
  obtain ⟨middle, between, front, back, hfirst, hlast, _⟩ := split_bind_done h
  exact ⟨middle, between, front, back, hfirst, hlast⟩

/-- Two first parts that agree, and continuations that agree on all that they return. -/
theorem bind_congr {program program' : Sys ν α} {next next' : α → Sys ν β} {machine : Machine ν}
    (hfirst : program machine = program' machine)
    (h : ∀ value after trace, program' machine = .done value after trace →
      next value after = next' value after) :
    (program >>= next) machine = (program' >>= next') machine := by
  change andThen program next machine = andThen program' next' machine
  unfold andThen
  rw [hfirst]
  cases hexit : program' machine with
  | killed left trace => rfl
  | stuck trace => rfl
  | done value after trace => simp only [h value after trace hexit]

theorem bind_of_done {program : Sys ν α} {next : α → Sys ν β} {machine after : Machine ν}
    {value : α} (h : program machine = .done value after []) :
    (program >>= next) machine = next value after := by
  change andThen program next machine = _
  unfold andThen
  rw [h]
  simp only
  cases next value after <;> rfl

def stuck : Sys ν α := fun _ => .stuck []

def readDir : Sys ν (Directory ν) := fun machine => .done machine.dir machine []

def readFaults : Sys ν (ν → Option Nat) := fun machine => .done machine.faults machine []

theorem readDir_bind (next : Directory ν → Sys ν β) (machine : Machine ν) :
    (readDir >>= next) machine = next machine.dir machine := bind_of_done rfl

theorem readFaults_bind (next : (ν → Option Nat) → Sys ν β) (machine : Machine ν) :
    (readFaults >>= next) machine = next machine.faults machine := bind_of_done rfl

end Sys

variable {ν : Type}

namespace Sys

/-- One call: its effect on success, its effect when it is cut short, and what
it returns: nothing on success, or the bytes that took effect before it failed. -/
def call {α : Type} (this : Directory ν → Call ν) (whole : Directory ν → Directory ν)
    (cut : Nat → Directory ν → Directory ν) (result : Option Nat → α) : Sys ν α := fun machine =>
  match machine.fate with
  | [] =>
    .done (result none) { machine with dir := whole machine.dir } [⟨this machine.dir, .ok⟩]
  | .ok :: fate =>
    .done (result none) { machine with dir := whole machine.dir, fate := fate }
      [⟨this machine.dir, .ok⟩]
  | .fail n :: fate =>
    .done (result (some n)) { machine with dir := cut n machine.dir, fate := fate }
      [⟨this machine.dir, .fail n⟩]
  | .kill n :: _ => .killed (cut n machine.dir) [⟨this machine.dir, .kill n⟩]

end Sys

/-- What a statement assumes of the environment and of the calls made, and
whether it lets a run reach a state without a meaning. -/
structure Assume (ν : Type) where
  faults : (ν → Option Nat) → Prop
  events : Event ν → Prop
  stuck : Prop := False

/-- From `dir` the program is stuck only where that is assumed; it returns a
value and a directory satisfying `Q`, or one of its calls is killed and leaves a
directory satisfying `C`. -/
def Runs {α : Type} (assume : Assume ν) (dir : Directory ν) (program : Sys ν α)
    (Q : α → Directory ν → Prop) (C : Directory ν → Prop) : Prop :=
  ∀ machine : Machine ν, machine.dir = dir → assume.faults machine.faults →
    match program machine with
    | .done value after trace => (∀ e ∈ trace, assume.events e) →
        after.faults = machine.faults ∧ Q value after.dir
    | .killed left trace => (∀ e ∈ trace, assume.events e) →
        (∃ e ∈ trace, e.Fatal) ∧ C left
    | .stuck trace => (∀ e ∈ trace, assume.events e) → assume.stuck

namespace Assume

def calls (assume : Assume ν) (c : Call ν) : Prop := assume.events ⟨c, .ok⟩

def Sure (assume : Assume ν) (c : Call ν) : Prop := ∀ n, ¬ assume.events ⟨c, .fail n⟩

def NoFail (assume : Assume ν) : Prop := ∀ c, assume.Sure c

structure SureFile (assume : Assume ν) (name : ν) : Prop where
  create : assume.Sure (.create name)
  append : ∀ offset data, assume.Sure (.append name offset data)
  sync : assume.Sure (.sync name)

theorem NoFail.file {assume : Assume ν} (h : assume.NoFail) (name : ν) : assume.SureFile name :=
  ⟨h _, fun _ _ => h _, h _⟩

/-- No call fails and no kill comes; the reads fail as the given faults say. -/
def calm (faults : ν → Option Nat) : Assume ν :=
  ⟨fun now => now = faults, fun e => e.outcome = .ok, True⟩

/-- The reads fail as the given faults say, and the calls as they like. -/
def under (faults : ν → Option Nat) : Assume ν := ⟨fun now => now = faults, fun _ => True, True⟩

theorem calm_noFail (faults : ν → Option Nat) : (calm faults).NoFail :=
  fun _ _ h => nomatch h

def flawless : Assume ν := ⟨fun _ => True, fun e => e.outcome = .ok, False⟩

theorem flawless_noFail : (flawless : Assume ν).NoFail := fun _ _ h => nomatch h

/-- Nothing is assumed: any fault, any call with any outcome. -/
def any : Assume ν := ⟨fun _ => True, fun _ => True, False⟩

end Assume

namespace Runs

variable {α β : Type} {assume : Assume ν} {dir : Directory ν} {program : Sys ν α}
  {Q : α → Directory ν → Prop} {C : Directory ν → Prop}

theorem ret {value : α} (h : Q value dir) :
    Runs assume dir (pure value : Sys ν α) Q C := by
  intro machine hdir _ _
  subst hdir
  exact ⟨rfl, h⟩

theorem done {machine after : Machine ν} {value : α} {trace : List (Event ν)}
    (h : Runs assume machine.dir program Q C) (hfaults : assume.faults machine.faults)
    (hexit : program machine = .done value after trace) (htrace : ∀ e ∈ trace, assume.events e) :
    after.faults = machine.faults ∧ Q value after.dir := by
  have hrun := h machine rfl hfaults
  rw [hexit] at hrun
  exact hrun htrace

theorem killed {machine : Machine ν} {left : Directory ν} {trace : List (Event ν)}
    (h : Runs assume machine.dir program Q C) (hfaults : assume.faults machine.faults)
    (hexit : program machine = .killed left trace) (htrace : ∀ e ∈ trace, assume.events e) :
    C left := by
  have hrun := h machine rfl hfaults
  rw [hexit] at hrun
  exact (hrun htrace).2

theorem completes {machine : Machine ν} (h : Runs assume machine.dir program Q C)
    (hfaults : assume.faults machine.faults) (hstuck : ¬ assume.stuck)
    (htrace : ∀ e ∈ (program machine).trace, assume.events e ∧ ¬ e.Fatal) :
    ∃ value after trace, program machine = .done value after trace ∧
      after.faults = machine.faults ∧ Q value after.dir := by
  have hrun := h machine rfl hfaults
  cases hexit : program machine with
  | done value after trace =>
    rw [hexit] at hrun htrace
    exact ⟨value, after, trace, rfl, hrun fun e he => (htrace e he).1⟩
  | killed left trace =>
    rw [hexit] at hrun htrace
    obtain ⟨⟨e, he, hfatal⟩, _⟩ := hrun fun e he => (htrace e he).1
    exact absurd hfatal (htrace e he).2
  | stuck trace =>
    rw [hexit] at hrun htrace
    exact absurd (hrun fun e he => (htrace e he).1) hstuck

theorem succeeds {machine : Machine ν} (h : Runs Assume.flawless machine.dir program Q C)
    (hok : ∀ e ∈ (program machine).trace, e.outcome = .ok) :
    ∃ value after trace, program machine = .done value after trace ∧ Q value after.dir := by
  obtain ⟨value, after, trace, hexit, _, hpost⟩ := h.completes trivial id fun e he =>
    ⟨hok e he, fun ⟨n, hkill⟩ => by rw [hok e he] at hkill; cases hkill⟩
  exact ⟨value, after, trace, hexit, hpost⟩

theorem done_any {machine after : Machine ν} {value : α} {trace : List (Event ν)}
    (h : Runs Assume.any machine.dir program Q C)
    (hexit : program machine = .done value after trace) : Q value after.dir :=
  (h.done trivial hexit (fun _ _ => trivial)).2

theorem of_any (h : Runs Assume.any dir program Q C) : Runs assume dir program Q C := by
  intro machine hdir _
  have hrun := h machine hdir trivial
  cases hexit : program machine with
  | done value after trace =>
    simp only [hexit] at hrun ⊢
    exact fun _ => hrun fun _ _ => trivial
  | killed left trace =>
    simp only [hexit] at hrun ⊢
    exact fun _ => hrun fun _ _ => trivial
  | stuck trace =>
    simp only [hexit] at hrun ⊢
    exact fun _ => (hrun fun _ _ => trivial).elim

theorem weaken {R : α → Directory ν → Prop} {D : Directory ν → Prop}
    (h : Runs assume dir program Q C)
    (hpost : ∀ value after, Q value after → R value after)
    (hcrash : ∀ left, C left → D left) :
    Runs assume dir program R D := by
  intro machine hdir hfaults
  have hrun := h machine hdir hfaults
  cases hexit : program machine with
  | done value after trace =>
    simp only [hexit] at hrun ⊢
    exact fun htrace => (hrun htrace).imp id (hpost _ _)
  | killed left trace =>
    simp only [hexit] at hrun ⊢
    exact fun htrace => (hrun htrace).imp id (hcrash _)
  | stuck trace =>
    simp only [hexit] at hrun ⊢
    exact hrun

/-- Sequencing: what the first program establishes starts the second one, and
a kill in either is covered by the same condition. -/
theorem bind {next : α → Sys ν β} {M : α → Directory ν → Prop}
    {Q : β → Directory ν → Prop} (first : Runs assume dir program M C)
    (second : ∀ value after, M value after → Runs assume after (next value) Q C) :
    Runs assume dir (program >>= next) Q C := by
  intro machine hdir hfaults
  have hfirst := first machine hdir hfaults
  change match Sys.andThen program next machine with
    | .done value after trace => _
    | .killed left trace => _
    | .stuck trace => _
  unfold Sys.andThen
  cases hexit : program machine with
  | killed left trace => simpa only [hexit] using hfirst
  | stuck trace => simpa only [hexit] using hfirst
  | done value after trace =>
    simp only [hexit] at hfirst ⊢
    have hnext : (∀ e ∈ trace, assume.events e) → after.faults = machine.faults ∧
        match next value after with
        | .done value last later => (∀ e ∈ later, assume.events e) →
            last.faults = after.faults ∧ Q value last.dir
        | .killed left later => (∀ e ∈ later, assume.events e) →
            (∃ e ∈ later, e.Fatal) ∧ C left
        | .stuck later => (∀ e ∈ later, assume.events e) → assume.stuck := by
      intro htrace
      obtain ⟨hsame, hmiddle⟩ := hfirst htrace
      exact ⟨hsame, second value after.dir hmiddle after rfl (hsame ▸ hfaults)⟩
    cases hlast : next value after with
    | done result last later =>
      simp only [hlast] at hnext ⊢
      intro htrace
      obtain ⟨hsame, hsecond⟩ := hnext fun e he => htrace e (by simp [he])
      obtain ⟨hsame', hpost⟩ := hsecond fun e he => htrace e (by simp [he])
      exact ⟨hsame'.trans hsame, hpost⟩
    | killed left later =>
      simp only [hlast] at hnext ⊢
      intro htrace
      obtain ⟨⟨e, he, hfatal⟩, hcrash⟩ := (hnext fun e he => htrace e (by simp [he])).2
        fun e he => htrace e (by simp [he])
      exact ⟨⟨e, by simp [he], hfatal⟩, hcrash⟩
    | stuck later =>
      simp only [hlast] at hnext ⊢
      intro htrace
      exact (hnext fun e he => htrace e (by simp [he])).2 fun e he => htrace e (by simp [he])

theorem stuck (h : assume.stuck) : Runs assume dir (Sys.stuck : Sys ν α) Q C :=
  fun _ _ _ _ => h

theorem readDir {Q : Directory ν → Directory ν → Prop} (h : Q dir dir) :
    Runs assume dir Sys.readDir Q C := by
  intro machine hdir _ _
  subst hdir
  exact ⟨rfl, h⟩

theorem readFaults {Q : (ν → Option Nat) → Directory ν → Prop}
    (h : ∀ faults, assume.faults faults → Q faults dir) :
    Runs assume dir Sys.readFaults Q C := by
  intro machine hdir hfaults _
  subst hdir
  exact ⟨rfl, h _ hfaults⟩

theorem call {this : Directory ν → Call ν} {whole : Directory ν → Directory ν}
    {cut : Nat → Directory ν → Directory ν} {result : Option Nat → α}
    (hok : assume.calls (this dir) → Q (result none) (whole dir))
    (hfail : ∀ n, assume.events ⟨this dir, .fail n⟩ → Q (result (some n)) (cut n dir))
    (hkill : ∀ n, assume.events ⟨this dir, .kill n⟩ → C (cut n dir)) :
    Runs assume dir (Sys.call this whole cut result) Q C := by
  intro machine hdir _
  subst hdir
  unfold Sys.call
  cases hnext : machine.fate with
  | nil =>
    simp only
    exact fun htrace => ⟨trivial, hok (htrace _ (by simp))⟩
  | cons outcome rest =>
    cases outcome with
    | ok =>
      simp only
      exact fun htrace => ⟨trivial, hok (htrace _ (by simp))⟩
    | fail n =>
      simp only
      exact fun htrace => ⟨trivial, hfail n (htrace _ (by simp))⟩
    | kill n =>
      simp only
      exact fun htrace => ⟨⟨_, List.mem_singleton_self _, n, rfl⟩, hkill n (htrace _ (by simp))⟩

theorem call_any {this : Directory ν → Call ν} {whole : Directory ν → Directory ν}
    {cut : Nat → Directory ν → Directory ν} {result : Option Nat → α} :
    Runs assume dir (Sys.call this whole cut result) (fun _ _ => True) fun _ => True :=
  call (fun _ => trivial) (fun _ _ => trivial) fun _ _ => trivial

theorem call_ok {this : Directory ν → Call ν} {whole : Directory ν → Directory ν}
    {cut : Nat → Directory ν → Directory ν} {result : Option Nat → α}
    (hsure : assume.Sure (this dir))
    (hok : assume.calls (this dir) → Q (result none) (whole dir)) (hkill : ∀ n, C (cut n dir)) :
    Runs assume dir (Sys.call this whole cut result) Q C :=
  call hok (fun n hfail => absurd hfail (hsure n)) fun n _ => hkill n

end Runs

variable [DecidableEq ν]

/-- Append to an existing file; a name without a file stays without one. -/
def extend (dir : Directory ν) (name : ν) (data : List UInt8) : Directory ν :=
  match dir.lookup name with
  | some old => dir.insert name (old ++ data)
  | none => dir

/-- Open for appending, creating an empty file where there is none. -/
def touch (dir : Directory ν) (name : ν) : Directory ν :=
  match dir.lookup name with
  | some _ => dir
  | none => dir.insert name []

def move (dir : Directory ν) (source target : ν) : Directory ν :=
  match dir.lookup source with
  | some data => (dir.erase source).insert target data
  | none => dir

namespace Sys

def openTrunc (name : ν) : Sys ν Bool :=
  call (fun _ => .create name) (fun dir => dir.insert name []) (fun _ dir => dir) Option.isNone

def openAppend (name : ν) : Sys ν Bool :=
  call (fun _ => .openAppend name) (fun dir => touch dir name) (fun _ dir => dir) Option.isNone

def append (name : ν) (data : List UInt8) : Sys ν (Option Nat) :=
  call (fun dir => .append name ((dir.lookup name).getD []).length data)
    (fun dir => extend dir name data) (fun n dir => extend dir name (data.take n))
    fun cut => cut.map (min data.length)

def sync (name : ν) : Sys ν Bool :=
  call (fun _ => .sync name) id (fun _ dir => dir) Option.isNone

def syncDirectory : Sys ν Bool :=
  call (fun _ => .syncDirectory) id (fun _ dir => dir) Option.isNone

def rename (source target : ν) : Sys ν Bool :=
  call (fun _ => .rename source target) (fun dir => move dir source target) (fun _ dir => dir)
    Option.isNone

def unlink (name : ν) : Sys ν Bool :=
  call (fun _ => .unlink name) (fun dir => dir.erase name) (fun _ dir => dir) Option.isNone

end Sys

theorem extend_insert (dir : Directory ν) (name : ν) (old data : List UInt8) :
    extend (dir.insert name old) name data = dir.insert name (old ++ data) := by
  simp [extend, AList.insert_insert]

theorem extend_extend (dir : Directory ν) (name : ν) (first second : List UInt8) :
    extend (extend dir name first) name second = extend dir name (first ++ second) := by
  cases h : dir.lookup name with
  | none => simp [extend, h]
  | some old =>
    have hinner : extend dir name first = dir.insert name (old ++ first) := by simp [extend, h]
    have houter : extend dir name (first ++ second) = dir.insert name (old ++ (first ++ second)) := by
      simp [extend, h]
    rw [hinner, houter, extend_insert, List.append_assoc]

/-! Lookups after each effect. -/

section Lookup

variable {dir : Directory ν} {name other : ν} {data : List UInt8}

@[simp] theorem lookup_insert_self (dir : Directory ν) (name : ν) (data : List UInt8) :
    (dir.insert name data).lookup name = some data := AList.lookup_insert _

theorem lookup_insert_other (h : other ≠ name) :
    (dir.insert name data).lookup other = dir.lookup other := AList.lookup_insert_ne h

theorem lookup_extend_self {old : List UInt8} (h : dir.lookup name = some old) :
    (extend dir name data).lookup name = some (old ++ data) := by
  simp [extend, h]

theorem lookup_extend_other (h : other ≠ name) :
    (extend dir name data).lookup other = dir.lookup other := by
  unfold extend
  split
  · exact lookup_insert_other h
  · rfl

theorem lookup_touch_other (h : other ≠ name) :
    (touch dir name).lookup other = dir.lookup other := by
  unfold touch
  split
  · rfl
  · exact lookup_insert_other h

theorem lookup_touch_self : (touch dir name).lookup name = some ((dir.lookup name).getD []) := by
  unfold touch
  cases h : dir.lookup name <;> simp [h]

theorem mem_extend : other ∈ extend dir name data ↔ other ∈ dir := by
  unfold extend
  split
  · rename_i old hold
    rw [AList.mem_insert, or_iff_right_of_imp]
    rintro rfl
    exact AList.lookup_isSome.mp (by rw [hold]; rfl)
  · rfl

theorem mem_touch : other ∈ touch dir name ↔ other = name ∨ other ∈ dir := by
  unfold touch
  split
  · rename_i old hold
    rw [or_iff_right_of_imp]
    rintro rfl
    exact AList.lookup_isSome.mp (by rw [hold]; rfl)
  · exact AList.mem_insert _

theorem lookup_move_target {source : ν} (h : dir.lookup source = some data) :
    (move dir source other).lookup other = some data := by
  simp [move, h]

theorem lookup_move_other {source : ν} (hsource : other ≠ source) (htarget : other ≠ name) :
    (move dir source name).lookup other = dir.lookup other := by
  unfold move
  split
  · rw [lookup_insert_other htarget, AList.lookup_erase_ne hsource]
  · rfl

end Lookup

end Strata.Library.System
