import Strata.Library.PowerLoss

/-! Runs in which no call fails, followed call by call. -/
namespace Strata.Library.System

variable {ν α β : Type} {program : Sys ν α} {machine between after : Machine ν} {value : α}

section

variable [DecidableEq ν]

/-- The program returns the value, every call succeeds, and the calls are all that changes the
directory. -/
def Completes (program : Sys ν α) (machine : Machine ν) (value : α) (after : Machine ν) : Prop :=
  ∃ trace, program machine = .done value after trace ∧ (∀ e ∈ trace, e.outcome = .ok) ∧
    ∀ m : Medium ν, m.dir = machine.dir → (m.run trace).dir = after.dir

namespace Completes

theorem ret (value : α) (machine : Machine ν) : Completes (pure value) machine value machine :=
  ⟨[], rfl, by simp, fun _ hdir => hdir⟩

theorem readDir (machine : Machine ν) : Completes Sys.readDir machine machine.dir machine :=
  ⟨[], rfl, by simp, fun _ hdir => hdir⟩

theorem readFaults (machine : Machine ν) :
    Completes Sys.readFaults machine machine.faults machine :=
  ⟨[], rfl, by simp, fun _ hdir => hdir⟩

theorem of_eq {other : Sys ν α} (h : Completes other machine value after)
    (heq : program machine = other machine) : Completes program machine value after := by
  obtain ⟨trace, hexit, hcalls⟩ := h
  exact ⟨trace, heq.trans hexit, hcalls⟩

theorem bind {next : α → Sys ν β} {result : β} (first : Completes program machine value between)
    (second : Completes (next value) between result after) :
    Completes (program >>= next) machine result after := by
  obtain ⟨trace, hexit, hcalls, hdir⟩ := first
  obtain ⟨later, hlater, hothers, hlast⟩ := second
  refine ⟨trace ++ later, ?_, fun e he => (List.mem_append.mp he).elim (hcalls e) (hothers e),
    fun m hm => ?_⟩
  · change Sys.andThen program next machine = _
    unfold Sys.andThen
    rw [hexit]
    simp only [hlater]
  · rw [Medium.run_append]
    exact hlast _ (hdir m hm)

theorem call {this : Directory ν → Call ν} {whole : Directory ν → Directory ν}
    {cut : Nat → Directory ν → Directory ν} {result : Option Nat → α} (hfate : machine.fate = [])
    (hwhole : ∀ m : Medium ν, (m.perform (this m.dir)).dir = whole m.dir) :
    Completes (Sys.call this whole cut result) machine (result none)
      { machine with dir := whole machine.dir } := by
  obtain ⟨dir, faults, fate⟩ := machine
  cases hfate
  refine ⟨[⟨this dir, .ok⟩], rfl, fun e he => by rw [List.mem_singleton.mp he], fun m hm => ?_⟩
  obtain rfl : m.dir = dir := hm
  exact hwhole m

end Completes

end

/-- With no outcome left every call succeeds. -/
def Unfailing (program : Sys ν α) : Prop :=
  ∀ machine : Machine ν, machine.fate = [] →
    (∀ e ∈ (program machine).trace, e.outcome = .ok) ∧
      ∀ value after trace, program machine = .done value after trace → after.fate = []

namespace Unfailing

theorem ret {value : α} : Unfailing (pure value : Sys ν α) := by
  intro machine hfate
  refine ⟨fun e he => ?_, fun _ _ _ hexit => ?_⟩
  · cases he
  · cases hexit
    exact hfate

theorem readDir : Unfailing (Sys.readDir : Sys ν (Directory ν)) := by
  intro machine hfate
  refine ⟨fun e he => ?_, fun _ _ _ hexit => ?_⟩
  · cases he
  · cases hexit
    exact hfate

theorem readFaults : Unfailing (Sys.readFaults : Sys ν (ν → Option Nat)) := by
  intro machine hfate
  refine ⟨fun e he => ?_, fun _ _ _ hexit => ?_⟩
  · cases he
  · cases hexit
    exact hfate

theorem call {this : Directory ν → Call ν} {whole : Directory ν → Directory ν}
    {cut : Nat → Directory ν → Directory ν} {result : Option Nat → α} :
    Unfailing (Sys.call this whole cut result) := by
  intro machine hfate
  unfold Sys.call
  rw [hfate]
  refine ⟨fun e he => ?_, fun _ _ _ hexit => ?_⟩
  · rw [List.mem_singleton.mp he]
  · cases hexit
    rfl

theorem bind {next : α → Sys ν β} (first : Unfailing program)
    (second : ∀ value, Unfailing (next value)) : Unfailing (program >>= next) := by
  intro machine hfate
  obtain ⟨hcalls, hleft⟩ := first machine hfate
  change (∀ e ∈ (Sys.andThen program next machine).trace, e.outcome = .ok) ∧ ∀ value after trace,
    Sys.andThen program next machine = .done value after trace → after.fate = []
  unfold Sys.andThen
  cases hexit : program machine with
  | killed left trace =>
    rw [hexit] at hcalls
    exact ⟨hcalls, fun _ _ _ h => by cases h⟩
  | stuck trace =>
    rw [hexit] at hcalls
    exact ⟨hcalls, fun _ _ _ h => by cases h⟩
  | done value between trace =>
    rw [hexit] at hcalls
    obtain ⟨hlater, hlast⟩ := second value between (hleft value between trace hexit)
    have hall : ∀ e ∈ trace ++ (next value between).trace, e.outcome = .ok :=
      fun e he => (List.mem_append.mp he).elim (hcalls e) (hlater e)
    simp only
    cases hnext : next value between with
    | killed left later =>
      rw [hnext] at hall
      exact ⟨hall, fun _ _ _ h => by cases h⟩
    | stuck later =>
      rw [hnext] at hall
      exact ⟨hall, fun _ _ _ h => by cases h⟩
    | done result after later =>
      rw [hnext] at hall
      refine ⟨hall, fun _ _ _ h => ?_⟩
      cases h
      exact hlast result after later hnext

/-- What is known of the program where it runs under an assumption holds of it. -/
theorem completes [DecidableEq ν] {S : Event ν → Prop} {P : α → List (Event ν) → Prop}
    {assume : Assume ν} {Q : α → Directory ν → Prop} {C : Directory ν → Prop}
    (h : Unfailing program) (hworks : Works S program P) (hfate : machine.fate = [])
    (hruns : Runs assume machine.dir program Q C) (hfaults : assume.faults machine.faults)
    (hcalls : ∀ c, assume.calls c) (hstuck : ¬ assume.stuck) :
    ∃ value dir, Completes program machine value { machine with dir := dir } ∧ Q value dir := by
  obtain ⟨hok, hleft⟩ := h machine hfate
  obtain ⟨value, after, trace, hexit, hsame, hpost⟩ := hruns.completes hfaults hstuck (by
    rintro ⟨c, outcome⟩ he
    obtain rfl : outcome = .ok := hok _ he
    exact ⟨hcalls c, fun ⟨_, hkill⟩ => nomatch hkill⟩)
  rw [hexit] at hok
  have hafter : after = { machine with dir := after.dir } := by
    obtain ⟨dir, faults, fate⟩ := after
    obtain rfl : faults = machine.faults := hsame
    rw [show fate = machine.fate from (hleft value _ trace hexit).trans hfate.symm]
  refine ⟨value, after.dir, ⟨trace, hafter ▸ hexit, hok, fun m hm => ?_⟩, hpost⟩
  have hrun := hworks machine m hm
  rw [hexit] at hrun
  exact hrun.1

end Unfailing

end Strata.Library.System
