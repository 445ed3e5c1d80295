import Strata.Library.System

/-! Runs under given outcomes. The calls of a program take the outcomes of the
machine one by one, so which of them fail is a matter of positions in that
list. The rules below follow a program and the outcomes it has left. -/
namespace Strata.Library.System

def Outcome.failed : Outcome → Bool
  | .fail _ => true
  | _ => false

/-- One of the next calls fails. Past the end of the list every call succeeds. -/
def Fails (count : Nat) (fate : List Outcome) : Prop := ∃ o ∈ fate.take count, o.failed = true

instance (count : Nat) (fate : List Outcome) : Decidable (Fails count fate) :=
  inferInstanceAs (Decidable (∃ o ∈ fate.take count, o.failed = true))

def Spared (fate : List Outcome) : Prop := ∀ n, Outcome.kill n ∉ fate

theorem fails_add (m n : Nat) (fate : List Outcome) :
    Fails (m + n) fate ↔ Fails m fate ∨ Fails n (fate.drop m) := by
  simp only [Fails, List.take_add, List.mem_append, or_and_right, exists_or]

theorem Fails.mono {m n : Nat} {fate : List Outcome} (h : Fails m fate) (hle : m ≤ n) :
    Fails n fate := by
  obtain ⟨k, rfl⟩ := Nat.exists_eq_add_of_le hle
  exact (fails_add m k fate).mpr (Or.inl h)

theorem fails_one {fate : List Outcome} {n : Nat} {rest : List Outcome}
    (h : fate = .fail n :: rest) : Fails 1 fate := by
  rw [h]
  exact ⟨.fail n, List.mem_cons_self, rfl⟩

/-- From this machine the program returns with `Q`, or an outcome kills it. -/
def Plays {ν α : Type} (machine : Machine ν) (program : Sys ν α)
    (Q : α → Machine ν → Prop) : Prop :=
  match program machine with
  | .done value after _ => after.fate <:+ machine.fate ∧ Q value after
  | .killed _ _ => ¬ Spared machine.fate
  | .stuck _ => False

namespace Plays

variable {ν α β : Type} {machine : Machine ν} {program : Sys ν α} {Q : α → Machine ν → Prop}

theorem returns (h : Plays machine program Q) (hspared : Spared machine.fate) :
    ∃ value after trace, program machine = .done value after trace ∧ Q value after := by
  unfold Plays at h
  cases hexit : program machine with
  | done value after trace =>
    simp only [hexit] at h
    exact ⟨value, after, trace, rfl, h.2⟩
  | killed left trace =>
    simp only [hexit] at h
    exact absurd hspared h
  | stuck trace => simp only [hexit] at h

theorem ret {value : α} (h : Q value machine) : Plays machine (pure value : Sys ν α) Q :=
  ⟨List.suffix_refl _, h⟩

/-- Sequencing: what is asked of the first program is that the second plays on from it. -/
theorem bind {next : α → Sys ν β} {Q : β → Machine ν → Prop}
    (first : Plays machine program fun value after => Plays after (next value) Q) :
    Plays machine (program >>= next) Q := by
  change match Sys.andThen program next machine with
    | .done value after _ => _
    | .killed _ _ => _
    | .stuck _ => _
  unfold Sys.andThen
  unfold Plays at first
  cases hexit : program machine with
  | killed left trace => simpa only [hexit] using first
  | stuck trace => simp only [hexit] at first
  | done value after trace =>
    simp only [hexit] at first ⊢
    obtain ⟨hrest, hnext⟩ := first
    cases hlast : next value after with
    | done result last later =>
      simp only [hlast] at hnext ⊢
      exact ⟨hnext.1.trans hrest, hnext.2⟩
    | killed left later =>
      simp only [hlast] at hnext ⊢
      exact fun hspared => hnext fun n hkill => hspared n (hrest.subset hkill)
    | stuck later => simp only [hlast] at hnext

theorem call {this : Directory ν → Call ν} {whole : Directory ν → Directory ν}
    {cut : Nat → Directory ν → Directory ν} {result : Option Nat → α}
    (hok : ¬ Fails 1 machine.fate →
      Q (result none) ⟨whole machine.dir, machine.faults, machine.fate.drop 1⟩)
    (hfail : ∀ n, Fails 1 machine.fate →
      Q (result (some n)) ⟨cut n machine.dir, machine.faults, machine.fate.drop 1⟩) :
    Plays machine (Sys.call this whole cut result) Q := by
  obtain ⟨dir, faults, fate⟩ := machine
  unfold Plays Sys.call
  cases fate with
  | nil => exact ⟨List.suffix_refl _, hok (by simp [Fails])⟩
  | cons outcome rest =>
    cases outcome with
    | ok =>
      refine ⟨List.suffix_cons _ _, hok ?_⟩
      simp [Fails, Outcome.failed]
    | fail n => exact ⟨List.suffix_cons _ _, hfail n (fails_one rfl)⟩
    | kill n => exact fun hspared => hspared n List.mem_cons_self

theorem append [DecidableEq ν] {base : Directory ν} {name : ν} {old : List UInt8}
    {Q : Option Nat → Machine ν → Prop} (hdir : machine.dir = base.insert name old)
    (data : List UInt8)
    (hok : ¬ Fails 1 machine.fate →
      Q none ⟨base.insert name (old ++ data), machine.faults, machine.fate.drop 1⟩)
    (hfail : Fails 1 machine.fate → ∀ part : List UInt8,
      Q (some part.length) ⟨base.insert name (old ++ part), machine.faults,
        machine.fate.drop 1⟩) :
    Plays machine (Sys.append name data) Q := by
  apply call
  · intro hsuccess
    rw [hdir, extend_insert]
    exact hok hsuccess
  · intro n hfailure
    have hpart := hfail hfailure (data.take n)
    rw [List.length_take, Nat.min_comm] at hpart
    rw [hdir, extend_insert]
    exact hpart

end Plays

end Strata.Library.System
