import Mathlib.Data.List.Basic

/-! Transition systems that show labels, and forward simulations between them. -/
namespace Strata.Library.Simulation

/-- Where a system starts and what it does. A step without a label is not seen. -/
structure System (σ l : Type) where
  start : σ → Prop
  step : σ → Option l → σ → Prop

/-- The labels that a run shows, and the state it comes to. -/
inductive System.Run {σ l : Type} (S : System σ l) : List l → σ → Prop
  | start {s : σ} (hstart : S.start s) : S.Run [] s
  | step {seen : List l} {s s' : σ} {label : Option l} (hrun : S.Run seen s)
      (hstep : S.step s label s') : S.Run (seen ++ label.toList) s'

variable {σ τ l : Type} {C : System σ l} {A : System τ l} {R : σ → τ → Prop}

theorem System.Run.invariant {P : σ → Prop} {seen : List l} {s : σ} (hrun : C.Run seen s)
    (hstart : ∀ s, C.start s → P s)
    (hstep : ∀ s label s', P s → C.step s label s' → P s') : P s := by
  induction hrun with
  | start h => exact hstart _ h
  | step _ h ih => exact hstep _ _ _ ih h

/-- Each step of one system is a step of the other with the same label, or is not seen and
keeps the state of the other. -/
structure Simulates (C : System σ l) (A : System τ l) (R : σ → τ → Prop) : Prop where
  start : ∀ s, C.start s → ∃ t, A.start t ∧ R s t
  step : ∀ s t label s', R s t → C.step s label s' →
    ∃ t', R s' t' ∧ (A.step t label t' ∨ label = none ∧ t' = t)

theorem Simulates.run (h : Simulates C A R) {seen : List l} {s : σ} (hrun : C.Run seen s) :
    ∃ t, A.Run seen t ∧ R s t := by
  induction hrun with
  | start hstart =>
    obtain ⟨t, ht, hrel⟩ := h.start _ hstart
    exact ⟨t, .start ht, hrel⟩
  | step hrun hstep ih =>
    obtain ⟨t, ht, hrel⟩ := ih
    obtain ⟨t', hrel', hmatch | ⟨rfl, rfl⟩⟩ := h.step _ _ _ _ hrel hstep
    · exact ⟨t', ht.step hmatch, hrel'⟩
    · refine ⟨t', ?_, hrel'⟩
      rw [Option.toList_none, List.append_nil]
      exact ht

end Strata.Library.Simulation
