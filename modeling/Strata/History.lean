import Strata.Stack

/-! What was written, and where it is: in the logs, or in the version, which may
stand for entries that it no longer holds. -/
namespace Strata

open Library System Layers Memtable

variable {loose : Prop} {all flushed : List Entry} {bound bound' : Nat}
  {logs newer : List (List Entry)} {v v' : Version} {es : List Entry} {e : Entry}

/-- The entries ever written are those of the logs and those that were flushed,
which the version stands for. -/
structure Accounts (loose : Prop) (all : List Entry) (bound : Nat) (logs : List (List Entry))
    (v : Version) (flushed : List Entry) : Prop where
  mem : ∀ e, e ∈ all ↔ e ∈ flushed ∨ e ∈ logs.flatten
  above : ∀ log ∈ logs, Newer loose log flushed
  kept : Reduces flushed (held [] v)
  seqs : ∀ e ∈ flushed, e.seq ≤ bound

namespace Accounts

section Kept

variable (h : Accounts loose all bound logs v flushed)

include h in
theorem reduces : Reduces all (held logs v) := by
  have hover : ∀ x ∈ logs.flatten, ∀ y ∈ flushed, x.userKey = y.userKey →
      ∃ z ∈ logs.flatten, z.userKey = x.userKey ∧ y.seq ≤ z.seq := by
    intro x hx y hy hkey
    obtain ⟨log, hlog, hx⟩ := List.mem_flatten.mp hx
    obtain ⟨z, hz, hzk, hle, _⟩ := h.above log hlog x hx y hy hkey
    exact ⟨z, List.mem_flatten.mpr ⟨log, hlog, hz⟩, hzk, hle⟩
  apply (h.kept.under hover).of_mem_iff
  · intro e
    rw [h.mem, List.mem_append]
    exact or_comm
  · intro e
    rw [held, held, List.flatten_nil, List.nil_append]

include h in
theorem mono {looser : Prop} (himp : loose → looser) : Accounts looser all bound logs v flushed :=
  { h with above := fun log hlog => (h.above log hlog).mono himp }

include h in
theorem grow (hbound : bound ≤ bound') : Accounts loose all bound' logs v flushed :=
  { h with seqs := fun e he => le_trans (h.seqs e he) hbound }

include h in
theorem open_log : Accounts loose all bound (logs ++ [[]]) v flushed := by
  refine { h with mem := fun e => ?_, above := fun log hlog => ?_ }
  · rw [h.mem, List.flatten_append]
    simp
  · rcases List.mem_append.mp hlog with hlog | hlog
    · exact h.above log hlog
    · rw [List.mem_singleton.mp hlog]
      intro x hx
      cases hx

include h in
theorem compact (hreduces : Reduces (held [] v) (held [] v')) :
    Accounts loose all bound logs v' flushed :=
  { h with kept := h.kept.trans hreduces }

end Kept

theorem drop {olds : List (List Entry)} (h : Accounts loose all bound (olds ++ logs) v flushed) :
    Accounts loose (flushed ++ logs.flatten) bound logs v flushed :=
  ⟨fun _ => List.mem_append, fun log hlog => h.above log (by simp [hlog]), h.kept, h.seqs⟩

theorem write {olds : List (List Entry)} {records : List Entry}
    (h : Accounts loose all bound (olds ++ [records]) v flushed)
    (hseq : ∀ x ∈ all, x.seq ≤ e.seq) :
    Accounts loose (all ++ [e]) bound (olds ++ [records ++ [e]]) v flushed := by
  refine { h with mem := fun x => ?_, above := fun log hlog => ?_ }
  · rw [List.mem_append, h.mem]
    simp only [List.flatten_append, List.flatten_cons, List.flatten_nil, List.append_nil,
      List.mem_append]
    tauto
  · rcases List.mem_append.mp hlog with hlog | hlog
    · exact h.above log (by simp [hlog])
    · rw [List.mem_singleton.mp hlog]
      apply (h.above records (by simp)).snoc
      exact fun y hy => hseq y ((h.mem y).mpr (Or.inl hy))

section Flush

variable (h : Accounts loose all bound (es :: newer) v flushed)
  (hheld : ∀ e, e ∈ held [] v' ↔ e ∈ held [es] v) (hbound : bound ≤ bound')
  (hseqs : ∀ e ∈ es, e.seq ≤ bound')

include h hheld hbound hseqs in
theorem flush (hnewer : ∀ log ∈ newer, Newer loose log es) :
    Accounts loose all bound' newer v' (flushed ++ es) := by
  constructor
  · intro e
    rw [h.mem, List.flatten_cons, List.mem_append, List.mem_append, or_assoc]
  · exact fun log hlog => (h.above log (by simp [hlog])).append (hnewer log hlog)
  · have hover : ∀ x ∈ es, ∀ y ∈ flushed, x.userKey = y.userKey →
        ∃ z ∈ es, z.userKey = x.userKey ∧ y.seq ≤ z.seq := by
      intro x hx y hy hkey
      obtain ⟨z, hz, hzk, hle, _⟩ := h.above es (by simp) x hx y hy hkey
      exact ⟨z, hz, hzk, hle⟩
    apply (h.kept.under hover).of_mem_iff
    · intro e
      rw [List.mem_append, List.mem_append]
      exact or_comm
    · intro e
      rw [hheld, held, held]
      simp
  · intro e he
    rcases List.mem_append.mp he with he | he
    · exact le_trans (h.seqs e he) hbound
    · exact hseqs e he

include h hheld hbound hseqs in
theorem copied (hnewer : ∀ log ∈ newer, Newer loose log es) :
    Accounts True all bound' (es :: newer) v' (flushed ++ es) := by
  have hflush := (h.flush hheld hbound hseqs hnewer).mono fun _ => trivial
  refine { hflush with mem := fun e => ?_, above := fun log hlog => ?_ }
  · rw [hflush.mem, List.flatten_cons, List.mem_append, List.mem_append]
    tauto
  · rcases List.mem_cons.mp hlog with rfl | hlog
    · have hself : Newer True log log := Newer.copy trivial fun _ he => he
      exact ((h.above log (by simp)).mono fun _ => trivial).append hself
    · exact hflush.above log hlog

end Flush

end Accounts

end Strata
