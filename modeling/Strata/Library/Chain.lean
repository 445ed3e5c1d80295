import Mathlib.Data.List.Basic
import Mathlib.Logic.Relation

/-! Linked lists in a heap: which nodes the pointers lead through, and what one store of a
pointer does to that. -/
namespace Strata.Library.Chain

variable {ν : Type} {next next' : ν → Option ν} {x : ν} {nodes front back : List ν}

/-- From `x` the pointers lead through these nodes and end there. -/
def Linked (next : ν → Option ν) : ν → List ν → Prop
  | x, [] => next x = none
  | x, y :: rest => next x = some y ∧ Linked next y rest

/-- The last of the nodes, or the one in front of them where there are none. -/
def lastOf : ν → List ν → ν
  | x, [] => x
  | _, y :: rest => lastOf y rest

@[simp] theorem lastOf_append_singleton (x : ν) (front : List ν) (y : ν) :
    lastOf x (front ++ [y]) = y := by
  induction front generalizing x with
  | nil => rfl
  | cons z rest ih => exact ih z

theorem lastOf_mem (x : ν) (nodes : List ν) : lastOf x nodes ∈ x :: nodes := by
  induction nodes generalizing x with
  | nil => exact List.mem_singleton_self x
  | cons y rest ih => exact List.mem_cons_of_mem x (ih y)

theorem lastOf_eq_or_mem (x : ν) (nodes : List ν) :
    nodes = [] ∧ lastOf x nodes = x ∨ lastOf x nodes ∈ nodes := by
  cases nodes with
  | nil => exact Or.inl ⟨rfl, rfl⟩
  | cons y rest => exact Or.inr (lastOf_mem y rest)

theorem exists_lastOf {y : ν} (hy : y ∈ x :: nodes) :
    ∃ front back, nodes = front ++ back ∧ lastOf x front = y := by
  rcases List.mem_cons.mp hy with rfl | hmem
  · exact ⟨[], nodes, rfl, rfl⟩
  · obtain ⟨front, back, rfl⟩ := List.append_of_mem hmem
    exact ⟨front ++ [y], back, by simp, lastOf_append_singleton ..⟩

theorem Linked.split (h : Linked next x (front ++ back)) : next (lastOf x front) = back.head? := by
  induction front generalizing x with
  | nil =>
    cases back with
    | nil => exact h
    | cons y rest => exact h.1
  | cons y rest ih => exact ih h.2

theorem Linked.reaches (h : Linked next x nodes) {y : ν} (hy : y ∈ x :: nodes) :
    Relation.ReflTransGen (fun a b => next a = some b) x y := by
  induction nodes generalizing x with
  | nil =>
    rw [List.mem_singleton.mp hy]
  | cons z rest ih =>
    rcases List.mem_cons.mp hy with rfl | hmem
    · exact Relation.ReflTransGen.refl
    · exact Relation.ReflTransGen.head h.1 (ih h.2 hmem)

theorem Linked.congr (h : Linked next x nodes) (hsame : ∀ y ∈ x :: nodes, next' y = next y) :
    Linked next' x nodes := by
  induction nodes generalizing x with
  | nil => exact (hsame x List.mem_cons_self).trans h
  | cons y rest ih =>
    exact ⟨(hsame x List.mem_cons_self).trans h.1,
      ih h.2 fun z hz => hsame z (List.mem_cons_of_mem x hz)⟩

theorem Linked.of_head (h : Linked next x nodes) {node : ν} (hnode : next node = nodes.head?) :
    Linked next node nodes := by
  cases nodes with
  | nil => exact hnode
  | cons y rest => exact ⟨hnode, h.2⟩

theorem Linked.insert [DecidableEq ν] {node : ν} (h : Linked next x (front ++ back))
    (hnodup : (x :: (front ++ back)).Nodup) (hnode : next node = back.head?)
    (hout : node ∉ x :: (front ++ back)) :
    Linked (fun y => if y = lastOf x front then some node else next y) x
      (front ++ node :: back) := by
  induction front generalizing x with
  | nil =>
    refine ⟨if_pos rfl, (Linked.of_head h hnode).congr fun y hy => if_neg ?_⟩
    rintro rfl
    rcases List.mem_cons.mp hy with heq | hback
    · exact hout (heq ▸ List.mem_cons_self)
    · exact (List.nodup_cons.mp hnodup).1 hback
  | cons y rest ih =>
    obtain ⟨hx, hrest⟩ := List.nodup_cons.mp hnodup
    have hne : x ≠ lastOf y rest := by
      intro heq
      have hmem := lastOf_mem y rest
      rw [← heq] at hmem
      exact hx (by simpa using List.mem_append_left back hmem)
    exact ⟨(if_neg hne).trans h.1, ih h.2 hrest fun hin => hout (List.mem_cons_of_mem x hin)⟩

end Strata.Library.Chain
