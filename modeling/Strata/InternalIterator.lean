import Strata.Format

/-! The forward part of the iterator interface, and what it means for an
iterator to yield a list. -/
namespace Strata

class InternalIterator (ι : Type) where
  valid : ι → Bool
  seekToFirst : ι → ι
  seek : ι → Key → ι
  next : ι → ι
  entry : ι → Entry
  status : ι → Status

class ReversibleIterator (ι : Type) extends InternalIterator ι where
  seekToLast : ι → ι
  prev : ι → ι

open InternalIterator

variable {ι : Type} [InternalIterator ι]

def InternalIterator.shown (it : ι) : Option Entry := if valid it then some (entry it) else none

def Yields : ι → List Entry → Prop
  | it, [] => valid it = false
  | it, e :: rest => valid it = true ∧ entry it = e ∧ Yields (next it) rest

theorem Yields.shown {it : ι} {es : List Entry} (h : Yields it es) : shown it = es.head? := by
  cases es with
  | nil =>
    have hinvalid : valid it = false := h
    simp [InternalIterator.shown, hinvalid]
  | cons e rest => simp [InternalIterator.shown, h.1, h.2.1]

def Drains (last : ι → Prop) : ι → List Entry → Prop
  | it, [] => valid it = false ∧ last it
  | it, e :: rest => valid it = true ∧ entry it = e ∧ Drains last (next it) rest

theorem Drains.yields {last : ι → Prop} {it : ι} {es : List Entry} (h : Drains last it es) :
    Yields it es := by
  induction es generalizing it with
  | nil => exact h.1
  | cons e rest ih => exact ⟨h.1, h.2.1, ih h.2.2⟩

theorem Yields.drains {it : ι} {es : List Entry} (h : Yields it es) :
    Drains (fun _ => True) it es := by
  induction es generalizing it with
  | nil => exact ⟨h, trivial⟩
  | cons e rest ih => exact ⟨h.1, h.2.1, ih h.2.2⟩

/-- The entries from the position on, at most `fuel` of them. -/
def collect : Nat → ι → List Entry
  | 0, _ => []
  | fuel + 1, it => if valid it then entry it :: collect fuel (next it) else []

theorem collect_yields {it : ι} {es : List Entry} (h : Yields it es) {fuel : Nat}
    (hfuel : es.length ≤ fuel) : collect fuel it = es := by
  induction fuel generalizing it es with
  | zero => exact (List.eq_nil_of_length_eq_zero (by omega)).symm
  | succ fuel ih =>
    cases es with
    | nil =>
      have hinvalid : valid it = false := h
      simp [collect, hinvalid]
    | cons e rest =>
      obtain ⟨hvalid, hentry, hrest⟩ := h
      rw [List.length_cons] at hfuel
      simp [collect, hvalid, hentry, ih hrest (by omega)]

theorem Yields.unique {it : ι} {es other : List Entry} (h : Yields it es) (h' : Yields it other) :
    es = other := by
  have hfirst := collect_yields h (Nat.le_max_left es.length other.length)
  rw [← hfirst]
  exact collect_yields h' (Nat.le_max_right es.length other.length)

end Strata
