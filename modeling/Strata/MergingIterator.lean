import Strata.InternalIterator

/-! Merging several iterators, and the user's view of the merged entries. -/
namespace Strata

open InternalIterator

/-- `CompareIterators(a, b) < 0`: key ascending, sequence descending, type
descending. -/
def mergeBefore (a b : Entry) : Prop :=
  a.userKey < b.userKey ∨ (a.userKey = b.userKey ∧
    (b.seq < a.seq ∨ (a.seq = b.seq ∧ b.type < a.type)))

instance (a b : Entry) : Decidable (mergeBefore a b) := by
  unfold mergeBefore
  infer_instance

/-- `current` is the position of a child. -/
structure MergingIterator (ι : Type) where
  children : List ι
  current : Option Nat

namespace MergingIterator

variable {ι : Type} [InternalIterator ι]

/-- The scan of `FindSmallest` from child `index` on, with the best child so far. -/
def smallestFrom : List ι → Nat → Option (Nat × Entry) → Option (Nat × Entry)
  | [], _, best => best
  | child :: rest, index, best =>
    if InternalIterator.valid child then
      match best with
      | none => smallestFrom rest (index + 1) (some (index, InternalIterator.entry child))
      | some (i, e) =>
        if mergeBefore (InternalIterator.entry child) e then
          smallestFrom rest (index + 1) (some (index, InternalIterator.entry child))
        else smallestFrom rest (index + 1) (some (i, e))
    else smallestFrom rest (index + 1) best

def findSmallest (it : MergingIterator ι) : MergingIterator ι :=
  { it with current := (smallestFrom it.children 0 none).map Prod.fst }

def child (it : MergingIterator ι) : Option ι := it.current.bind fun index => it.children[index]?

def valid (it : MergingIterator ι) : Bool := it.child.any InternalIterator.valid

def seekToFirst (it : MergingIterator ι) : MergingIterator ι :=
  { it with children := it.children.map InternalIterator.seekToFirst }.findSmallest

def seek (it : MergingIterator ι) (target : Key) : MergingIterator ι :=
  { it with children := it.children.map fun c => InternalIterator.seek c target }.findSmallest

def next (it : MergingIterator ι) : MergingIterator ι :=
  match it.current with
  | none => it
  | some index =>
    { it with children := it.children.modify index InternalIterator.next }.findSmallest

def entry (it : MergingIterator ι) : Entry :=
  (it.child.map InternalIterator.entry).getD ⟨[], 0, kTypeValue, []⟩

def status (it : MergingIterator ι) : Status :=
  ((it.children.map InternalIterator.status).find? fun s => !s.isOk).getD .ok

instance : InternalIterator (MergingIterator ι) where
  valid := valid
  seekToFirst := seekToFirst
  seek := seek
  next := next
  entry := entry
  status := status

section Backward

variable {ι : Type} [ReversibleIterator ι]

/-- The scan of `FindLargest`, as that of `FindSmallest` with the comparison turned. -/
def largestFrom : List ι → Nat → Option (Nat × Entry) → Option (Nat × Entry)
  | [], _, best => best
  | child :: rest, index, best =>
    if InternalIterator.valid child then
      match best with
      | none => largestFrom rest (index + 1) (some (index, InternalIterator.entry child))
      | some (i, e) =>
        if mergeBefore e (InternalIterator.entry child) then
          largestFrom rest (index + 1) (some (index, InternalIterator.entry child))
        else largestFrom rest (index + 1) (some (i, e))
    else largestFrom rest (index + 1) best

def findLargest (it : MergingIterator ι) : MergingIterator ι :=
  { it with current := (largestFrom it.children 0 none).map Prod.fst }

def seekToLast (it : MergingIterator ι) : MergingIterator ι :=
  { it with children := it.children.map ReversibleIterator.seekToLast }.findLargest

def prev (it : MergingIterator ι) : MergingIterator ι :=
  match it.current with
  | none => it
  | some index =>
    { it with children := it.children.modify index ReversibleIterator.prev }.findLargest

instance : ReversibleIterator (MergingIterator ι) where
  seekToLast := seekToLast
  prev := prev

end Backward

end MergingIterator

def newMergingIterator {ι : Type} (children : List ι) : Option (MergingIterator ι) :=
  if children.isEmpty then none else some ⟨children, none⟩

structure DBIterator (ι : Type) where
  iter : Option (MergingIterator ι)
  sequence : Nat
  valid : Bool
  savedKey : Key
  savedValue : Bytes

namespace DBIterator

variable {ι : Type} [InternalIterator ι]

def new (iter : Option (MergingIterator ι)) (sequence : Nat) : DBIterator ι :=
  ⟨iter, sequence, false, [], []⟩

/-- `while (iter_->Valid() && iter_->Key() == key) iter_->Next();` -/
def skipKey (key : Key) : Nat → MergingIterator ι → MergingIterator ι
  | 0, it => it
  | fuel + 1, it =>
    if it.valid ∧ it.entry.userKey = key then skipKey key fuel it.next else it

/-- The loop of `FindNextUserEntry`: the position and the entry it stops at. -/
def findEntry (sequence : Nat) : Nat → MergingIterator ι → MergingIterator ι × Option Entry
  | 0, it => (it, none)
  | fuel + 1, it =>
    if it.valid then
      if it.entry.seq > sequence then findEntry sequence fuel it.next
      else if it.entry.type = kTypeValue then (it, some it.entry)
      else if it.entry.type = kTypeDeletion then
        findEntry sequence fuel (skipKey it.entry.userKey (fuel + 1) it)
      else findEntry sequence fuel it.next
    else (it, none)

def findNextUserEntry (fuel : Nat) (d : DBIterator ι) (iter : MergingIterator ι) : DBIterator ι :=
  match findEntry d.sequence fuel iter with
  | (iter, none) => { d with iter := some iter, valid := false }
  | (iter, some e) =>
    { d with iter := some iter, valid := true, savedKey := e.userKey, savedValue := e.value }

def seekToFirst (fuel : Nat) (d : DBIterator ι) : DBIterator ι :=
  match d.iter with
  | none => d
  | some iter => d.findNextUserEntry fuel iter.seekToFirst

def next (fuel : Nat) (d : DBIterator ι) : DBIterator ι :=
  match d.iter with
  | none => d
  | some iter => d.findNextUserEntry fuel (skipKey d.savedKey fuel iter)

def seek (fuel : Nat) (d : DBIterator ι) (target : Key) : DBIterator ι :=
  match d.iter with
  | none => d
  | some iter => d.findNextUserEntry fuel (iter.seek target)

/-- `while (Valid() && goesOn(Key())) Next();` with the last pair that it passed. -/
def passWhile (goesOn : Key → Bool) (fuel : Nat) :
    Nat → DBIterator ι → Option (Key × Bytes) → DBIterator ι × Option (Key × Bytes)
  | 0, d, passed => (d, passed)
  | turns + 1, d, passed =>
    if d.valid && goesOn d.savedKey then
      passWhile goesOn fuel turns (d.next fuel) (some (d.savedKey, d.savedValue))
    else (d, passed)

def seekToLast (fuel : Nat) (d : DBIterator ι) : DBIterator ι :=
  match d.iter with
  | none => d
  | some _ =>
    match passWhile (fun _ => true) fuel fuel (d.seekToFirst fuel) none with
    | (d, none) => d
    | (d, some (key, value)) => { d with savedKey := key, savedValue := value, valid := true }

def prev (fuel : Nat) (d : DBIterator ι) : DBIterator ι :=
  match passWhile (fun key => key < d.savedKey) fuel fuel (d.seekToFirst fuel) none with
  | (d, none) => { d with valid := false }
  | (d, some (key, value)) => { d with savedKey := key, savedValue := value, valid := true }

/-- `for (SeekToFirst(); Valid(); Next())`, at most `turns` entries. -/
def scanFrom (fuel : Nat) : Nat → DBIterator ι → List (Key × Bytes)
  | 0, _ => []
  | turns + 1, d =>
    if d.valid then (d.savedKey, d.savedValue) :: scanFrom fuel turns (d.next fuel) else []

def scan (fuel : Nat) (d : DBIterator ι) : List (Key × Bytes) :=
  scanFrom fuel fuel (d.seekToFirst fuel)

def endFrom (fuel : Nat) : Nat → DBIterator ι → DBIterator ι
  | 0, d => d
  | turns + 1, d => if d.valid then endFrom fuel turns (d.next fuel) else d

def scanEnd (fuel : Nat) (d : DBIterator ι) : DBIterator ι :=
  endFrom fuel fuel (d.seekToFirst fuel)

def status (d : DBIterator ι) : Status :=
  match d.iter with
  | none => .ok
  | some iter => iter.status

end DBIterator

end Strata
