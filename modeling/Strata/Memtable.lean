import Mathlib.Data.List.Sort
import Strata.InternalIterator
import Strata.SSTableReader

/-! The memtable. The skip list is kept as the sorted list of its nodes: an
insertion goes in front of the first node that is not before it. -/
namespace Strata

structure Memtable where
  entries : List Entry
  memoryUsage : Nat
  deriving DecidableEq, Repr

/-- `sizeof(MemtableEntry)` with two 32-byte strings. -/
def kMemtableEntrySize : Nat := 80

namespace Memtable

def new : Memtable := ⟨[], 0⟩

def insert (e : Entry) (entries : List Entry) : List Entry :=
  entries.orderedInsert (fun a b => ¬ b.before a) e

def add (m : Memtable) (e : Entry) : Memtable :=
  ⟨insert e m.entries,
    m.memoryUsage + (kMemtableEntrySize + e.userKey.length + e.value.length + 8 * 8)⟩

def count (m : Memtable) : Nat := m.entries.length

def approximateMemoryUsage (m : Memtable) : Nat := m.memoryUsage

def seekEntries (m : Memtable) (probe : Entry) : List Entry :=
  m.entries.dropWhile fun e => e.before probe

def get (m : Memtable) (key : Key) (seq : Nat) : Lookup :=
  match m.seekEntries ⟨key, seq, kTypeValue, []⟩ with
  | [] => .absent
  | e :: _ =>
    if e.userKey = key then
      if e.type = kTypeValue then .found e.value
      else if e.type = kTypeDeletion then .deleted
      else .absent
    else .absent

theorem perm_add (m : Memtable) (e : Entry) : (m.add e).entries.Perm (e :: m.entries) :=
  List.perm_orderedInsert _ e m.entries

theorem perm_foldl_add (m : Memtable) (records : List Entry) :
    (records.foldl add m).entries.Perm (records ++ m.entries) := by
  induction records generalizing m with
  | nil => exact List.Perm.refl _
  | cons e rest ih =>
    have hrest := ih (m.add e)
    have hswap : (rest ++ (m.add e).entries).Perm (rest ++ e :: m.entries) :=
      (perm_add m e).append_left rest
    exact hrest.trans (hswap.trans List.perm_middle)

theorem count_foldl_add (records : List Entry) :
    (records.foldl add new).count = records.length := by
  have hperm := perm_foldl_add new records
  simpa [count, new] using hperm.length_eq

def Sorted (es : List Entry) : Prop := es.Pairwise fun a b => ¬ b.before a

theorem not_before_trans {a b c : Entry} (hab : ¬ b.before a) (hbc : ¬ c.before b) :
    ¬ c.before a := by
  simp only [Entry.before, not_or, not_and, not_lt] at hab hbc ⊢
  refine ⟨le_trans hab.1 hbc.1, fun hca => ?_⟩
  have hkey : b.userKey = a.userKey := le_antisymm (hca ▸ hbc.1) hab.1
  exact le_trans (hbc.2 (hca.trans hkey.symm)) (hab.2 hkey)

theorem not_before_total (a b : Entry) : ¬ b.before a ∨ ¬ a.before b := by
  by_contra hboth
  rw [not_or, not_not, not_not] at hboth
  rcases hboth with ⟨hba | ⟨hkey, hseq⟩, hab | ⟨hkey', hseq'⟩⟩
  · exact absurd hab (lt_asymm hba)
  · exact absurd hba (by simp [hkey'])
  · exact absurd hab (by simp [hkey])
  · omega

theorem sorted_insert {es : List Entry} (h : Sorted es) (e : Entry) : Sorted (insert e es) := by
  induction es with
  | nil => simp [Sorted, insert]
  | cons first rest ih =>
    obtain ⟨hfirst, hrest⟩ := List.pairwise_cons.mp h
    unfold insert
    rw [List.orderedInsert]
    split
    · rename_i hle
      refine List.pairwise_cons.mpr ⟨fun x hx => ?_, h⟩
      rcases List.mem_cons.mp hx with rfl | hx
      · exact hle
      · exact not_before_trans hle (hfirst x hx)
    · rename_i hgt
      refine List.pairwise_cons.mpr ⟨fun x hx => ?_, ih hrest⟩
      rcases List.mem_cons.mp ((List.perm_orderedInsert _ e rest).mem_iff.mp hx) with rfl | hx
      · exact (not_before_total x first).resolve_left hgt
      · exact hfirst x hx

theorem sorted_foldl_add {m : Memtable} (h : Sorted m.entries) (records : List Entry) :
    Sorted (records.foldl add m).entries := by
  induction records generalizing m with
  | nil => exact h
  | cons e rest ih => exact ih (sorted_insert h e)

end Memtable

structure MemTableIterator where
  list : Memtable
  rest : List Entry
  deriving DecidableEq, Repr

def Memtable.newIterator (m : Memtable) : MemTableIterator := ⟨m, []⟩

namespace MemTableIterator

def valid (it : MemTableIterator) : Bool := !it.rest.isEmpty

def seekToFirst (it : MemTableIterator) : MemTableIterator := { it with rest := it.list.entries }

def seek (it : MemTableIterator) (target : Key) : MemTableIterator :=
  { it with rest := it.list.seekEntries ⟨target, kMaxSequenceNumber, kTypeValue, []⟩ }

def next (it : MemTableIterator) : MemTableIterator := { it with rest := it.rest.tail }

def entry (it : MemTableIterator) : Entry := it.rest.headD ⟨[], 0, kTypeValue, []⟩

end MemTableIterator

instance : InternalIterator MemTableIterator where
  valid := MemTableIterator.valid
  seekToFirst := MemTableIterator.seekToFirst
  seek := MemTableIterator.seek
  next := MemTableIterator.next
  entry := MemTableIterator.entry
  status _ := .ok

end Strata
