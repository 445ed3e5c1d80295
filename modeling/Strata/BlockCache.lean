import Mathlib.Data.List.Basic
import Strata.Block

/-! The block cache: blocks under the number of their file and their offset in
it, the most recently used first, up to a total charge. -/
namespace Strata

structure CacheEntry where
  fileNumber : Nat
  offset : Nat
  block : Block
  charge : Nat
  deriving DecidableEq, Repr

def CacheEntry.hasKey (fileNumber offset : Nat) (e : CacheEntry) : Bool :=
  e.fileNumber = fileNumber ∧ e.offset = offset

/-- `table_` is an index into `lru_list_`, so the list is all there is. -/
structure BlockCache where
  capacity : Nat
  totalCharge : Nat
  lruList : List CacheEntry
  deriving DecidableEq, Repr

namespace BlockCache

def new (capacity : Nat) : BlockCache := ⟨capacity, 0, []⟩

def lookup (c : BlockCache) (fileNumber offset : Nat) : Option Block × BlockCache :=
  match c.lruList.find? (CacheEntry.hasKey fileNumber offset) with
  | none => (none, c)
  | some e =>
    (some e.block,
      { c with lruList := e :: c.lruList.eraseP (CacheEntry.hasKey fileNumber offset) })

def erase (c : BlockCache) (fileNumber offset : Nat) : BlockCache :=
  match c.lruList.find? (CacheEntry.hasKey fileNumber offset) with
  | none => c
  | some e =>
    { c with
      totalCharge := c.totalCharge - e.charge
      lruList := c.lruList.eraseP (CacheEntry.hasKey fileNumber offset) }

def clear (c : BlockCache) : BlockCache := { c with totalCharge := 0, lruList := [] }

/-- The loop that makes room: the total and the entries that stay, the least
recently used first. -/
def evict (capacity charge : Nat) : Nat → List CacheEntry → Nat × List CacheEntry
  | total, [] => (total, [])
  | total, last :: rest =>
    if total + charge > capacity then evict capacity charge (total - last.charge) rest
    else (total, last :: rest)

def insert (c : BlockCache) (fileNumber offset : Nat) (block : Block) (charge : Nat) :
    BlockCache :=
  let c := c.erase fileNumber offset
  let (total, kept) := evict c.capacity charge c.totalCharge c.lruList.reverse
  { c with
    totalCharge := total + charge
    lruList := ⟨fileNumber, offset, block, charge⟩ :: kept.reverse }

variable {c : BlockCache} {fileNumber offset : Nat}

theorem lookup_fst (c : BlockCache) (fileNumber offset : Nat) :
    (c.lookup fileNumber offset).1 =
      (c.lruList.find? (CacheEntry.hasKey fileNumber offset)).map CacheEntry.block := by
  unfold lookup
  cases c.lruList.find? (CacheEntry.hasKey fileNumber offset) <;> rfl

theorem mem_lookup {e : CacheEntry} (h : e ∈ (c.lookup fileNumber offset).2.lruList) :
    e ∈ c.lruList := by
  unfold lookup at h
  split at h
  · exact h
  · rename_i found hfind
    rcases List.mem_cons.mp h with rfl | h
    · exact List.mem_of_find?_eq_some hfind
    · exact List.mem_of_mem_eraseP h

theorem evict_suffix (capacity charge total : Nat) (entries : List CacheEntry) :
    (evict capacity charge total entries).2 <:+ entries := by
  induction entries generalizing total with
  | nil => exact List.suffix_refl _
  | cons last rest ih =>
    unfold evict
    split
    · exact (ih _).trans (List.suffix_cons last rest)
    · exact List.suffix_refl _

theorem mem_erase {e : CacheEntry} (h : e ∈ (c.erase fileNumber offset).lruList) :
    e ∈ c.lruList := by
  unfold erase at h
  split at h
  · exact h
  · exact List.mem_of_mem_eraseP h

theorem mem_insert {block : Block} {charge : Nat} {e : CacheEntry}
    (h : e ∈ (c.insert fileNumber offset block charge).lruList) :
    e = ⟨fileNumber, offset, block, charge⟩ ∨ e ∈ c.lruList := by
  rcases List.mem_cons.mp h with heq | hkept
  · exact Or.inl heq
  · have hmem := (evict_suffix _ _ _ _).subset (List.mem_reverse.mp hkept)
    exact Or.inr (mem_erase (List.mem_reverse.mp hmem))

end BlockCache

end Strata
