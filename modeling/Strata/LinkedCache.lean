import Mathlib.Data.List.AList
import Strata.BlockCache

/-! The block cache as it is kept in memory: a list of nodes, a table from keys to nodes
and a running total in 64 bits, each updated on its own. On every cache that its
operations lead to they say the same, and the operations do what the plain list of
`BlockCache` does. -/
namespace Strata

structure CacheKey where
  fileNumber : Nat
  offset : Nat
  deriving DecidableEq, Repr

def CacheEntry.key (e : CacheEntry) : CacheKey := ⟨e.fileNumber, e.offset⟩

/-- The nodes of `lru_list_` have names, which stand for the iterators that `table_`
holds. Whether a subtraction from `total_charge_` went below zero is noted. -/
structure LinkedCache where
  capacityBytes : Nat
  totalCharge : Nat
  lruList : List (Nat × CacheEntry)
  table : AList fun _ : CacheKey => Nat
  fresh : Nat
  underflow : Bool

namespace LinkedCache

def new (capacityBytes : Nat) : LinkedCache := ⟨capacityBytes, 0, [], ∅, 0, false⟩

/-- What an iterator leads to; there is nothing at one whose node is gone. -/
def deref (c : LinkedCache) (node : Nat) : Option CacheEntry :=
  (c.lruList.find? fun n => n.1 = node).map Prod.snd

/-- `total_charge_ -= charge` -/
def discharged (total charge : Nat) : Nat :=
  if charge ≤ total then total - charge else total + (2 ^ 64 - charge)

/-- Takes the node of an entry out of the table; the list is the one without the node. -/
def unlink (c : LinkedCache) (e : CacheEntry) (rest : List (Nat × CacheEntry)) : LinkedCache :=
  { c with
    totalCharge := discharged c.totalCharge e.charge
    lruList := rest
    table := c.table.erase e.key
    underflow := c.underflow || c.totalCharge < e.charge }

/-- No result where the code would follow an iterator to a node that is gone. -/
def lookup (c : LinkedCache) (key : CacheKey) : Option (Option Block × LinkedCache) :=
  match c.table.lookup key with
  | none => some (none, c)
  | some node => do
    let e ← c.deref node
    some (some e.block,
      { c with lruList := (node, e) :: c.lruList.eraseP fun n => n.1 = node })

def erase (c : LinkedCache) (key : CacheKey) : Option LinkedCache :=
  match c.table.lookup key with
  | none => some c
  | some node => do
    let e ← c.deref node
    some (c.unlink e (c.lruList.eraseP fun n => n.1 = node))

/-- The loop of `Insert`; each round takes a node away. -/
def makeRoom (charge : Nat) : Nat → LinkedCache → LinkedCache
  | 0, c => c
  | rounds + 1, c =>
    if (c.totalCharge + charge) % 2 ^ 64 > c.capacityBytes then
      match c.lruList.getLast? with
      | none => c
      | some last => makeRoom charge rounds (c.unlink last.2 c.lruList.dropLast)
    else c

/-- The last part of `Insert`. -/
def push (c : LinkedCache) (key : CacheKey) (block : Block) (charge : Nat) : LinkedCache :=
  { c with
    totalCharge := (c.totalCharge + charge) % 2 ^ 64
    lruList := (c.fresh, ⟨key.fileNumber, key.offset, block, charge⟩) :: c.lruList
    table := c.table.insert key c.fresh
    fresh := c.fresh + 1 }

/-- The first part is what `Erase` does. -/
def insert (c : LinkedCache) (key : CacheKey) (block : Block) (charge : Nat) :
    Option LinkedCache := do
  let c ← c.erase key
  some ((makeRoom charge c.lruList.length c).push key block charge)

def clear (c : LinkedCache) : LinkedCache := { c with totalCharge := 0, lruList := [], table := ∅ }

def entries (c : LinkedCache) : List CacheEntry := c.lruList.map Prod.snd

def keys (c : LinkedCache) : List CacheKey := c.entries.map CacheEntry.key

def toCache (c : LinkedCache) : BlockCache := ⟨c.capacityBytes, c.totalCharge, c.entries⟩

structure Linked (c : LinkedCache) : Prop where
  names : (c.lruList.map Prod.fst).Nodup
  keys : c.keys.Nodup
  table : ∀ key node, c.table.lookup key = some node ↔ ∃ e, (node, e) ∈ c.lruList ∧ e.key = key
  fresh : ∀ n ∈ c.lruList, n.1 < c.fresh
  total : c.totalCharge = (c.entries.map CacheEntry.charge).sum
  small : c.totalCharge < 2 ^ 64
  exact : c.underflow = false

variable {c : LinkedCache} {key : CacheKey} {node : Nat} {e : CacheEntry}

theorem new_linked (capacityBytes : Nat) : (new capacityBytes).Linked := by
  refine ⟨List.nodup_nil, List.nodup_nil, ?_, nofun, rfl, Nat.two_pow_pos 64, rfl⟩
  intro key node
  simp [new]

theorem clear_linked (h : c.Linked) : c.clear.Linked := by
  refine ⟨List.nodup_nil, List.nodup_nil, ?_, nofun, rfl, Nat.two_pow_pos 64, h.exact⟩
  intro key node
  simp [clear]

theorem hasKey_iff (e : CacheEntry) :
    CacheEntry.hasKey key.fileNumber key.offset e = true ↔ e.key = key := by
  cases key
  simp [CacheEntry.hasKey, CacheEntry.key]

structure Around (c : LinkedCache) (key : CacheKey) (node : Nat) (e : CacheEntry)
    (front back : List (Nat × CacheEntry)) : Prop where
  split : c.lruList = front ++ (node, e) :: back
  entry : e.key = key
  names : ∀ n ∈ front ++ back, n.1 ≠ node
  others : ∀ n ∈ front ++ back, n.2.key ≠ key

theorem Linked.around_split (h : c.Linked) {front back : List (Nat × CacheEntry)}
    (hsplit : c.lruList = front ++ (node, e) :: back) : c.Around e.key node e front back := by
  refine ⟨hsplit, rfl, ?_, ?_⟩
  · intro n hn heq
    have hnames := h.names
    rw [hsplit, List.map_append, List.map_cons, List.nodup_middle, List.nodup_cons,
      ← List.map_append] at hnames
    have hname := List.mem_map_of_mem (f := Prod.fst) hn
    rw [heq] at hname
    exact hnames.1 hname
  · intro n hn heq
    have hkeys := h.keys
    unfold LinkedCache.keys entries at hkeys
    rw [hsplit, List.map_map, List.map_append, List.map_cons, List.nodup_middle, List.nodup_cons,
      ← List.map_append] at hkeys
    apply hkeys.1
    rw [Function.comp_apply, ← heq]
    exact List.mem_map_of_mem hn

theorem Linked.around (h : c.Linked) (hnode : c.table.lookup key = some node) :
    ∃ e front back, c.Around key node e front back := by
  obtain ⟨e, hmem, rfl⟩ := (h.table key node).mp hnode
  obtain ⟨front, back, hsplit⟩ := List.append_of_mem hmem
  exact ⟨e, front, back, h.around_split hsplit⟩

namespace Around

variable {front back : List (Nat × CacheEntry)}

theorem deref (h : c.Around key node e front back) : c.deref node = some e := by
  have hfront : front.find? (fun n => n.1 = node) = none := by
    rw [List.find?_eq_none]
    intro n hn
    simpa using h.names n (List.mem_append_left back hn)
  rw [LinkedCache.deref, h.split, List.find?_append, hfront]
  simp

theorem eraseP_node (h : c.Around key node e front back) :
    c.lruList.eraseP (fun n => n.1 = node) = front ++ back := by
  rw [h.split, List.eraseP_append_right]
  · simp
  · intro n hn
    simpa using h.names n (List.mem_append_left back hn)

theorem entries_eq (h : c.Around key node e front back) :
    c.entries = front.map Prod.snd ++ e :: back.map Prod.snd := by
  rw [LinkedCache.entries, h.split]
  simp

theorem find_key (h : c.Around key node e front back) :
    c.entries.find? (CacheEntry.hasKey key.fileNumber key.offset) = some e := by
  have hfront : (front.map Prod.snd).find? (CacheEntry.hasKey key.fileNumber key.offset) = none := by
    rw [List.find?_eq_none]
    intro x hx
    obtain ⟨n, hn, rfl⟩ := List.mem_map.mp hx
    rw [hasKey_iff]
    exact h.others n (List.mem_append_left back hn)
  rw [h.entries_eq, List.find?_append, hfront, Option.none_or,
    List.find?_cons_of_pos ((hasKey_iff e).mpr h.entry)]

theorem eraseP_key (h : c.Around key node e front back) :
    c.entries.eraseP (CacheEntry.hasKey key.fileNumber key.offset) =
      (front ++ back).map Prod.snd := by
  rw [h.entries_eq, List.eraseP_append_right, List.eraseP_cons_of_pos, List.map_append]
  · exact (hasKey_iff e).mpr h.entry
  · intro x hx
    obtain ⟨n, hn, rfl⟩ := List.mem_map.mp hx
    rw [hasKey_iff]
    exact h.others n (List.mem_append_left back hn)

end Around

theorem Linked.find_none (h : c.Linked) (hnode : c.table.lookup key = none) :
    c.entries.find? (CacheEntry.hasKey key.fileNumber key.offset) = none := by
  rw [List.find?_eq_none]
  intro x hx
  obtain ⟨n, hn, rfl⟩ := List.mem_map.mp hx
  rw [hasKey_iff]
  intro hkey
  rw [(h.table key n.1).mpr ⟨n.2, hn, hkey⟩] at hnode
  cases hnode

theorem Linked.lookup_eq (h : c.Linked) (key : CacheKey) :
    ∃ c', c.lookup key = some ((c.toCache.lookup key.fileNumber key.offset).1, c') ∧ c'.Linked ∧
      c'.toCache = (c.toCache.lookup key.fileNumber key.offset).2 := by
  unfold LinkedCache.lookup BlockCache.lookup
  cases hnode : c.table.lookup key with
  | none =>
    have hfind : c.toCache.lruList.find? (CacheEntry.hasKey key.fileNumber key.offset) = none :=
      h.find_none hnode
    rw [hfind]
    exact ⟨c, rfl, h, rfl⟩
  | some node =>
    obtain ⟨e, front, back, hat⟩ := h.around hnode
    have hfind : c.toCache.lruList.find? (CacheEntry.hasKey key.fileNumber key.offset) = some e :=
      hat.find_key
    have herase : c.toCache.lruList.eraseP (CacheEntry.hasKey key.fileNumber key.offset) =
        (front ++ back).map Prod.snd := hat.eraseP_key
    have hperm : ((node, e) :: (front ++ back)).Perm c.lruList := by
      rw [hat.split]
      exact List.perm_middle.symm
    simp only [hat.deref, hfind, herase, hat.eraseP_node]
    refine ⟨_, rfl, ⟨?_, ?_, ?_, ?_, ?_, h.small, h.exact⟩, rfl⟩
    · exact (hperm.map Prod.fst).nodup_iff.mpr h.names
    · exact ((hperm.map Prod.snd).map CacheEntry.key).nodup_iff.mpr h.keys
    · intro key' node'
      simp only [hperm.mem_iff]
      exact h.table key' node'
    · intro n hn
      exact h.fresh n (hperm.mem_iff.mp hn)
    · rw [h.total]
      exact (((hperm.map Prod.snd).map CacheEntry.charge).sum_nat).symm

@[simp] theorem unlink_totalCharge (c : LinkedCache) (e : CacheEntry)
    (rest : List (Nat × CacheEntry)) :
    (c.unlink e rest).totalCharge = discharged c.totalCharge e.charge := rfl

theorem Linked.unlink (h : c.Linked) {front back : List (Nat × CacheEntry)}
    (hat : c.Around key node e front back) :
    (c.unlink e (front ++ back)).Linked ∧
      (c.unlink e (front ++ back)).totalCharge = c.totalCharge - e.charge := by
  have hperm : ((node, e) :: (front ++ back)).Perm c.lruList := by
    rw [hat.split]
    exact List.perm_middle.symm
  have hsum : c.totalCharge =
      e.charge + (((front ++ back).map Prod.snd).map CacheEntry.charge).sum := by
    rw [h.total]
    exact (((hperm.map Prod.snd).map CacheEntry.charge).sum_nat).symm
  have htotal : (c.unlink e (front ++ back)).totalCharge =
      (((front ++ back).map Prod.snd).map CacheEntry.charge).sum := by
    rw [unlink_totalCharge, discharged, if_pos (by omega)]
    omega
  have hrest : (((front ++ back).map Prod.snd).map CacheEntry.charge).sum =
      c.totalCharge - e.charge := by omega
  have hsmall : (c.unlink e (front ++ back)).totalCharge < 2 ^ 64 := by
    rw [htotal, hrest]
    exact lt_of_le_of_lt (Nat.sub_le _ _) h.small
  refine ⟨⟨?_, ?_, ?_, ?_, htotal, hsmall, ?_⟩, htotal.trans hrest⟩
  · have hnames := (hperm.map Prod.fst).nodup_iff.mpr h.names
    exact (List.nodup_cons.mp hnames).2
  · have hkeys := ((hperm.map Prod.snd).map CacheEntry.key).nodup_iff.mpr h.keys
    exact (List.nodup_cons.mp hkeys).2
  · intro key' node'
    change (c.table.erase e.key).lookup key' = some node' ↔
      ∃ x, (node', x) ∈ front ++ back ∧ x.key = key'
    rw [hat.entry]
    by_cases heq : key' = key
    · subst heq
      rw [AList.lookup_erase]
      constructor
      · exact nofun
      · rintro ⟨x, hx, hkey⟩
        exact absurd hkey (hat.others _ hx)
    · rw [AList.lookup_erase_ne heq, h.table key' node']
      constructor
      · rintro ⟨x, hx, rfl⟩
        rcases List.mem_cons.mp (hperm.mem_iff.mpr hx) with hsame | hrest
        · cases hsame
          exact absurd hat.entry heq
        · exact ⟨x, hrest, rfl⟩
      · rintro ⟨x, hx, rfl⟩
        exact ⟨x, hperm.mem_iff.mp (List.mem_cons_of_mem _ hx), rfl⟩
  · intro n hn
    exact h.fresh n (hperm.mem_iff.mp (List.mem_cons_of_mem _ hn))
  · have hle : ¬ c.totalCharge < e.charge := by omega
    simp [LinkedCache.unlink, h.exact, hle]

theorem Linked.erase_eq (h : c.Linked) (key : CacheKey) :
    ∃ c', c.erase key = some c' ∧ c'.Linked ∧
      c'.toCache = c.toCache.erase key.fileNumber key.offset ∧
      c'.table.lookup key = none ∧ c'.totalCharge ≤ c.totalCharge := by
  unfold LinkedCache.erase BlockCache.erase
  cases hnode : c.table.lookup key with
  | none =>
    have hfind : c.toCache.lruList.find? (CacheEntry.hasKey key.fileNumber key.offset) = none :=
      h.find_none hnode
    rw [hfind]
    exact ⟨c, rfl, h, rfl, hnode, le_refl _⟩
  | some node =>
    obtain ⟨e, front, back, hat⟩ := h.around hnode
    have hfind : c.toCache.lruList.find? (CacheEntry.hasKey key.fileNumber key.offset) = some e :=
      hat.find_key
    have herase : c.toCache.lruList.eraseP (CacheEntry.hasKey key.fileNumber key.offset) =
        (front ++ back).map Prod.snd := hat.eraseP_key
    obtain ⟨hlinked, htotal⟩ := h.unlink hat
    simp only [hat.deref, hfind, herase, hat.eraseP_node]
    refine ⟨_, rfl, hlinked, ?_, ?_, ?_⟩
    · rw [toCache, htotal]
      rfl
    · change (c.table.erase e.key).lookup key = none
      rw [hat.entry, AList.lookup_erase]
    · rw [htotal]
      exact Nat.sub_le _ _

theorem Linked.makeRoom_eq (h : c.Linked) {charge : Nat} (hfits : c.totalCharge + charge < 2 ^ 64)
    {rounds : Nat} (hrounds : c.lruList.length ≤ rounds) :
    (makeRoom charge rounds c).Linked ∧
      (makeRoom charge rounds c).capacityBytes = c.capacityBytes ∧
      (makeRoom charge rounds c).totalCharge + charge < 2 ^ 64 ∧
      ((makeRoom charge rounds c).totalCharge, (makeRoom charge rounds c).entries.reverse) =
        BlockCache.evict c.capacityBytes charge c.totalCharge c.entries.reverse := by
  induction rounds generalizing c with
  | zero =>
    have hnil : c.entries = [] := by
      rw [entries, List.length_eq_zero_iff.mp (Nat.le_zero.mp hrounds)]
      rfl
    refine ⟨h, rfl, hfits, ?_⟩
    rw [makeRoom, hnil]
    rfl
  | succ rounds ih =>
    unfold makeRoom
    rw [Nat.mod_eq_of_lt hfits]
    cases hlast : c.lruList.getLast? with
    | none =>
      have hnil : c.entries = [] := by
        rw [entries, List.getLast?_eq_none_iff.mp hlast]
        rfl
      simp only [ite_self]
      refine ⟨h, trivial, hfits, ?_⟩
      rw [hnil]
      rfl
    | some last =>
      have hsplit : c.lruList = c.lruList.dropLast ++ (last.1, last.2) :: [] :=
        (List.dropLast_append_getLast? last hlast).symm
      have hentries : c.entries.reverse = last.2 :: (c.lruList.dropLast.map Prod.snd).reverse := by
        rw [entries]
        conv_lhs => rw [hsplit]
        simp
      rw [hentries, BlockCache.evict]
      by_cases hfull : c.totalCharge + charge > c.capacityBytes
      · obtain ⟨hlinked, htotal⟩ := h.unlink (h.around_split hsplit)
        rw [List.append_nil] at hlinked htotal
        rw [if_pos hfull, if_pos hfull, ← htotal]
        apply ih hlinked
        · omega
        · change c.lruList.dropLast.length ≤ rounds
          rw [List.length_dropLast]
          omega
      · rw [if_neg hfull, if_neg hfull, ← hentries]
        exact ⟨h, rfl, hfits, rfl⟩

theorem Linked.push (h : c.Linked) (key : CacheKey) (block : Block) {charge : Nat}
    (hfits : c.totalCharge + charge < 2 ^ 64) (habsent : c.table.lookup key = none) :
    (c.push key block charge).Linked ∧
      (c.push key block charge).totalCharge = c.totalCharge + charge := by
  have htotal : (c.push key block charge).totalCharge = c.totalCharge + charge :=
    Nat.mod_eq_of_lt hfits
  have hnew : ∀ n ∈ c.lruList, n.2.key ≠ key := by
    intro n hn hkey
    rw [(h.table key n.1).mpr ⟨n.2, hn, hkey⟩] at habsent
    cases habsent
  refine ⟨⟨?_, ?_, ?_, ?_, ?_, by rw [htotal]; exact hfits, h.exact⟩, htotal⟩
  · refine List.nodup_cons.mpr ⟨?_, h.names⟩
    intro hmem
    obtain ⟨n, hn, heq⟩ := List.mem_map.mp hmem
    exact absurd heq (h.fresh n hn).ne
  · refine List.nodup_cons.mpr ⟨?_, h.keys⟩
    intro hmem
    obtain ⟨x, hx, heq⟩ := List.mem_map.mp hmem
    obtain ⟨n, hn, rfl⟩ := List.mem_map.mp hx
    exact hnew n hn heq
  · intro key' node'
    change (c.table.insert key c.fresh).lookup key' = some node' ↔
      ∃ x, (node', x) ∈ (c.fresh, (⟨key.fileNumber, key.offset, block, charge⟩ : CacheEntry)) ::
        c.lruList ∧ x.key = key'
    by_cases heq : key' = key
    · subst heq
      rw [AList.lookup_insert, Option.some.injEq]
      constructor
      · rintro rfl
        exact ⟨_, List.mem_cons_self, rfl⟩
      · rintro ⟨x, hx, hkey⟩
        rcases List.mem_cons.mp hx with hsame | hrest
        · exact (congrArg Prod.fst hsame).symm
        · exact absurd hkey (hnew _ hrest)
    · rw [AList.lookup_insert_ne heq, h.table key' node']
      constructor
      · rintro ⟨x, hx, hkey⟩
        exact ⟨x, List.mem_cons_of_mem _ hx, hkey⟩
      · rintro ⟨x, hx, hkey⟩
        rcases List.mem_cons.mp hx with hsame | hrest
        · cases hsame
          exact absurd hkey.symm heq
        · exact ⟨x, hrest, hkey⟩
  · intro n hn
    rcases List.mem_cons.mp hn with rfl | hn
    · exact Nat.lt_succ_self c.fresh
    · exact Nat.lt_succ_of_lt (h.fresh n hn)
  · rw [htotal, h.total, Nat.add_comm]
    rfl

theorem Linked.insert_eq (h : c.Linked) (key : CacheKey) (block : Block) {charge : Nat}
    (hfits : c.totalCharge + charge < 2 ^ 64) :
    ∃ c', c.insert key block charge = some c' ∧ c'.Linked ∧
      c'.toCache = c.toCache.insert key.fileNumber key.offset block charge := by
  obtain ⟨without, herase, hlinked, hsame, habsent, hless⟩ := h.erase_eq key
  have hsmall : without.totalCharge + charge < 2 ^ 64 := by omega
  obtain ⟨hroom, hcapacity, hfits', hevict⟩ := hlinked.makeRoom_eq hsmall (le_refl _)
  generalize hafter : makeRoom charge without.lruList.length without = room at *
  have hstill : room.table.lookup key = none := by
    cases hnode : room.table.lookup key with
    | none => rfl
    | some node =>
      obtain ⟨e, hmem, hkey⟩ := (hroom.table key node).mp hnode
      have hsuffix := BlockCache.evict_suffix without.capacityBytes charge without.totalCharge
        without.entries.reverse
      rw [← hevict] at hsuffix
      have hin : e ∈ without.entries := by
        apply List.mem_reverse.mp (hsuffix.subset (List.mem_reverse.mpr _))
        exact List.mem_map.mpr ⟨_, hmem, rfl⟩
      obtain ⟨n, hn, rfl⟩ := List.mem_map.mp hin
      rw [(hlinked.table key n.1).mpr ⟨n.2, hn, hkey⟩] at habsent
      cases habsent
  obtain ⟨hpush, htotal⟩ := hroom.push key block hfits' hstill
  refine ⟨room.push key block charge, ?_, hpush, ?_⟩
  · rw [LinkedCache.insert, herase, ← hafter]
    rfl
  · have hkept : BlockCache.evict without.toCache.capacity charge without.toCache.totalCharge
        without.toCache.lruList.reverse = (room.totalCharge, room.entries.reverse) := hevict.symm
    simp only [BlockCache.insert, ← hsame, hkept, List.reverse_reverse]
    rw [toCache, htotal]
    exact congrArg (fun capacity => BlockCache.mk capacity _ _) hcapacity

end LinkedCache

end Strata
