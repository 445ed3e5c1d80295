import Strata.LinkedCache

/-! The cache is an exact LRU. What happened so far says what it holds and in which
order: a use is an insertion or a lookup that finds something, the nodes stand in the
order of their last uses, and an insertion takes away those used least recently, as many
as are in the way. -/
namespace Strata

inductive CacheOp where
  | lookup (key : CacheKey)
  | insert (key : CacheKey) (block : Block) (charge : Nat)
  | erase (key : CacheKey)
  | clear

/-- The result is that of `Lookup`. -/
def LinkedCache.perform (c : LinkedCache) : CacheOp → Option (Option Block × LinkedCache)
  | .lookup key => c.lookup key
  | .insert key block charge => (c.insert key block charge).map fun c => (none, c)
  | .erase key => (c.erase key).map fun c => (none, c)
  | .clear => some (none, c.clear)

def CacheOp.Fits (op : CacheOp) (total : Nat) : Prop :=
  ∀ key block charge, op = .insert key block charge → total + charge < 2 ^ 64

structure CacheEvent where
  op : CacheOp
  result : Option Block
  evicted : List CacheKey

def CacheOp.evicted (op : CacheOp) (before after : List CacheKey) : List CacheKey :=
  match op with
  | .insert .. => before.filter fun key => key ∉ after
  | _ => []

inductive LinkedCache.Reached (capacity : Nat) : List CacheEvent → LinkedCache → Prop
  | new : Reached capacity [] (LinkedCache.new capacity)
  | call {history : List CacheEvent} {c c' : LinkedCache} {op : CacheOp} {result : Option Block}
      (h : Reached capacity history c) (hfits : op.Fits c.totalCharge)
      (hperform : c.perform op = some (result, c')) :
      Reached capacity (⟨op, result, op.evicted c.keys c'.keys⟩ :: history) c'

def CacheEvent.uses (event : CacheEvent) (key : CacheKey) : Bool :=
  match event.op with
  | .lookup k => k = key && event.result.isSome
  | .insert k _ _ => k = key
  | _ => false

def lastUse : List CacheEvent → CacheKey → Nat
  | [], _ => 0
  | event :: rest, key => if event.uses key then rest.length + 1 else lastUse rest key

/-- The block of the last insertion of the key, unless it was since erased, cleared or
evicted. -/
def heldBlock : List CacheEvent → CacheKey → Option Block
  | [], _ => none
  | event :: rest, key =>
    match event.op with
    | .lookup _ => heldBlock rest key
    | .insert k block _ =>
      if k = key then some block
      else if key ∈ event.evicted then none
      else heldBlock rest key
    | .erase k => if k = key then none else heldBlock rest key
    | .clear => none

def charges (es : List CacheEntry) : Nat := (es.map CacheEntry.charge).sum

/-- What the entries other than the key's, used not earlier than this one, take up. -/
def chargesSince (history : List CacheEvent) (es : List CacheEntry) (key : CacheKey)
    (e : CacheEntry) : Nat :=
  charges (es.filter fun x => x.key ≠ key ∧ lastUse history e.key ≤ lastUse history x.key)

structure LinkedCache.ExactLru (capacity : Nat) (history : List CacheEvent) (c : LinkedCache) :
    Prop where
  keys_nodup : c.keys.Nodup
  table_keys : ∀ key, key ∈ c.table ↔ key ∈ c.keys
  total : c.totalCharge = charges c.entries
  no_underflow : c.underflow = false
  /-- No call follows an iterator to a node that is gone. -/
  defined : ∀ op : CacheOp, op.Fits c.totalCharge → ∃ result c', c.perform op = some (result, c')
  lookup : ∀ key result c', c.perform (.lookup key) = some (result, c') →
    result = heldBlock history key
  /-- An entry goes exactly if it and those used since do not leave room. -/
  evicts_iff : ∀ key block charge result c', c.totalCharge + charge < 2 ^ 64 →
    c.perform (.insert key block charge) = some (result, c') →
    ∀ e ∈ c.entries, e.key ≠ key →
      (e ∉ c'.entries ↔ capacity < charge + chargesSince history c.entries key e)
  evicts_oldest : ∀ key block charge result c', c.totalCharge + charge < 2 ^ 64 →
    c.perform (.insert key block charge) = some (result, c') →
    ∀ e ∈ c.entries, e.key ≠ key → e ∉ c'.entries →
      ∀ kept ∈ c'.entries, kept.key ≠ key → lastUse history e.key < lastUse history kept.key
  bounded : (∀ event ∈ history, ∀ key block charge, event.op = .insert key block charge →
    charge ≤ capacity) → c.totalCharge ≤ capacity

/-! The list. -/

@[simp] theorem charges_nil : charges [] = 0 := rfl

@[simp] theorem charges_cons (e : CacheEntry) (es : List CacheEntry) :
    charges (e :: es) = e.charge + charges es := rfl

@[simp] theorem charges_append (front back : List CacheEntry) :
    charges (front ++ back) = charges front + charges back := by
  simp [charges]

theorem charges_reverse (es : List CacheEntry) : charges es.reverse = charges es := by
  simp [charges]

theorem charges_filter_le (es : List CacheEntry) (p : CacheEntry → Bool) :
    charges (es.filter p) ≤ charges es := by
  induction es with
  | nil => rfl
  | cons e rest ih =>
    rw [List.filter_cons]
    split
    · rw [charges_cons, charges_cons]
      omega
    · rw [charges_cons]
      omega

namespace BlockCache

theorem evict_spec (capacity charge : Nat) (es : List CacheEntry) :
    (evict capacity charge (charges es) es).1 = charges (evict capacity charge (charges es) es).2 ∧
      ((evict capacity charge (charges es) es).2 = [] ∨
        charge + charges (evict capacity charge (charges es) es).2 ≤ capacity) ∧
      ∃ gone, es = gone ++ (evict capacity charge (charges es) es).2 ∧
        ∀ front x back, gone = front ++ x :: back → capacity < charge +
          charges (x :: back ++ (evict capacity charge (charges es) es).2) := by
  induction es with
  | nil => exact ⟨rfl, Or.inl rfl, [], rfl, by simp⟩
  | cons last rest ih =>
    obtain ⟨htotal, hroom, gone, hsplit, hneeded⟩ := ih
    rw [evict, charges_cons, Nat.add_sub_cancel_left]
    by_cases hfull : last.charge + charges rest + charge > capacity
    · rw [if_pos hfull]
      refine ⟨htotal, hroom, last :: gone, congrArg (last :: ·) hsplit, ?_⟩
      intro front x back heq
      cases front with
      | nil =>
        cases heq
        rw [List.cons_append, ← hsplit, charges_cons]
        omega
      | cons y front =>
        cases heq
        exact hneeded front x back rfl
    · rw [if_neg hfull]
      refine ⟨rfl, Or.inr (by rw [charges_cons]; omega), [], rfl, by simp⟩

end BlockCache

def others (es : List CacheEntry) (key : CacheKey) : List CacheEntry :=
  es.filter fun e => e.key ≠ key

def blockOf (es : List CacheEntry) (key : CacheKey) : Option Block :=
  (es.find? fun e => e.key = key).map CacheEntry.block

section Entries

variable {es : List CacheEntry} {key : CacheKey}

theorem hasKey_eq (key : CacheKey) :
    CacheEntry.hasKey key.fileNumber key.offset = fun e => decide (e.key = key) := by
  funext e
  rw [Bool.eq_iff_iff, LinkedCache.hasKey_iff, decide_eq_true_iff]

theorem mem_others {e : CacheEntry} : e ∈ others es key ↔ e ∈ es ∧ e.key ≠ key := by
  simp [others]

theorem others_eq_self (h : ∀ e ∈ es, e.key ≠ key) : others es key = es := by
  rw [others, List.filter_eq_self]
  intro e he
  simpa using h e he

theorem eraseP_eq_others (h : (es.map CacheEntry.key).Nodup) :
    es.eraseP (fun e => e.key = key) = others es key := by
  induction es with
  | nil => rfl
  | cons e rest ih =>
    obtain ⟨hnew, hrest⟩ := List.nodup_cons.mp h
    by_cases heq : e.key = key
    · rw [List.eraseP_cons_of_pos (by simpa using heq), others,
        List.filter_cons_of_neg (by simpa using heq)]
      symm
      apply others_eq_self
      intro x hx hkey
      exact hnew (heq.trans hkey.symm ▸ List.mem_map_of_mem hx)
    · rw [List.eraseP_cons_of_neg (by simpa using heq), ih hrest, others, others,
        List.filter_cons_of_pos (by simpa using heq)]

theorem charges_others (h : (es.map CacheEntry.key).Nodup) {e : CacheEntry}
    (hfind : es.find? (fun e => e.key = key) = some e) :
    charges es = e.charge + charges (others es key) := by
  induction es with
  | nil => cases hfind
  | cons x rest ih =>
    obtain ⟨hnew, hrest⟩ := List.nodup_cons.mp h
    by_cases heq : x.key = key
    · rw [List.find?_cons_of_pos (by simpa using heq)] at hfind
      cases hfind
      rw [← eraseP_eq_others h, List.eraseP_cons_of_pos (by simpa using heq), charges_cons]
    · rw [List.find?_cons_of_neg (by simpa using heq)] at hfind
      rw [others, List.filter_cons_of_pos (by simpa using heq), charges_cons, charges_cons,
        ih hrest hfind, others]
      omega

theorem blockOf_eq_none (h : ∀ e ∈ es, e.key ≠ key) : blockOf es key = none := by
  rw [blockOf, List.find?_eq_none.mpr]
  · rfl
  · intro e he
    simpa using h e he

theorem blockOf_others_self (es : List CacheEntry) (key : CacheKey) :
    blockOf (others es key) key = none :=
  blockOf_eq_none fun _ he => (mem_others.mp he).2

theorem blockOf_cons (e : CacheEntry) (es : List CacheEntry) (key : CacheKey) :
    blockOf (e :: es) key = if e.key = key then some e.block else blockOf es key := by
  by_cases heq : e.key = key
  · rw [blockOf, List.find?_cons_of_pos (by simpa using heq), if_pos heq]
    rfl
  · rw [blockOf, List.find?_cons_of_neg (by simpa using heq), if_neg heq, blockOf]

theorem blockOf_others {k : CacheKey} (h : k ≠ key) : blockOf (others es key) k = blockOf es k := by
  induction es with
  | nil => rfl
  | cons e rest ih =>
    rw [blockOf_cons]
    by_cases heq : e.key = key
    · rw [others, List.filter_cons_of_neg (by simpa using heq), if_neg (by rw [heq]; exact h.symm)]
      exact ih
    · rw [others, List.filter_cons_of_pos (by simpa using heq), blockOf_cons]
      exact congrArg _ ih

theorem blockOf_append {more : List CacheEntry} (h : ∃ e ∈ es, e.key = key) :
    blockOf (es ++ more) key = blockOf es key := by
  have hsome : (es.find? fun e => e.key = key).isSome = true := by
    rw [List.find?_isSome]
    simpa using h
  rw [blockOf, blockOf, List.find?_append]
  obtain ⟨e, he⟩ := Option.isSome_iff_exists.mp hsome
  rw [he]
  rfl

end Entries

namespace BlockCache

variable {b : BlockCache} {key : CacheKey}

theorem lookup_miss (h : b.lruList.find? (fun e => e.key = key) = none) :
    b.lookup key.fileNumber key.offset = (none, b) := by
  rw [lookup, hasKey_eq, h]

theorem lookup_hit (hkeys : (b.lruList.map CacheEntry.key).Nodup) {e : CacheEntry}
    (h : b.lruList.find? (fun e => e.key = key) = some e) :
    b.lookup key.fileNumber key.offset =
      (some e.block, { b with lruList := e :: others b.lruList key }) := by
  simp only [lookup, hasKey_eq, h, eraseP_eq_others hkeys]

theorem erase_spec (hkeys : (b.lruList.map CacheEntry.key).Nodup)
    (htotal : b.totalCharge = charges b.lruList) (key : CacheKey) :
    b.erase key.fileNumber key.offset =
      ⟨b.capacity, charges (others b.lruList key), others b.lruList key⟩ := by
  rw [erase, hasKey_eq]
  cases hfind : b.lruList.find? (fun e => e.key = key) with
  | none =>
    have hnone : others b.lruList key = b.lruList := by
      apply others_eq_self
      intro e he
      simpa using List.find?_eq_none.mp hfind e he
    rw [hnone, ← htotal]
  | some e =>
    simp only [eraseP_eq_others hkeys]
    rw [htotal, charges_others hkeys hfind, Nat.add_sub_cancel_left]

/-- The entries that stay stand in front of those that go, and each of those does not fit
with the ones in front of it. -/
theorem insert_spec (hkeys : (b.lruList.map CacheEntry.key).Nodup)
    (htotal : b.totalCharge = charges b.lruList) (key : CacheKey) (block : Block) (charge : Nat) :
    ∃ kept gone, others b.lruList key = kept ++ gone ∧
      b.insert key.fileNumber key.offset block charge = ⟨b.capacity, charges kept + charge,
        ⟨key.fileNumber, key.offset, block, charge⟩ :: kept⟩ ∧
      (kept = [] ∨ charge + charges kept ≤ b.capacity) ∧
      ∀ front x back, gone = front ++ x :: back →
        b.capacity < charge + charges (kept ++ front ++ [x]) := by
  have hevict := evict_spec b.capacity charge (others b.lruList key).reverse
  rw [charges_reverse] at hevict
  simp only [insert, erase_spec hkeys htotal]
  generalize evict b.capacity charge (charges (others b.lruList key))
    (others b.lruList key).reverse = left at hevict
  obtain ⟨hcharges, hroom, gone, hsplit, hneeded⟩ := hevict
  refine ⟨left.2.reverse, gone.reverse, ?_, ?_, ?_, ?_⟩
  · rw [← List.reverse_append, ← hsplit, List.reverse_reverse]
  · rw [hcharges, charges_reverse]
  · rw [charges_reverse, List.reverse_eq_nil_iff]
    exact hroom
  · intro front x back heq
    have hgone : gone = back.reverse ++ x :: front.reverse := by
      rw [← List.reverse_reverse gone, heq]
      simp
    have hlt := hneeded _ _ _ hgone
    simp only [charges_append, charges_cons, charges_nil, charges_reverse, List.cons_append] at hlt ⊢
    omega

end BlockCache

/-! Recency. -/

variable {history : List CacheEvent} {es : List CacheEntry}

theorem lastUse_le (history : List CacheEvent) (key : CacheKey) :
    lastUse history key ≤ history.length := by
  induction history with
  | nil => exact le_refl 0
  | cons event rest ih =>
    rw [lastUse, List.length_cons]
    split
    · exact le_refl _
    · omega

def ByRecency (history : List CacheEvent) (es : List CacheEntry) : Prop :=
  es.Pairwise fun x y => lastUse history y.key < lastUse history x.key

theorem ByRecency.unused (h : ByRecency history es) {event : CacheEvent}
    (hunused : ∀ e ∈ es, event.uses e.key = false) : ByRecency (event :: history) es := by
  apply List.Pairwise.imp_of_mem _ h
  intro x y hx hy hlt
  simpa [lastUse, hunused x hx, hunused y hy] using hlt

theorem ByRecency.used (h : ByRecency history es) {event : CacheEvent} {e : CacheEntry}
    (huses : event.uses e.key = true) (hunused : ∀ x ∈ es, event.uses x.key = false) :
    ByRecency (event :: history) (e :: es) := by
  apply List.Pairwise.cons _ (h.unused hunused)
  intro x hx
  have hle := lastUse_le history x.key
  simp only [lastUse, huses, hunused x hx, if_true, Bool.false_eq_true, if_false]
  omega

theorem ByRecency.filter_since {front back : List CacheEntry} {e : CacheEntry}
    (h : ByRecency history (front ++ e :: back)) :
    (front ++ e :: back).filter (fun x => lastUse history e.key ≤ lastUse history x.key) =
      front ++ [e] := by
  obtain ⟨_, htail, hcross⟩ := List.pairwise_append.mp h
  obtain ⟨hback, _⟩ := List.pairwise_cons.mp htail
  have hfront : front.filter (fun x => lastUse history e.key ≤ lastUse history x.key) = front := by
    rw [List.filter_eq_self]
    intro x hx
    simpa using (hcross x hx e List.mem_cons_self).le
  have hbehind : back.filter (fun x => lastUse history e.key ≤ lastUse history x.key) = [] := by
    rw [List.filter_eq_nil_iff]
    intro x hx
    simpa using hback x hx
  rw [List.filter_append, hfront, List.filter_cons_of_pos (by simp), hbehind]

theorem chargesSince_eq (history : List CacheEvent) (es : List CacheEntry) (key : CacheKey)
    (e : CacheEntry) : chargesSince history es key e =
      charges ((others es key).filter fun x => lastUse history e.key ≤ lastUse history x.key) := by
  rw [chargesSince, others, List.filter_filter]
  congr 2
  funext x
  rw [Bool.and_comm, Bool.decide_and]

theorem ByRecency.others (h : ByRecency history es) (key : CacheKey) :
    ByRecency history (others es key) := List.Pairwise.filter _ h

structure Evicts (history : List CacheEvent) (capacity charge : Nat) (key : CacheKey)
    (es kept gone : List CacheEntry) : Prop where
  split : others es key = kept ++ gone
  recency : ByRecency history es
  room : kept = [] ∨ charge + charges kept ≤ capacity
  needed : ∀ front x back, gone = front ++ x :: back →
    capacity < charge + charges (kept ++ front ++ [x])

namespace Evicts

variable {capacity charge : Nat} {key : CacheKey} {kept gone : List CacheEntry} {e : CacheEntry}

theorem older (h : Evicts history capacity charge key es kept gone) (he : e ∈ gone)
    {stays : CacheEntry} (hstays : stays ∈ kept) :
    lastUse history e.key < lastUse history stays.key := by
  have hothers := h.recency.others key
  rw [h.split] at hothers
  exact (List.pairwise_append.mp hothers).2.2 stays hstays e he

theorem not_kept (h : Evicts history capacity charge key es kept gone) (he : e ∈ gone) :
    e ∉ kept :=
  fun hkept => lt_irrefl _ (h.older he hkept)

theorem not_mem_iff (h : Evicts history capacity charge key es kept gone) (he : e ∈ es)
    (hkey : e.key ≠ key) {new : CacheEntry} (hnew : new.key = key) :
    e ∉ new :: kept ↔ e ∈ gone := by
  constructor
  · intro hout
    have hin := mem_others.mpr ⟨he, hkey⟩
    rw [h.split] at hin
    exact (List.mem_append.mp hin).resolve_left fun hkept => hout (List.mem_cons_of_mem _ hkept)
  · intro hgone hin
    rcases List.mem_cons.mp hin with rfl | hkept
    · exact hkey hnew
    · exact h.not_kept hgone hkept

theorem gone_iff (h : Evicts history capacity charge key es kept gone) (he : e ∈ es)
    (hkey : e.key ≠ key) :
    e ∈ gone ↔ capacity < charge + chargesSince history es key e := by
  have hothers := h.recency.others key
  rw [chargesSince_eq]
  rcases List.mem_append.mp (h.split ▸ mem_others.mpr ⟨he, hkey⟩) with hkept | hgone
  · -- it fits with everything that stays
    apply iff_of_false (fun hgone => h.not_kept hgone hkept)
    obtain ⟨front, back, rfl⟩ := List.append_of_mem hkept
    rw [h.split, List.append_assoc, List.cons_append] at hothers ⊢
    rw [hothers.filter_since]
    have hroom := h.room.resolve_left (by simp)
    simp only [charges_append, charges_cons, charges_nil] at hroom ⊢
    omega
  · apply iff_of_true hgone
    obtain ⟨front, back, rfl⟩ := List.append_of_mem hgone
    rw [h.split, ← List.append_assoc] at hothers ⊢
    rw [hothers.filter_since]
    exact h.needed front e back rfl

end Evicts

/-! What the history says of the list. -/

structure Remembers (capacity : Nat) (history : List CacheEvent) (b : BlockCache) : Prop where
  capacity_eq : b.capacity = capacity
  recency : ByRecency history b.lruList
  blocks : ∀ key, blockOf b.lruList key = heldBlock history key
  bounded : (∀ event ∈ history, ∀ key block charge, event.op = .insert key block charge →
    charge ≤ capacity) → b.totalCharge ≤ capacity

namespace Remembers

variable {capacity : Nat} {b : BlockCache} {key : CacheKey}

theorem new (capacity : Nat) : Remembers capacity [] (BlockCache.new capacity) :=
  ⟨rfl, List.Pairwise.nil, fun _ => rfl, fun _ => Nat.zero_le capacity⟩

theorem lookup (h : Remembers capacity history b) (hkeys : (b.lruList.map CacheEntry.key).Nodup)
    (key : CacheKey) (evicted : List CacheKey) :
    Remembers capacity
      (⟨.lookup key, (b.lookup key.fileNumber key.offset).1, evicted⟩ :: history)
      (b.lookup key.fileNumber key.offset).2 := by
  cases hfind : b.lruList.find? (fun e => e.key = key) with
  | none =>
    rw [BlockCache.lookup_miss hfind]
    refine ⟨h.capacity_eq, h.recency.unused fun e _ => by simp [CacheEvent.uses], h.blocks, ?_⟩
    intro hall
    exact h.bounded fun event hevent => hall event (List.mem_cons_of_mem _ hevent)
  | some e =>
    rw [BlockCache.lookup_hit hkeys hfind]
    have hkey : e.key = key := by simpa using List.find?_some hfind
    refine ⟨h.capacity_eq, ?_, ?_, ?_⟩
    · apply (h.recency.others key).used
      · simp [CacheEvent.uses, hkey]
      · intro x hx
        simpa [CacheEvent.uses] using (mem_others.mp hx).2.symm
    · intro k
      rw [heldBlock, blockOf_cons, ← h.blocks k]
      by_cases heq : key = k
      · subst heq
        rw [if_pos hkey, blockOf, hfind]
        rfl
      · rw [if_neg (by rw [hkey]; exact heq), blockOf_others (Ne.symm heq)]
    · intro hall
      exact h.bounded fun event hevent => hall event (List.mem_cons_of_mem _ hevent)

theorem erase (h : Remembers capacity history b) (hkeys : (b.lruList.map CacheEntry.key).Nodup)
    (htotal : b.totalCharge = charges b.lruList) (key : CacheKey) (result : Option Block)
    (evicted : List CacheKey) :
    Remembers capacity (⟨.erase key, result, evicted⟩ :: history)
      (b.erase key.fileNumber key.offset) := by
  rw [BlockCache.erase_spec hkeys htotal]
  refine ⟨h.capacity_eq, (h.recency.others key).unused fun e _ => rfl, ?_, ?_⟩
  · intro k
    simp only [heldBlock]
    by_cases heq : key = k
    · subst heq
      rw [if_pos rfl, blockOf_others_self]
    · rw [if_neg heq, blockOf_others (Ne.symm heq), h.blocks k]
  · intro hall
    have hbounded := h.bounded fun event hevent => hall event (List.mem_cons_of_mem _ hevent)
    rw [htotal] at hbounded
    exact (charges_filter_le _ _).trans hbounded

theorem clear (h : Remembers capacity history b) (result : Option Block)
    (evicted : List CacheKey) :
    Remembers capacity (⟨.clear, result, evicted⟩ :: history) b.clear :=
  ⟨h.capacity_eq, List.Pairwise.nil, fun _ => rfl, fun _ => Nat.zero_le capacity⟩

theorem evicts (h : Remembers capacity history b) (hkeys : (b.lruList.map CacheEntry.key).Nodup)
    (htotal : b.totalCharge = charges b.lruList) (key : CacheKey) (block : Block) (charge : Nat) :
    ∃ kept gone, Evicts history capacity charge key b.lruList kept gone ∧
      b.insert key.fileNumber key.offset block charge = ⟨b.capacity, charges kept + charge,
        ⟨key.fileNumber, key.offset, block, charge⟩ :: kept⟩ := by
  obtain ⟨kept, gone, hsplit, hinsert, hroom, hneeded⟩ :=
    BlockCache.insert_spec hkeys htotal key block charge
  rw [h.capacity_eq] at hroom hneeded
  exact ⟨kept, gone, ⟨hsplit, h.recency, hroom, hneeded⟩, hinsert⟩

theorem insert (h : Remembers capacity history b) (hkeys : (b.lruList.map CacheEntry.key).Nodup)
    (htotal : b.totalCharge = charges b.lruList) (key : CacheKey) (block : Block) (charge : Nat)
    (result : Option Block) :
    Remembers capacity
      (⟨.insert key block charge, result,
        (CacheOp.insert key block charge).evicted (b.lruList.map CacheEntry.key)
          ((b.insert key.fileNumber key.offset block charge).lruList.map CacheEntry.key)⟩ ::
        history)
      (b.insert key.fileNumber key.offset block charge) := by
  obtain ⟨kept, gone, hevicts, hinsert⟩ := h.evicts hkeys htotal key block charge
  rw [hinsert]
  have hkept : ∀ e ∈ kept, e ∈ b.lruList ∧ e.key ≠ key := by
    intro e he
    apply mem_others.mp
    rw [hevicts.split]
    exact List.mem_append_left gone he
  refine ⟨h.capacity_eq, ?_, ?_, ?_⟩
  · have hothers := h.recency.others key
    rw [hevicts.split] at hothers
    apply ByRecency.used (List.pairwise_append.mp hothers).1
    · simp [CacheEvent.uses, CacheEntry.key]
    · intro x hx
      simpa [CacheEvent.uses] using (hkept x hx).2.symm
  · intro k
    simp only [blockOf_cons, heldBlock]
    by_cases heq : key = k
    · subst heq
      rw [if_pos rfl]
      exact if_pos rfl
    · have hnew : ¬ (⟨key.fileNumber, key.offset, block, charge⟩ : CacheEntry).key = k := heq
      rw [if_neg hnew, if_neg heq, ← h.blocks k]
      simp only [CacheOp.evicted, List.map_cons, List.mem_filter]
      by_cases hstays : ∃ e ∈ kept, e.key = k
      · have hin : k ∈ kept.map CacheEntry.key := by simpa using hstays
        have hsame : blockOf b.lruList k = blockOf kept k := by
          rw [← blockOf_others (Ne.symm heq), hevicts.split, blockOf_append hstays]
        rw [if_neg (by simp [hin]), hsame]
      · have hout : k ∉ kept.map CacheEntry.key := by simpa using hstays
        have hnone : blockOf kept k = none :=
          blockOf_eq_none fun e he hkey => hstays ⟨e, he, hkey⟩
        rw [hnone]
        split
        · rfl
        · rename_i hnot
          symm
          apply blockOf_eq_none
          intro e he hkey
          apply hnot
          refine ⟨hkey ▸ List.mem_map_of_mem he, ?_⟩
          simpa [hout] using Ne.symm hnew
  · intro hall
    have hcharge := hall _ List.mem_cons_self key block charge rfl
    rcases hevicts.room with hnil | hroom
    · subst hnil
      simpa using hcharge
    · change charges kept + charge ≤ capacity
      omega

end Remembers

/-! From the nodes to the list. -/

namespace LinkedCache

variable {capacity : Nat} {c c' : LinkedCache}

theorem Linked.perform (h : c.Linked) (hremembers : Remembers capacity history c.toCache)
    {op : CacheOp} (hfits : op.Fits c.totalCharge) :
    ∃ result c', c.perform op = some (result, c') ∧ c'.Linked ∧
      Remembers capacity (⟨op, result, op.evicted c.keys c'.keys⟩ :: history) c'.toCache := by
  cases op with
  | lookup key =>
    obtain ⟨c', hlookup, hlinked, hsame⟩ := h.lookup_eq key
    refine ⟨_, c', hlookup, hlinked, ?_⟩
    rw [hsame]
    exact hremembers.lookup h.keys key _
  | insert key block charge =>
    obtain ⟨c', hinsert, hlinked, hsame⟩ := h.insert_eq key block (hfits key block charge rfl)
    refine ⟨none, c', by rw [LinkedCache.perform, hinsert]; rfl, hlinked, ?_⟩
    have hkeys : c'.keys = (c.toCache.insert key.fileNumber key.offset block charge).lruList.map
        CacheEntry.key := by
      rw [← hsame]
      rfl
    rw [hsame, hkeys]
    exact hremembers.insert h.keys h.total key block charge none
  | erase key =>
    obtain ⟨c', herase, hlinked, hsame, _⟩ := h.erase_eq key
    refine ⟨none, c', by rw [LinkedCache.perform, herase]; rfl, hlinked, ?_⟩
    rw [hsame]
    exact hremembers.erase h.keys h.total key none _
  | clear =>
    exact ⟨none, c.clear, rfl, clear_linked h, hremembers.clear none _⟩

theorem Reached.linked (h : Reached capacity history c) :
    c.Linked ∧ Remembers capacity history c.toCache := by
  induction h with
  | new => exact ⟨new_linked capacity, Remembers.new capacity⟩
  | call _ hfits hperform ih =>
    obtain ⟨result, c', hsame, hlinked, hremembers⟩ := ih.1.perform ih.2 hfits
    cases hsame.symm.trans hperform
    exact ⟨hlinked, hremembers⟩

theorem Linked.evicts (h : c.Linked) (hremembers : Remembers capacity history c.toCache)
    {key : CacheKey} {block : Block} {charge : Nat} {result : Option Block}
    (hfits : c.totalCharge + charge < 2 ^ 64)
    (hperform : c.perform (.insert key block charge) = some (result, c')) :
    ∃ kept gone, Evicts history capacity charge key c.entries kept gone ∧
      c'.entries = ⟨key.fileNumber, key.offset, block, charge⟩ :: kept := by
  obtain ⟨after, hinsert, _, hsame⟩ := h.insert_eq key block hfits
  obtain ⟨kept, gone, hevicts, hlist⟩ := hremembers.evicts h.keys h.total key block charge
  rw [LinkedCache.perform, hinsert] at hperform
  cases hperform
  exact ⟨kept, gone, hevicts, congrArg BlockCache.lruList (hsame.trans hlist)⟩

end LinkedCache

/-- Whatever calls a cache of any capacity has seen, it is the LRU cache that they
describe. -/
theorem blockCache_exact_lru (capacity : Nat) (history : List CacheEvent) (c : LinkedCache)
    (h : LinkedCache.Reached capacity history c) : LinkedCache.ExactLru capacity history c := by
  obtain ⟨hlinked, hremembers⟩ := h.linked
  constructor
  case keys_nodup => exact hlinked.keys
  case table_keys =>
    intro key
    rw [← AList.lookup_isSome, Option.isSome_iff_exists]
    constructor
    · rintro ⟨node, hnode⟩
      obtain ⟨e, hmem, rfl⟩ := (hlinked.table key node).mp hnode
      exact List.mem_map_of_mem (List.mem_map.mpr ⟨_, hmem, rfl⟩)
    · intro hkey
      obtain ⟨e, he, rfl⟩ := List.mem_map.mp hkey
      obtain ⟨n, hn, rfl⟩ := List.mem_map.mp he
      exact ⟨n.1, (hlinked.table _ n.1).mpr ⟨n.2, hn, rfl⟩⟩
  case total => exact hlinked.total
  case no_underflow => exact hlinked.exact
  case defined =>
    intro op hfits
    obtain ⟨result, c', hperform, _⟩ := hlinked.perform hremembers hfits
    exact ⟨result, c', hperform⟩
  case lookup =>
    intro key result c' hperform
    obtain ⟨after, hlookup, _⟩ := hlinked.lookup_eq key
    rw [LinkedCache.perform, hlookup] at hperform
    cases hperform
    rw [BlockCache.lookup_fst, hasKey_eq]
    exact hremembers.blocks key
  case evicts_iff =>
    intro key block charge result c' hfits hperform e he hkey
    obtain ⟨kept, gone, hevicts, hentries⟩ := hlinked.evicts hremembers hfits hperform
    rw [← hevicts.gone_iff he hkey, hentries]
    exact hevicts.not_mem_iff he hkey rfl
  case evicts_oldest =>
    intro key block charge result c' hfits hperform e he hkey hout stays hstays hother
    obtain ⟨kept, gone, hevicts, hentries⟩ := hlinked.evicts hremembers hfits hperform
    rw [hentries] at hout hstays
    apply hevicts.older ((hevicts.not_mem_iff he hkey rfl).mp hout)
    rcases List.mem_cons.mp hstays with rfl | hkept
    · exact absurd rfl hother
    · exact hkept
  case bounded => exact hremembers.bounded

/-- A cache of ten bytes: two blocks of four, the first is looked up, and a block of six
takes the place of the second. -/
theorem blockCache_exact_lru_four_calls :
    ∃ history c, LinkedCache.Reached 10 history c ∧ LinkedCache.ExactLru 10 history c ∧
      c.keys = [⟨2, 0⟩, ⟨1, 0⟩] := by
  have hfits : ∀ {total : Nat} (key : CacheKey) (block : Block) (charge : Nat),
      total + charge < 2 ^ 64 → (CacheOp.insert key block charge).Fits total := by
    intro total key block charge h k b ch heq
    cases heq
    exact h
  have hlookup : ∀ {total : Nat} (key : CacheKey), (CacheOp.lookup key).Fits total :=
    fun key => nofun
  have hreached := LinkedCache.Reached.call (.call (.call (.call (@LinkedCache.Reached.new 10)
    (hfits ⟨1, 0⟩ ⟨[], 0, 0⟩ 4 (by decide)) rfl) (hfits ⟨1, 4⟩ ⟨[0], 0, 0⟩ 4 (by decide)) rfl)
    (hlookup ⟨1, 0⟩) rfl) (hfits ⟨2, 0⟩ ⟨[1], 0, 0⟩ 6 (by decide)) rfl
  exact ⟨_, _, hreached, blockCache_exact_lru 10 _ _ hreached, by decide⟩

end Strata
