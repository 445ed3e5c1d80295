import Mathlib.Tactic.IntervalCases
import Strata.Format

/-! The Bloom filter of a table: a bit array and one byte with the number of
probes. Probes walk from a 32-bit hash by a fixed rotation of it. -/
namespace Strata

def murmurMix (k : UInt32) : UInt32 :=
  let k := k * 0xcc9e2d51
  let k := (k <<< 15) ||| (k >>> 17)
  k * 0x1b873593

def murmurBody : Nat → Bytes → UInt32 → UInt32
  | 0, _, h => h
  | count + 1, data, h =>
    let h := h ^^^ murmurMix (UInt32.ofNat (decodeFixed32 data))
    let h := (h <<< 13) ||| (h >>> 19)
    murmurBody count (data.drop 4) (h * 5 + 0xe6546b64)

def murmurTail (tail : Bytes) (h : UInt32) : UInt32 :=
  match tail with
  | [] => h
  | [a] => h ^^^ murmurMix a.toUInt32
  | [a, b] => h ^^^ murmurMix ((b.toUInt32 <<< 8) ^^^ a.toUInt32)
  | a :: b :: c :: _ =>
    h ^^^ murmurMix ((c.toUInt32 <<< 16) ^^^ (b.toUInt32 <<< 8) ^^^ a.toUInt32)

def murmurHash3 (data : Bytes) (seed : UInt32) : UInt32 :=
  let blocks := data.length / 4
  let h := murmurTail (data.drop (blocks * 4)) (murmurBody blocks data seed)
  let h := h ^^^ UInt32.ofNat data.length
  let h := (h ^^^ (h >>> 16)) * 0x85ebca6b
  let h := (h ^^^ (h >>> 13)) * 0xc2b2ae35
  h ^^^ (h >>> 16)

namespace BloomFilter

def hash (key : Bytes) : UInt32 := murmurHash3 key 0xbc9f1d34

def delta (h : UInt32) : UInt32 := (h >>> 17) ||| (h <<< 15)

/-- The bit positions a key probes, from hash `h` on. -/
def probes (bits : Nat) (step : UInt32) : Nat → UInt32 → List Nat
  | 0, _ => []
  | count + 1, h => h.toNat % bits :: probes bits step count (h + step)

def keyProbes (bits count : Nat) (key : Bytes) : List Nat :=
  probes bits (delta (hash key)) count (hash key)

/-- `static_cast<int>(bits_per_key * 0.69)`, clamped to 1..30. Below the clamp
no product comes close to an integer, so the rounding of the double does not show. -/
def probeCount (bitsPerKey : Nat) : Nat := min 30 (max 1 (bitsPerKey * 69 / 100))

def setBit (array : Bytes) (position : Nat) : Bytes :=
  array.modify (position / 8) fun byte => byte ||| (1 <<< UInt8.ofNat (position % 8))

def testBit (array : Bytes) (position : Nat) : Bool :=
  (array.getD (position / 8) 0) &&& (1 <<< UInt8.ofNat (position % 8)) ≠ 0

def filterBytes (keys : List Bytes) (bitsPerKey : Nat) : Nat :=
  (max 64 (keys.length * bitsPerKey) + 7) / 8

def createFilter (keys : List Bytes) (bitsPerKey : Nat) : Bytes :=
  let bytes := filterBytes keys bitsPerKey
  let count := probeCount bitsPerKey
  let array := keys.foldl (fun array key => (keyProbes (bytes * 8) count key).foldl setBit array)
    (List.replicate bytes 0)
  array ++ [UInt8.ofNat count]

def keyMayMatch (key : Bytes) (filter : Bytes) : Bool :=
  if filter.length < 2 then true
  else
    let bits := (filter.length - 1) * 8
    let count := (filter.getD (filter.length - 1) 0).toNat
    if count > 30 then true
    else (keyProbes bits count key).all (testBit filter)

/-! A key that was added always matches. -/

theorem bit_ne_zero {n : Nat} (h : n < 8) : (1 : UInt8) <<< UInt8.ofNat n ≠ 0 := by
  interval_cases n <;> decide

theorem and_or_ne_zero {a mask : UInt8} (b : UInt8) (h : a &&& mask ≠ 0) :
    (a ||| b) &&& mask ≠ 0 := by
  have hsplit : (a ||| b) &&& mask = (a &&& mask) ||| (b &&& mask) := by
    apply UInt8.toBitVec_inj.mp
    simp only [UInt8.toBitVec_and, UInt8.toBitVec_or]
    exact BitVec.and_or_distrib_right
  rw [hsplit]
  intro hzero
  exact h (UInt8.or_eq_zero_iff.mp hzero).1

@[simp] theorem length_setBit (array : Bytes) (position : Nat) :
    (setBit array position).length = array.length := by
  simp [setBit]

theorem testBit_setBit_self {array : Bytes} {position : Nat} (h : position / 8 < array.length) :
    testBit (setBit array position) position = true := by
  have hbit := bit_ne_zero (Nat.mod_lt position (by decide : 0 < 8))
  have hmask : ∀ a : UInt8, (a ||| (1 <<< UInt8.ofNat (position % 8))) &&&
      (1 <<< UInt8.ofNat (position % 8)) ≠ 0 := by
    intro a
    rw [UInt8.or_comm]
    exact and_or_ne_zero a (by rwa [UInt8.and_self])
  simp [testBit, setBit, h, hmask]

theorem testBit_setBit_of {array : Bytes} {position : Nat} (other : Nat)
    (h : testBit array position = true) : testBit (setBit array other) position = true := by
  simp only [testBit, decide_eq_true_eq, setBit, List.getD_eq_getElem?_getD,
    List.getElem?_modify] at h ⊢
  split
  · cases harray : array[position / 8]? with
    | none => simp [harray] at h
    | some byte =>
      simp only [harray, Option.getD_some] at h
      exact and_or_ne_zero _ h
  · cases harray : array[position / 8]? with
    | none => simp [harray] at h
    | some byte => simpa [harray] using h

theorem testBit_foldl_of {array : Bytes} {position : Nat} (positions : List Nat)
    (h : testBit array position = true) : testBit (positions.foldl setBit array) position = true := by
  induction positions generalizing array with
  | nil => exact h
  | cons p rest ih => exact ih (testBit_setBit_of p h)

theorem length_foldl_setBit (positions : List Nat) (array : Bytes) :
    (positions.foldl setBit array).length = array.length := by
  induction positions generalizing array with
  | nil => rfl
  | cons p rest ih => rw [List.foldl_cons, ih, length_setBit]

theorem testBit_foldl_self {array : Bytes} {positions : List Nat} {position : Nat}
    (hmem : position ∈ positions) (hin : position / 8 < array.length) :
    testBit (positions.foldl setBit array) position = true := by
  induction positions generalizing array with
  | nil => cases hmem
  | cons p rest ih =>
    rcases List.mem_cons.mp hmem with rfl | hmem
    · exact testBit_foldl_of rest (testBit_setBit_self hin)
    · exact ih hmem (by rwa [length_setBit])

theorem probes_lt {bits count : Nat} (step h : UInt32) (hbits : 0 < bits) :
    ∀ position ∈ probes bits step count h, position < bits := by
  induction count generalizing h with
  | zero => simp [probes]
  | succ count ih =>
    intro position hmem
    rcases List.mem_cons.mp hmem with rfl | hmem
    · exact Nat.mod_lt _ hbits
    · exact ih _ position hmem

def addKeys (bits count : Nat) (array : Bytes) (keys : List Bytes) : Bytes :=
  keys.foldl (fun array key => (keyProbes bits count key).foldl setBit array) array

theorem length_addKeys (bits count : Nat) (array : Bytes) (keys : List Bytes) :
    (addKeys bits count array keys).length = array.length := by
  induction keys generalizing array with
  | nil => rfl
  | cons key rest ih =>
    rw [addKeys, List.foldl_cons]
    exact (ih _).trans (length_foldl_setBit _ _)

theorem testBit_addKeys_of {bits count : Nat} {array : Bytes} {position : Nat} (keys : List Bytes)
    (h : testBit array position = true) :
    testBit (addKeys bits count array keys) position = true := by
  induction keys generalizing array with
  | nil => exact h
  | cons key rest ih => exact ih (testBit_foldl_of _ h)

theorem testBit_addKeys_self {bits count : Nat} {array : Bytes} {keys : List Bytes} {key : Bytes}
    (hmem : key ∈ keys) (hbits : 0 < bits) (hlen : bits = array.length * 8) :
    ∀ position ∈ keyProbes bits count key,
      testBit (addKeys bits count array keys) position = true := by
  intro position hposition
  have hlt : position < bits := probes_lt _ _ hbits position hposition
  induction keys generalizing array with
  | nil => cases hmem
  | cons first rest ih =>
    rw [addKeys, List.foldl_cons]
    rcases List.mem_cons.mp hmem with rfl | hmem
    · exact testBit_addKeys_of rest (testBit_foldl_self hposition (by omega))
    · exact ih hmem (by rw [length_foldl_setBit]; exact hlen)

/-- The bits of the keys in an array of so many bytes, and the number of probes. -/
def filterOf (bytes count : Nat) (keys : List Bytes) : Bytes :=
  addKeys (bytes * 8) count (List.replicate bytes 0) keys ++ [UInt8.ofNat count]

theorem createFilter_eq (keys : List Bytes) (bitsPerKey : Nat) :
    createFilter keys bitsPerKey =
      filterOf (filterBytes keys bitsPerKey) (probeCount bitsPerKey) keys := rfl

theorem length_filterOf (bytes count : Nat) (keys : List Bytes) :
    (filterOf bytes count keys).length = bytes + 1 := by
  rw [filterOf, List.length_append, length_addKeys, List.length_replicate]
  rfl

theorem keyMayMatch_filterOf {bytes count : Nat} {keys : List Bytes} {key : Bytes}
    (hbytes : 0 < bytes) (hcount : count ≤ 30) (hmem : key ∈ keys) :
    keyMayMatch key (filterOf bytes count keys) = true := by
  have hlen := length_filterOf bytes count keys
  have harray := length_addKeys (bytes * 8) count (List.replicate bytes 0) keys
  rw [List.length_replicate] at harray
  have hlast : (filterOf bytes count keys).getD bytes 0 = UInt8.ofNat count := by
    simp [filterOf, harray]
  have hcountByte : (UInt8.ofNat count).toNat = count := by
    rw [UInt8.toNat_ofNat']
    exact Nat.mod_eq_of_lt (by omega)
  unfold keyMayMatch
  rw [if_neg (by omega)]
  simp only [hlen, Nat.add_sub_cancel, hlast, hcountByte]
  rw [if_neg (by omega), List.all_eq_true]
  intro position hposition
  have hlt := probes_lt _ _ (by omega) position hposition
  have hset := testBit_addKeys_self hmem (by omega)
    (show _ = (List.replicate bytes 0).length * 8 by simp) position hposition
  -- the byte with the number of probes lies behind the bits
  rw [filterOf, testBit, List.getD_eq_getElem?_getD,
    List.getElem?_append_left (by omega), ← List.getD_eq_getElem?_getD]
  exact hset

theorem keyMayMatch_createFilter {keys : List Bytes} {key : Bytes} (bitsPerKey : Nat)
    (hmem : key ∈ keys) : keyMayMatch key (createFilter keys bitsPerKey) = true := by
  rw [createFilter_eq]
  apply keyMayMatch_filterOf _ (Nat.min_le_left _ _) hmem
  simp only [filterBytes]
  omega

/-! `CreateFilter` with its counts as machine words, for any number of probes. -/

/-- The size of the bit array, as `size_t` has it. -/
def arrayBytes (count bitsPerKey : Nat) : Nat :=
  let bits := count * bitsPerKey % 2 ^ 64
  let bits := if bits < 64 then 64 else bits
  (bits + 7) % 2 ^ 64 / 8

/-- `dst` with a filter behind what it holds. -/
def appendFilter (probeCount : Nat) (keys : List Bytes) (bitsPerKey : Nat) (dst : Bytes) : Bytes :=
  let bytes := arrayBytes keys.length bitsPerKey
  let bits := bytes * 8 % 2 ^ 64
  dst ++ (addKeys bits probeCount (List.replicate bytes 0) keys ++ [UInt8.ofNat probeCount])

theorem arrayBytes_eq {keys : List Bytes} {bitsPerKey : Nat}
    (h : keys.length * bitsPerKey + 7 < 2 ^ 64) :
    arrayBytes keys.length bitsPerKey = filterBytes keys bitsPerKey := by
  have hbits : keys.length * bitsPerKey % 2 ^ 64 = keys.length * bitsPerKey :=
    Nat.mod_eq_of_lt (by omega)
  simp only [arrayBytes, filterBytes, hbits]
  split
  · rw [Nat.mod_eq_of_lt (by omega), Nat.max_eq_left (by omega)]
  · rw [Nat.mod_eq_of_lt (by omega), Nat.max_eq_right (by omega)]

theorem filterBytes_bounds {keys : List Bytes} {bitsPerKey : Nat}
    (h : keys.length * bitsPerKey + 7 < 2 ^ 64) :
    8 ≤ filterBytes keys bitsPerKey ∧ filterBytes keys bitsPerKey * 8 < 2 ^ 64 := by
  simp only [filterBytes]
  omega

theorem appendFilter_eq {probeCount : Nat} {keys : List Bytes} {bitsPerKey : Nat}
    (h : keys.length * bitsPerKey + 7 < 2 ^ 64) (dst : Bytes) :
    appendFilter probeCount keys bitsPerKey dst =
      dst ++ filterOf (filterBytes keys bitsPerKey) probeCount keys := by
  have hbounds := filterBytes_bounds h
  simp only [appendFilter, arrayBytes_eq h]
  rw [Nat.mod_eq_of_lt hbounds.2]
  rfl

/-- Every key that a filter was made of may match in the bytes that were appended. -/
theorem no_false_negative {probeCount : Nat} {keys : List Bytes} {bitsPerKey : Nat} (dst : Bytes)
    (hfits : keys.length * bitsPerKey + 7 < 2 ^ 64) (hprobes : 1 ≤ probeCount ∧ probeCount ≤ 30)
    {key : Bytes} (hmem : key ∈ keys) :
    keyMayMatch key ((appendFilter probeCount keys bitsPerKey dst).drop dst.length) = true := by
  have hbounds := filterBytes_bounds hfits
  rw [appendFilter_eq hfits, List.drop_left]
  exact keyMayMatch_filterOf (by omega) hprobes.2 hmem

/-- Two keys, one of them empty and there twice, at ten bits and six probes. -/
theorem no_false_negative_empty_key :
    keyMayMatch [] ((appendFilter 6 [[], [97], []] 10 [1, 2]).drop 2) = true :=
  no_false_negative [1, 2] (by decide) (by decide) (by decide)

end BloomFilter

end Strata
