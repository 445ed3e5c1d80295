import Mathlib.Data.Fintype.EquivFin
import Mathlib.Logic.Function.Iterate
import Mathlib.Tactic.Linarith
import Strata.Library.LittleEndian

/-! Reflected cyclic redundancy checks with a 32-bit register. A step of the
register is linear in exclusive or, and with the top bit of the polynomial set it
loses no information, so neither does a byte, nor any number of bytes. -/
namespace Strata.Library.Crc

/-- One bit: shift right, and add the polynomial where a one falls out. -/
def step (poly c : UInt32) : UInt32 := if c &&& 1 ≠ 0 then poly ^^^ (c >>> 1) else c >>> 1

def update (poly c : UInt32) (byte : UInt8) : UInt32 :=
  (step poly)^[8] ((c ^^^ byte.toUInt32) &&& 0xFF) ^^^ (c >>> 8)

variable {poly : UInt32}

theorem odd_iff (c : UInt32) : c &&& 1 ≠ 0 ↔ c.toBitVec.getLsbD 0 = true := by
  rw [ne_eq, ← UInt32.toBitVec_inj, UInt32.toBitVec_and]
  change ¬ c.toBitVec &&& 1#32 = 0#32 ↔ _
  rw [BitVec.and_one_eq_setWidth_ofBool_getLsbD]
  cases c.toBitVec.getLsbD 0 <;> decide

theorem step_toBitVec (poly c : UInt32) : (step poly c).toBitVec =
    if c.toBitVec.getLsbD 0 then poly.toBitVec ^^^ (c.toBitVec >>> 1) else c.toBitVec >>> 1 := by
  unfold step
  by_cases hodd : c.toBitVec.getLsbD 0 = true
  · rw [if_pos ((odd_iff c).mpr hodd), if_pos hodd]
    simp [UInt32.toBitVec_shiftRight]
  · rw [if_neg fun h => hodd ((odd_iff c).mp h), if_neg hodd]
    simp [UInt32.toBitVec_shiftRight]

theorem step_xor (a b : UInt32) : step poly (a ^^^ b) = step poly a ^^^ step poly b := by
  apply UInt32.toBitVec_inj.mp
  rw [UInt32.toBitVec_xor, step_toBitVec, step_toBitVec, step_toBitVec, UInt32.toBitVec_xor,
    BitVec.getLsbD_xor, BitVec.ushiftRight_xor_distrib]
  apply BitVec.eq_of_getLsbD_eq
  intro i _
  cases a.toBitVec.getLsbD 0 <;> cases b.toBitVec.getLsbD 0
  · simp
  · simp [Bool.xor_left_comm]
  · simp
  · simp [Bool.xor_left_comm]

theorem iterate_xor (n : Nat) (a b : UInt32) :
    (step poly)^[n] (a ^^^ b) = (step poly)^[n] a ^^^ (step poly)^[n] b := by
  induction n generalizing a b with
  | zero => rfl
  | succ n ih => rw [Function.iterate_succ_apply, step_xor, ih]; rfl

/-- Nothing but zero is taken to zero: the bit that falls out comes back on top. -/
theorem step_eq_zero (hpoly : poly.toBitVec[31] = true) {c : UInt32}
    (h : step poly c = 0) : c = 0 := by
  apply UInt32.toBitVec_inj.mp
  have hbits := congrArg UInt32.toBitVec h
  rw [step_toBitVec] at hbits
  apply BitVec.eq_of_getLsbD_eq
  intro i hi
  by_cases hodd : c.toBitVec.getLsbD 0 = true
  · rw [if_pos hodd] at hbits
    have htop := congrArg (fun bits => bits.getLsbD 31) hbits
    simp [hpoly] at htop
  · rw [if_neg hodd] at hbits
    cases i with
    | zero => simpa using hodd
    | succ i =>
      have hbit := congrArg (fun bits => bits.getLsbD i) hbits
      simpa [Nat.add_comm] using hbit

theorem step_injective (hpoly : poly.toBitVec[31] = true) :
    Function.Injective (step poly) := by
  intro a b h
  apply UInt32.xor_eq_zero_iff.mp
  apply step_eq_zero hpoly
  rw [step_xor, h, UInt32.xor_self]

theorem xor_right_injective (c : UInt32) : Function.Injective fun a => c ^^^ a := by
  intro a b h
  have hback := congrArg (fun bits => c ^^^ bits) h
  simpa [← UInt32.xor_assoc] using hback

theorem iterate_high {c : UInt32} (h : ∀ i < 8, c.toBitVec.getLsbD i = false) {n : Nat}
    (hn : n ≤ 8) : ((step poly)^[n] c).toBitVec = c.toBitVec >>> n := by
  induction n with
  | zero => simp
  | succ n ih =>
    have hprev := ih (by omega)
    rw [Function.iterate_succ_apply', step_toBitVec, hprev]
    have hlow : (c.toBitVec >>> n).getLsbD 0 = false := by
      simpa using h n (by omega)
    rw [hlow, if_neg (by decide), BitVec.shiftRight_add]

theorem split_octet (c : UInt32) : c = (c &&& 0xFF) ^^^ (c &&& ~~~0xFF) := by
  apply UInt32.toBitVec_inj.mp
  simp only [UInt32.toBitVec_xor, UInt32.toBitVec_and, UInt32.toBitVec_not]
  apply BitVec.eq_of_getLsbD_eq
  intro i hi
  simp only [BitVec.getLsbD_xor, BitVec.getLsbD_and, BitVec.getLsbD_not, hi, decide_true,
    Bool.true_and]
  cases c.toBitVec.getLsbD i <;> cases (UInt32.toBitVec 0xFF).getLsbD i <;> rfl

theorem octet_bit (i : Nat) : (UInt32.toBitVec 0xFF).getLsbD i = decide (i < 8) := by
  change (BitVec.ofNat 32 255).getLsbD i = _
  rw [BitVec.getLsbD_ofNat, show (255 : Nat) = 2 ^ 8 - 1 from rfl, Nat.testBit_two_pow_sub_one]
  by_cases h : i < 8
  · simp [h]
    omega
  · simp [h]

theorem high_bit_iff (c : UInt32) (i : Nat) : (c &&& ~~~0xFF).toBitVec.getLsbD i =
    (decide (8 ≤ i) && c.toBitVec.getLsbD i) := by
  rw [UInt32.toBitVec_and, UInt32.toBitVec_not, BitVec.getLsbD_and, BitVec.getLsbD_not, octet_bit]
  by_cases hi : i < 32
  · by_cases h : i < 8
    · simp [hi, h]
    · simp [hi, h, not_lt.mp h]
  · simp [BitVec.getLsbD_of_ge c.toBitVec i (by omega)]

theorem update_eq (poly c : UInt32) (byte : UInt8) :
    update poly c byte = (step poly)^[8] (c ^^^ byte.toUInt32) := by
  have hhigh : (step poly)^[8] ((c ^^^ byte.toUInt32) &&& ~~~0xFF) = c >>> 8 := by
    apply UInt32.toBitVec_inj.mp
    rw [iterate_high (fun i hi => by rw [high_bit_iff]; simp; omega) (le_refl 8)]
    apply BitVec.eq_of_getLsbD_eq
    intro i _
    rw [BitVec.getLsbD_ushiftRight, high_bit_iff, UInt32.toBitVec_shiftRight]
    simp
  conv_rhs => rw [split_octet (c ^^^ byte.toUInt32), iterate_xor, hhigh]
  rfl

theorem update_injective (hpoly : poly.toBitVec[31] = true) (byte : UInt8) :
    Function.Injective fun c => update poly c byte := by
  intro a b h
  simp only [update_eq] at h
  have hsum := (step_injective hpoly).iterate 8 h
  rw [UInt32.xor_comm a, UInt32.xor_comm b] at hsum
  exact xor_right_injective _ hsum

theorem foldl_injective (hpoly : poly.toBitVec[31] = true) (data : List UInt8) :
    Function.Injective fun c => data.foldl (update poly) c := by
  induction data with
  | nil => exact fun _ _ h => h
  | cons byte rest ih =>
    intro a b h
    exact update_injective hpoly byte (ih h)

/-! Up to four bytes at a time. -/

/-- Up to four bytes as one word, the first of them lowest. -/
def word : List UInt8 → UInt32
  | [] => 0
  | byte :: rest => byte.toUInt32 ^^^ (word rest <<< 8)

theorem octet_high (byte : UInt8) {i : Nat} (hi : 8 ≤ i) :
    byte.toUInt32.toBitVec.getLsbD i = false := by
  rw [UInt8.toBitVec_toUInt32, BitVec.getLsbD_setWidth, BitVec.getLsbD_of_ge byte.toBitVec i hi,
    Bool.and_false]

theorem shiftLeft_bit (c : UInt32) (i : Nat) : (c <<< 8).toBitVec.getLsbD i =
    (decide (i < 32) && decide (8 ≤ i) && c.toBitVec.getLsbD (i - 8)) := by
  have hshift : (c <<< 8).toBitVec = c.toBitVec <<< 8 := by
    rw [UInt32.toBitVec_shiftLeft]
    rfl
  rw [hshift, BitVec.getLsbD_shiftLeft]
  by_cases hi : i < 8
  · simp [hi]
  · simp [hi, not_lt.mp hi]

theorem word_cons_bit (byte : UInt8) (rest : List UInt8) (i : Nat) :
    (word (byte :: rest)).toBitVec.getLsbD i = (byte.toUInt32.toBitVec.getLsbD i ^^
      (decide (i < 32) && decide (8 ≤ i) && (word rest).toBitVec.getLsbD (i - 8))) := by
  rw [word, UInt32.toBitVec_xor, BitVec.getLsbD_xor, shiftLeft_bit]

theorem word_high (bytes : List UInt8) {i : Nat} (hi : 8 * bytes.length ≤ i) :
    (word bytes).toBitVec.getLsbD i = false := by
  induction bytes generalizing i with
  | nil => simp [word]
  | cons byte rest ih =>
    rw [List.length_cons] at hi
    rw [word_cons_bit, octet_high byte (by omega), ih (by omega)]
    simp

theorem word_injective {p q : List UInt8} (hlength : p.length = q.length) (hshort : p.length ≤ 4)
    (h : word p = word q) : p = q := by
  induction p generalizing q with
  | nil => exact (List.eq_nil_of_length_eq_zero hlength.symm).symm
  | cons a rest ih =>
    cases q with
    | nil => cases hlength
    | cons b rest' =>
      have hbits : ∀ i, _ := fun i => congrArg (fun c : UInt32 => c.toBitVec.getLsbD i) h
      simp only [word_cons_bit] at hbits
      rw [List.length_cons, List.length_cons] at hlength
      rw [List.length_cons] at hshort
      have hbyte : a = b := by
        apply UInt8.toUInt32_inj.mp
        apply UInt32.toBitVec_inj.mp
        apply BitVec.eq_of_getLsbD_eq
        intro i _
        by_cases hi : 8 ≤ i
        · rw [octet_high a hi, octet_high b hi]
        · have hbit := hbits i
          simpa [hi] using hbit
      have hrest : word rest = word rest' := by
        apply UInt32.toBitVec_inj.mp
        apply BitVec.eq_of_getLsbD_eq
        intro i hi
        by_cases hlow : i < 24
        · have hbit := hbits (i + 8)
          simpa [hbyte, show i + 8 < 32 by omega] using hbit
        · rw [word_high rest (by omega), word_high rest' (by omega)]
      rw [hbyte, ih (by omega) (by omega) hrest]

theorem iterate_shiftLeft {c : UInt32} (h : ∀ i, 24 ≤ i → c.toBitVec.getLsbD i = false) :
    (step poly)^[8] (c <<< 8) = c := by
  apply UInt32.toBitVec_inj.mp
  rw [iterate_high (fun i hi => by rw [shiftLeft_bit]; simp; omega) (le_refl 8)]
  apply BitVec.eq_of_getLsbD_eq
  intro i hi
  rw [BitVec.getLsbD_ushiftRight, shiftLeft_bit, Nat.add_sub_cancel_left]
  by_cases hlow : 8 + i < 32
  · simp [hlow]
  · rw [h i (by omega), Bool.and_false]

theorem foldl_word {bytes : List UInt8} (hshort : bytes.length ≤ 4) (c : UInt32) :
    bytes.foldl (update poly) c = (step poly)^[8 * bytes.length] (c ^^^ word bytes) := by
  induction bytes generalizing c with
  | nil => simp [word]
  | cons byte rest ih =>
    rw [List.length_cons] at hshort
    have hdown : (step poly)^[8] (word rest <<< 8) = word rest :=
      iterate_shiftLeft fun i hi => word_high rest (by omega)
    rw [List.foldl_cons, ih (by omega), update_eq, List.length_cons, word,
      show 8 * (rest.length + 1) = 8 * rest.length + 8 by omega, Function.iterate_add_apply,
      ← UInt32.xor_assoc, iterate_xor 8 _ (word rest <<< 8), hdown]

theorem foldl_window_ne (hpoly : poly.toBitVec[31] = true) (c : UInt32) {p q : List UInt8}
    (hlength : p.length = q.length) (hshort : p.length ≤ 4) (hne : p ≠ q) (back : List UInt8) :
    (p ++ back).foldl (update poly) c ≠ (q ++ back).foldl (update poly) c := by
  intro h
  rw [List.foldl_append, List.foldl_append] at h
  have hwindow : p.foldl (update poly) c = q.foldl (update poly) c := foldl_injective hpoly back h
  rw [foldl_word hshort, foldl_word (hlength ▸ hshort), hlength] at hwindow
  have hwords := xor_right_injective c ((step_injective hpoly).iterate _ hwindow)
  exact hne (word_injective hlength hshort hwords)

/-- Four bytes take the register from anywhere to anywhere. -/
theorem exists_foldl_eq (hpoly : poly.toBitVec[31] = true) (c target : UInt32) :
    ∃ bytes : List UInt8, bytes.length = 4 ∧ bytes.foldl (update poly) c = target := by
  let reach (n : Fin (2 ^ 32)) : Fin (2 ^ 32) :=
    ⟨((LittleEndian.encode 4 n).foldl (update poly) c).toNat, UInt32.toNat_lt _⟩
  have hinjective : Function.Injective reach := by
    intro a b hab
    have hsame := UInt32.toNat_inj.mp (congrArg Fin.val hab)
    by_contra hne
    have hbytes : LittleEndian.encode 4 a ≠ LittleEndian.encode 4 b := by
      intro heq
      have hdecode := congrArg LittleEndian.decode heq
      have ha := a.isLt
      have hb := b.isLt
      rw [LittleEndian.decode_encode, LittleEndian.decode_encode] at hdecode
      exact hne (Fin.ext (by omega))
    have hdiffer := foldl_window_ne hpoly c (by simp) (by simp) hbytes []
    rw [List.append_nil, List.append_nil] at hdiffer
    exact hdiffer hsame
  obtain ⟨n, hn⟩ := Finite.injective_iff_surjective.mp hinjective ⟨target.toNat, target.toNat_lt⟩
  exact ⟨LittleEndian.encode 4 n, by simp, UInt32.toNat_inj.mp (congrArg Fin.val hn)⟩

theorem foldl_set_ne (hpoly : poly.toBitVec[31] = true) (c : UInt32) {data : List UInt8}
    {index : Nat} (hindex : index < data.length) {byte : UInt8} (hne : byte ≠ data[index]) :
    (data.set index byte).foldl (update poly) c ≠ data.foldl (update poly) c := by
  have hsplit : data = data.take index ++ ([data[index]] ++ data.drop (index + 1)) := by
    rw [List.singleton_append, List.getElem_cons_drop, List.take_append_drop]
  have hset : data.set index byte = data.take index ++ ([byte] ++ data.drop (index + 1)) := by
    rw [List.set_eq_take_append_cons_drop, if_pos hindex]
    rfl
  rw [hset, List.foldl_append]
  conv_rhs => rw [hsplit, List.foldl_append]
  exact foldl_window_ne (p := [byte]) (q := [data[index]]) hpoly _ rfl (by simp)
    (by simpa using hne) _

/-! Bit by bit. -/

/-- One bit of the message is added to the register, which then makes a step. -/
def divideBit (poly c : UInt32) (bit : Bool) : UInt32 := step poly (c ^^^ if bit then 1 else 0)

def bitsOf : Nat → UInt32 → List Bool
  | 0, _ => []
  | n + 1, w => (w &&& 1 ≠ 0) :: bitsOf n (w >>> 1)

theorem step_rest (w : UInt32) :
    step poly ((if w &&& 1 ≠ 0 then 1 else 0) ^^^ w) = w >>> 1 := by
  apply UInt32.toBitVec_inj.mp
  have hlow : ((if w &&& 1 ≠ 0 then 1 else 0) ^^^ w : UInt32).toBitVec.getLsbD 0 = false := by
    rw [UInt32.toBitVec_xor, BitVec.getLsbD_xor]
    by_cases hodd : w.toBitVec.getLsbD 0 = true
    · rw [if_pos ((odd_iff w).mpr hodd), hodd]
      rfl
    · rw [if_neg fun h => hodd ((odd_iff w).mp h), Bool.eq_false_of_not_eq_true hodd]
      rfl
  rw [step_toBitVec, hlow, if_neg (by decide), UInt32.toBitVec_xor, BitVec.ushiftRight_xor_distrib]
  apply BitVec.eq_of_getLsbD_eq
  intro i _
  rw [BitVec.getLsbD_xor]
  have hnone : ((if w &&& 1 ≠ 0 then 1 else 0 : UInt32).toBitVec >>> 1).getLsbD i = false := by
    split
    · simp
    · simp
  rw [hnone, Bool.false_xor]
  simp [UInt32.toBitVec_shiftRight]

theorem foldl_bits {n : Nat} {w : UInt32} (h : ∀ i, n ≤ i → w.toBitVec.getLsbD i = false)
    (c : UInt32) : (bitsOf n w).foldl (divideBit poly) c = (step poly)^[n] (c ^^^ w) := by
  induction n generalizing c w with
  | zero =>
    have hzero : w = 0 := by
      apply UInt32.toBitVec_inj.mp
      apply BitVec.eq_of_getLsbD_eq
      intro i _
      rw [h i (Nat.zero_le _)]
      simp
    simp [bitsOf, hzero]
  | succ n ih =>
    have hrest : ∀ i, n ≤ i → (w >>> 1).toBitVec.getLsbD i = false := by
      intro i hi
      have hbit := h (1 + i) (by omega)
      simpa [UInt32.toBitVec_shiftRight] using hbit
    have hsplit : c ^^^ w = (c ^^^ if w &&& 1 ≠ 0 then 1 else 0) ^^^
        ((if w &&& 1 ≠ 0 then 1 else 0) ^^^ w) := by
      rw [UInt32.xor_assoc, ← UInt32.xor_assoc (if w &&& 1 ≠ 0 then 1 else 0), UInt32.xor_self,
        UInt32.zero_xor]
    rw [bitsOf, List.foldl_cons, ih hrest, Function.iterate_succ_apply, hsplit, step_xor, step_rest]
    simp [divideBit]

theorem foldl_update_eq (data : List UInt8) (c : UInt32) : data.foldl (update poly) c =
    (data.flatMap fun byte => bitsOf 8 byte.toUInt32).foldl (divideBit poly) c := by
  induction data generalizing c with
  | nil => rfl
  | cons byte rest ih =>
    rw [List.foldl_cons, ih, List.flatMap_cons, List.foldl_append,
      foldl_bits fun i hi => octet_high byte hi, update_eq]

end Strata.Library.Crc
