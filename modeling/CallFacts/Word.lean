/-!
# Words

A word is a pattern of 64 bits: an address, the content of a register, or a number in two's
complement. The operations here cut a word down to its low bits and extend it again, by masks and
shifts that a lemma beside each relates to a change of width, and take away its lowest set bit.
-/

namespace CallFacts

/-- A pattern of 64 bits. -/
abbrev Word := BitVec 64

namespace Word

/-- The word whose low `bits` bits are set; from 64 on all of them. -/
def mask (bits : Nat) : Word := if 64 ≤ bits then BitVec.allOnes 64 else (1#64 <<< bits) - 1#64

/-- The low `bits` bits of a word, zero extended; from 64 on the word itself. -/
def keepLow (bits : Nat) (w : Word) : Word := w &&& mask bits

/-- Whether the highest of the low `bits` bits is set. Without bits there is none, and from 64 on none is left above
it to be filled. -/
def signBit (bits : Nat) (low : Word) : Bool :=
  0 < bits && bits < 64 && (low >>> (bits - 1)) &&& 1#64 == 1#64

/-- The low `bits` bits of a word, sign extended; from 64 on the word itself. -/
def signExtendLow (bits : Nat) (w : Word) : Word :=
  let low := keepLow bits w
  if signBit bits low then low ||| ~~~mask bits else low

/-- The word without its lowest set bit. -/
def withoutLowest (w : Word) : Word := w &&& (w - 1#64)

theorem toNat_mask_of_lt {bits : Nat} (h : bits < 64) : (mask bits).toNat = Nat.pow 2 bits - 1 := by
  have hpow : 2 ^ bits < 2 ^ 64 := Nat.pow_lt_pow_right (by decide) h
  have hpos : 0 < 2 ^ bits := Nat.two_pow_pos bits
  rw [mask, if_neg (by omega), BitVec.toNat_sub, BitVec.toNat_shiftLeft, BitVec.toNat_ofNat, Nat.shiftLeft_eq, Nat.pow_eq]
  omega

theorem getLsbD_mask (bits i : Nat) : (mask bits).getLsbD i = (decide (i < 64) && decide (i < bits)) := by
  by_cases h : 64 ≤ bits
  · rw [mask, if_pos h, BitVec.getLsbD_allOnes, Bool.eq_iff_iff]
    simp only [Bool.and_eq_true, decide_eq_true_eq]
    omega
  · rw [← BitVec.testBit_toNat, toNat_mask_of_lt (by omega), Nat.pow_eq, Nat.testBit_two_pow_sub_one, Bool.eq_iff_iff]
    simp only [Bool.and_eq_true, decide_eq_true_eq]
    omega

theorem getLsbD_keepLow (bits : Nat) (w : Word) (i : Nat) :
    (keepLow bits w).getLsbD i = (decide (i < bits) && w.getLsbD i) := by
  rw [keepLow, BitVec.getLsbD_and, getLsbD_mask]
  by_cases hi : i < 64
  · simp [hi, Bool.and_comm]
  · simp [BitVec.getLsbD_of_ge w i (Nat.le_of_not_lt hi)]

theorem keepLow_eq_setWidth (bits : Nat) (w : Word) : keepLow bits w = (w.setWidth bits).setWidth 64 := by
  apply BitVec.eq_of_getLsbD_eq
  intro i hi
  rw [getLsbD_keepLow, BitVec.getLsbD_setWidth, BitVec.getLsbD_setWidth, decide_eq_true hi, Bool.true_and]

theorem toNat_keepLow (bits : Nat) (w : Word) : (keepLow bits w).toNat = w.toNat % Nat.pow 2 bits := by
  simp only [keepLow_eq_setWidth, BitVec.toNat_setWidth]
  exact Nat.mod_eq_of_lt (Nat.lt_of_le_of_lt (Nat.mod_le _ _) w.isLt)

theorem keepLow_of_le {bits : Nat} (h : 64 ≤ bits) (w : Word) : keepLow bits w = w := by
  apply BitVec.eq_of_toNat_eq
  rw [toNat_keepLow]
  exact Nat.mod_eq_of_lt (Nat.lt_of_lt_of_le w.isLt (Nat.pow_le_pow_right (by decide) h))

theorem keepLow_keepLow (bits : Nat) (w : Word) : keepLow bits (keepLow bits w) = keepLow bits w := by
  apply BitVec.eq_of_toNat_eq
  simp [toNat_keepLow]

/-! ### Sign extension -/

theorem shiftRight_and_one (w : Word) (i : Nat) : ((w >>> i) &&& 1#64 == 1#64) = w.getLsbD i := by
  rw [BitVec.and_one_eq_setWidth_ofBool_getLsbD, BitVec.getLsbD_ushiftRight, Nat.add_zero]
  cases w.getLsbD i <;> rfl

theorem signBit_keepLow (bits : Nat) (w : Word) :
    signBit bits (keepLow bits w) = (decide (bits < 64) && (w.setWidth bits).msb) := by
  rw [signBit, shiftRight_and_one, getLsbD_keepLow, BitVec.msb_setWidth]
  by_cases h : 0 < bits
  · have hlast : bits - 1 < bits := Nat.sub_lt h Nat.one_pos
    simp [h, hlast]
  · simp [h]

/-- To fill up with the complement of the mask is to sign extend. -/
theorem signExtendLow_eq_signExtend (bits : Nat) (w : Word) :
    signExtendLow bits w = (w.setWidth bits).signExtend 64 := by
  apply BitVec.eq_of_getLsbD_eq
  intro i hi
  rw [BitVec.getLsbD_signExtend, BitVec.getLsbD_setWidth, signExtendLow, signBit_keepLow]
  by_cases hlow : i < bits
  · -- The mask reaches over this bit, so both branches have the bit of the word.
    have hbit : (keepLow bits w ||| ~~~mask bits).getLsbD i = (keepLow bits w).getLsbD i := by
      rw [BitVec.getLsbD_or, BitVec.getLsbD_not, getLsbD_mask]
      simp [hlow]
    simp only [apply_ite (BitVec.getLsbD · i), hbit, ite_self, getLsbD_keepLow]
    simp [hi, hlow]
  · have hbits : bits < 64 := by omega
    cases (w.setWidth bits).msb with
    | true =>
      simp only [hbits, decide_true, Bool.and_self, if_true, BitVec.getLsbD_or, BitVec.getLsbD_not, getLsbD_mask]
      simp [hi, hlow]
    | false =>
      simp only [Bool.and_false, Bool.false_eq_true, if_false, getLsbD_keepLow]
      simp [hlow]

/-- To shift the low bits to the top and back again is to sign extend. -/
theorem sshiftRight_shiftLeft {bits : Nat} (hpos : 0 < bits) (hle : bits ≤ 64) (w : Word) :
    (w <<< (64 - bits)).sshiftRight (64 - bits) = (w.setWidth bits).signExtend 64 := by
  apply BitVec.eq_of_getLsbD_eq
  intro i hi
  rw [BitVec.getLsbD_sshiftRight, BitVec.getLsbD_signExtend, BitVec.getLsbD_shiftLeft, BitVec.getLsbD_setWidth,
    BitVec.msb_shiftLeft, BitVec.msb_setWidth, BitVec.getMsbD]
  by_cases hlow : i < bits
  · have hin : 64 - bits + i < 64 := by omega
    have hback : 64 - bits + i - (64 - bits) = i := by omega
    have hkept : ¬ 64 - bits + i < 64 - bits := by omega
    simp only [hback, hin]
    simp [hi, hlow, hkept, Nat.not_le.mpr hi]
  · have hout : ¬ 64 - bits + i < 64 := by omega
    have hshift : 64 - 1 - (64 - bits) = bits - 1 := by omega
    have hlt : 64 - bits < 64 := by omega
    simp [hi, hlow, hout, hpos, hshift, hlt]

/-! ### The lowest set bit -/

/-- A bit stays if one below it is set: `w - 1` is the complement of `-w`, and negation turns over the
bits above the lowest set one. -/
theorem getLsbD_withoutLowest (w : Word) (i : Nat) :
    (withoutLowest w).getLsbD i = (w.getLsbD i && decide (∃ j < i, w.getLsbD j = true)) := by
  by_cases hi : i < 64
  · rw [withoutLowest, ← BitVec.not_neg, BitVec.getLsbD_and, BitVec.getLsbD_not, BitVec.getLsbD_neg]
    cases w.getLsbD i <;> simp [hi]
  · simp [BitVec.getLsbD_of_ge _ i (Nat.le_of_not_lt hi)]

theorem toNat_withoutLowest_lt {w : Word} (h : w ≠ 0#64) : (withoutLowest w).toNat < w.toNat := by
  have hpos : 0 < w.toNat := Nat.pos_of_ne_zero fun hzero => h (BitVec.eq_of_toNat_eq hzero)
  have hsub : (w - 1#64).toNat = w.toNat - 1 := BitVec.toNat_sub_of_le (BitVec.le_def.mpr hpos)
  have hle : (withoutLowest w).toNat ≤ (w - 1#64).toNat := by
    rw [withoutLowest, BitVec.toNat_and]
    exact Nat.and_le_right
  omega

end Word

end CallFacts
