import CallFacts.Proofs.Frame
import CallFacts.Proofs.Soundness
import CallFacts.Proofs.Width

/-!
# Effects as integer arithmetic

Multipliers, offsets and constants of effects are words, and so are patterns; products and sums wrap, first at
64 bits and then at the width of the effect. Read as numbers, all of this is arithmetic on integers with one
reduction at the end: an effect whose words are those of some numbers writes the number that it computes from
them, wrapped to its width, as the content of a full register.
-/

namespace CallFacts

/-! ### Words of numbers -/

namespace Word

/-- The word is a number wrapped to 64 bits. -/
def IsNumber (w : Word) (x : Int) : Prop := BitVec.ofInt 64 x = w

variable {w w' : Word} {x y : Int}

theorem isNumber_toInt (w : Word) : IsNumber w w.toInt := BitVec.ofInt_toInt

theorem isNumber_toNat (w : Word) : IsNumber w w.toNat := by
  rw [IsNumber, BitVec.ofInt_natCast, BitVec.ofNat_toNat, BitVec.setWidth_eq]

theorem isNumber_zero : IsNumber 0 0 := rfl

theorem isNumber_one : IsNumber 1 1 := rfl

theorem isNumber_twoPow (k : Nat) : IsNumber (BitVec.twoPow 64 k) (2 ^ k) := by
  have hcast : (2 : Int) ^ k = ((2 ^ k : Nat) : Int) := by push_cast; rfl
  apply BitVec.eq_of_toNat_eq
  rw [hcast, BitVec.ofInt_natCast, BitVec.toNat_ofNat, BitVec.toNat_twoPow]

theorem IsNumber.add (h : IsNumber w x) (h' : IsNumber w' y) : IsNumber (w + w') (x + y) := by
  rw [IsNumber, BitVec.ofInt_add, h, h']

theorem IsNumber.mul (h : IsNumber w x) (h' : IsNumber w' y) : IsNumber (w * w') (x * y) := by
  rw [IsNumber, BitVec.ofInt_mul, h, h']

theorem IsNumber.neg (h : IsNumber w x) : IsNumber (-w) (-x) := by
  rw [IsNumber, BitVec.ofInt_neg, h]

theorem IsNumber.not (h : IsNumber w x) : IsNumber (~~~w) (-x - 1) := by
  have hsum : IsNumber (-w + -1) (-x + -1) := h.neg.add isNumber_one.neg
  rwa [← BitVec.sub_eq_add_neg, ← Int.sub_eq_add_neg, BitVec.ofNat_eq_ofNat, ← BitVec.not_eq_neg_add] at hsum

theorem IsNumber.shiftLeft (h : IsNumber w x) (k : Nat) : IsNumber (w <<< k) (x * 2 ^ k) := by
  rw [BitVec.shiftLeft_eq_mul_twoPow]
  exact h.mul (isNumber_twoPow k)

theorem isNumber_keepLow (source : Nat) (w : Word) : IsNumber (keepLow source w) ((w.toNat : Int) % 2 ^ source) := by
  have hnat := isNumber_toNat (keepLow source w)
  rw [toNat_keepLow] at hnat
  exact_mod_cast hnat

theorem isNumber_signExtendLow (source : Nat) (w : Word) :
    IsNumber (signExtendLow source w) ((w.toNat : Int).bmod (2 ^ source)) := by
  rw [IsNumber, signExtendLow_eq_signExtend, ← BitVec.toInt_setWidth]
  rfl

/-- Cutting a word down to a width reduces its number. -/
theorem IsNumber.toNat_keepLow {width : Nat} (h : IsNumber w x) (hwidth : width ≤ 64) :
    ((keepLow width w).toNat : Int) = x % 2 ^ width := by
  have hpos : (0 : Int) < 2 ^ width := by positivity
  rw [← h, keepLow_eq_setWidth, setWidth_ofInt_of_le hwidth, BitVec.toNat_setWidth_of_le hwidth, BitVec.toNat_ofInt]
  push_cast
  exact Int.toNat_of_nonneg (Int.emod_nonneg x hpos.ne')

end Word

/-! ### Values that are numbers -/

/-- The value is exact: a number wrapped to `width` bits, in a register of `bits` bits. -/
def Value.IsNumber (v : Value) (x : Int) (width bits : Nat) : Prop :=
  ∃ w : Word, v = .exact w bits ∧ (w.toNat : Int) = x % 2 ^ width

namespace Value

variable {v : Value} {w : Word} {x : Int} {width bits : Nat}

/-- A number reduced to a width is that also at every greater width. -/
theorem IsNumber.reduced {width' : Nat} (h : v.IsNumber x width bits) (hwidth : width ≤ width') :
    v.IsNumber (x % 2 ^ width) width' bits := by
  obtain ⟨w, hv, hw⟩ := h
  refine ⟨w, hv, ?_⟩
  have hpos : (0 : Int) < 2 ^ width := by positivity
  have hpow : (2 : Int) ^ width ≤ 2 ^ width' := pow_le_pow_right₀ (by decide) hwidth
  rw [hw, Int.emod_eq_of_lt (Int.emod_nonneg x hpos.ne') ((Int.emod_lt_of_pos x hpos).trans_le hpow)]

/-- A pattern cut down to a width fits every wider register. -/
theorem isNumber_ofWord (h : Word.IsNumber w x) (hwidth : width ≤ bits) (hbits : bits ≤ 64) :
    (ofWord (Word.keepLow width w) bits).IsNumber x width bits := by
  refine ⟨_, rfl, ?_⟩
  have hfits : Word.keepLow bits (Word.keepLow width w) = Word.keepLow width w := by
    have hofWidth : (exact (Word.keepLow width w) bits).OfWidth bits := by
      refine ofWidth_exact_iff.mpr ⟨rfl, ?_⟩
      rw [Word.toNat_keepLow]
      exact (Nat.mod_lt _ (Nat.two_pow_pos width)).trans_le (Nat.pow_le_pow_right (by decide) hwidth)
    exact hofWidth.2
  rw [hfits]
  exact h.toNat_keepLow (hwidth.trans hbits)

end Value

/-! ### What effects compute -/

/-- In the state the effect gives one register of `bits` bits a number wrapped to `width` bits. -/
structure Effect.Gives (e : Effect) (s : State) (dst : Register) (x : Int) (width bits : Nat) : Prop where
  written : e.written = RegisterSet.insert ∅ dst
  value : (s.evaluate bits e).IsNumber x width bits

namespace Effect

variable {e : Effect} {s : State} {w n multiplier offset : Word} {x y z : Int} {width bits held : Nat}
  {dst src : Register}

theorem Gives.of_eq (h : e.Gives s dst x width bits) (hxy : x = y) : e.Gives s dst y width bits := hxy ▸ h

/-- What is reduced to a width is the same number at every greater width. -/
theorem Gives.reduced {width' : Nat} (h : e.Gives s dst x width bits) (hwidth : width ≤ width') :
    e.Gives s dst (x % 2 ^ width) width' bits := ⟨h.written, h.value.reduced hwidth⟩

theorem gives_immediate (h : Word.IsNumber w x) (hwidth : width ≤ bits) (hbits : bits ≤ 64) :
    (immediate dst (Word.keepLow width w)).Gives s dst x width bits :=
  ⟨rfl, Value.isNumber_ofWord h hwidth hbits⟩

theorem gives_zero (hdvd : (2 : Int) ^ width ∣ x) : (immediate dst 0).Gives s dst x width bits := by
  refine ⟨rfl, Word.keepLow bits 0, rfl, ?_⟩
  rw [Int.emod_eq_zero_of_dvd hdvd, Word.toNat_keepLow]
  rfl

theorem gives_copy (hs : s.OfWidth bits) (hsrc : s.get src = .exact n bits) :
    (copy dst src).Gives s dst n.toNat bits bits := by
  have hn : (Value.exact n bits).OfWidth bits := hsrc ▸ hs src
  refine ⟨rfl, n, hsrc, ?_⟩
  exact_mod_cast (Nat.mod_eq_of_lt (Value.ofWidth_exact_iff.mp hn).2).symm

section

variable (hsrc : s.get src = .exact n held)

include hsrc

theorem gives_affine (hm : Word.IsNumber multiplier y) (ho : Word.IsNumber offset z) (hwidth : width ≤ bits)
    (hbits : bits ≤ 64) : (affine dst src multiplier offset width).Gives s dst (n.toNat * y + z) width bits := by
  refine ⟨rfl, ?_⟩
  simp only [State.evaluate, hsrc]
  exact Value.isNumber_ofWord (((Word.isNumber_toNat n).mul hm).add ho) hwidth hbits

theorem gives_offset (ho : Word.IsNumber offset z) (hwidth : width ≤ bits) (hbits : bits ≤ 64) :
    (Effect.offset dst src offset width).Gives s dst (n.toNat + z) width bits := by
  refine (gives_affine hsrc Word.isNumber_one ho hwidth hbits).of_eq ?_
  rw [Int.mul_one]

theorem gives_multiple (hm : Word.IsNumber multiplier y) (hwidth : width ≤ bits) (hbits : bits ≤ 64) :
    (affine dst src multiplier 0 width).Gives s dst (n.toNat * y) width bits := by
  exact (gives_affine hsrc hm Word.isNumber_zero hwidth hbits).of_eq (Int.add_zero _)

theorem gives_zeroExtended (source : Nat) (hwidth : width ≤ bits) (hbits : bits ≤ 64) :
    (extend dst src source width false).Gives s dst (n.toNat % 2 ^ source) width bits := by
  refine ⟨rfl, ?_⟩
  simp only [State.evaluate, hsrc]
  exact Value.isNumber_ofWord (Word.isNumber_keepLow source n) hwidth hbits

theorem gives_signExtended (source : Nat) (hwidth : width ≤ bits) (hbits : bits ≤ 64) :
    (extend dst src source width true).Gives s dst ((n.toNat : Int).bmod (2 ^ source)) width bits := by
  refine ⟨rfl, ?_⟩
  simp only [State.evaluate, hsrc]
  exact Value.isNumber_ofWord (Word.isNumber_signExtendLow source n) hwidth hbits

end

end Effect

/-! ### Instructions with one effect -/

namespace State

variable {s : State} {x : Int} {width bits : Nat} {r : Register}

/-- The second state is the first but for one register, which has become a number wrapped to `width` bits. -/
structure Receives (s t : State) (r : Register) (x : Int) (width bits : Nat) : Prop where
  tracked : t.tracked = s.tracked
  value : (t.get r).IsNumber x width bits
  rest : ∀ q, q ≠ r → t.get q = s.get q

theorem receives_apply {i : Instruction} {e : Effect} (hi : i.effects = [e]) (he : e.Gives s r x width bits)
    (hr : r ∈ s.tracked) : s.Receives (s.apply bits i) r x width bits := by
  have happly : s.apply bits i = s.assign (RegisterSet.insert ∅ r) (s.evaluate bits e) := by
    rw [apply, hi, List.foldl_cons, he.written]
    rfl
  refine ⟨tracked_apply s bits i, ?_, ?_⟩
  · rw [happly, get_assign, if_pos ⟨hr, by simp⟩]
    exact he.value
  · intro q hq
    rw [happly, get_assign, if_neg (by simp [hq])]

end State

end CallFacts
