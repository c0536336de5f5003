import CallFacts.Proofs.Arithmetic
import CallFacts.Proofs.Distributive

/-!
# Values as integers

The arithmetic of values works on patterns of 64 bits that wrap. Read as integers, a multiple with an
offset, an extension and a change of width are what they are on integers, reduced once to the width of
the result; widths beyond 64 reduce no further. So multiples compose, and to extend what has been
extended changes nothing, also where the result is narrower than the part that is extended.
-/

namespace CallFacts

namespace Word

variable {w w' : Word} {x y : Int} {bits source : Nat}

theorem keepLow_min (bits : Nat) (w : Word) : keepLow (min bits 64) w = keepLow bits w := by
  rcases Nat.le_total bits 64 with h | h
  · rw [min_eq_left h]
  · rw [min_eq_right h, keepLow_of_le le_rfl, keepLow_of_le h]

/-- Words of congruent numbers have the same low bits. -/
theorem keepLow_eq_of_modEq (hw : IsNumber w x) (hw' : IsNumber w' y) (h : x ≡ y [ZMOD 2 ^ min bits 64]) :
    keepLow bits w = keepLow bits w' := by
  rw [← keepLow_min bits w, ← keepLow_min bits w']
  apply BitVec.eq_of_toNat_eq
  zify
  rw [hw.toNat_keepLow (min_le_right bits 64), hw'.toNat_keepLow (min_le_right bits 64)]
  exact h

/-- The low bits of a multiple with an offset depend on the low bits only. -/
theorem keepLow_keepLow_mul_add (bits : Nat) (w multiplier offset : Word) :
    keepLow bits (keepLow bits w * multiplier + offset) = keepLow bits (w * multiplier + offset) := by
  have hm := isNumber_toInt multiplier
  have ho := isNumber_toInt offset
  refine keepLow_eq_of_modEq (((isNumber_keepLow bits w).mul hm).add ho) (((isNumber_toNat w).mul hm).add ho) ?_
  have hlow : (w.toNat : Int) % 2 ^ bits ≡ w.toNat [ZMOD 2 ^ min bits 64] :=
    (Int.mod_modEq _ _).of_dvd (pow_dvd_pow 2 (min_le_left bits 64))
  exact (hlow.mul_right _).add_right _

/-! ### Reading the low bits -/

theorem isNumber_reading (source : Nat) (signed : Bool) (w : Word) :
    IsNumber ((if signed then signExtendLow source else keepLow source) w) (Effect.reading source signed w) := by
  rw [IsNumber, ofInt_reading le_rfl, BitVec.setWidth_eq]

/-- The function keeps the low `source` bits of a word and looks at no others. -/
structure ReadsLow (source : Nat) (f : Word → Word) : Prop where
  keeps : ∀ w, keepLow source (f w) = keepLow source w
  looks : ∀ w, f (keepLow source w) = f w

theorem readsLow_keepLow (source : Nat) : ReadsLow source (keepLow source) :=
  ⟨keepLow_keepLow source, keepLow_keepLow source⟩

theorem readsLow_signExtendLow (source : Nat) : ReadsLow source (signExtendLow source) := by
  constructor
  · intro w
    apply BitVec.eq_of_getLsbD_eq
    intro i hi
    simp only [getLsbD_keepLow, signExtendLow_eq_signExtend, BitVec.getLsbD_signExtend, BitVec.getLsbD_setWidth]
    by_cases hlow : i < source
    · simp [hlow, hi]
    · simp [hlow]
  · intro w
    rcases Nat.le_total source 64 with h | h
    · simp only [signExtendLow_eq_signExtend, keepLow_eq_setWidth]
      rw [BitVec.setWidth_setWidth (u := source) (v := 64) (by omega), BitVec.setWidth_eq]
    · rw [keepLow_of_le h]

/-- Reading a second time gives the same, cut down to any width. -/
theorem ReadsLow.keepLow_again {f : Word → Word} (h : ReadsLow source f) (target : Nat) (w : Word) :
    keepLow target (f (keepLow target (f w))) = keepLow target (f w) := by
  rcases Nat.le_total source target with hle | hle
  · -- The first result still has the low bits that are read.
    have hsame : keepLow source (keepLow target (f w)) = keepLow source w := by
      rw [keepLow_keepLow_of_le hle, h.keeps]
    rw [← h.looks (keepLow target (f w)), hsame, h.looks]
  · -- The result is a part of what is read, so neither reading changes it.
    have hpart (w : Word) : keepLow target (f w) = keepLow target w := by
      rw [← keepLow_keepLow_of_le hle, h.keeps, keepLow_keepLow_of_le hle]
    rw [hpart (keepLow target (f w)), keepLow_keepLow]

end Word

namespace Value

/-! ### The operations on values -/

theorem isNumber_mapExact {f : Word → Word} {n : Word} {x : Int} (h : Word.IsNumber (f n) x) (held bits : Nat) :
    ((exact n held).mapExact f bits).IsNumber x (min bits 64) bits := by
  refine ⟨Word.keepLow bits (f n), rfl, ?_⟩
  rw [← Word.keepLow_min]
  exact h.toNat_keepLow (min_le_right bits 64)

theorem affine_affine (v : Value) (multiplier offset multiplier' offset' : Word) (bits : Nat) :
    (v.affine multiplier offset bits).affine multiplier' offset' bits =
      v.affine (multiplier * multiplier') (offset * multiplier' + offset') bits := by
  cases v with
  | bottom => rfl
  | exact n held =>
    have hsum : (n * multiplier + offset) * multiplier' + offset' =
        n * (multiplier * multiplier') + (offset * multiplier' + offset') := by ring
    simp only [affine, mapExact, ofWord, Word.keepLow_keepLow_mul_add, hsum]
  | top => rfl

theorem extend_extend (v : Value) (source target : Nat) (signed : Bool) :
    (v.extend source target signed).extend source target signed = v.extend source target signed := by
  have hreads : Word.ReadsLow source (if signed then Word.signExtendLow source else Word.keepLow source) := by
    cases signed with
    | true => exact Word.readsLow_signExtendLow source
    | false => exact Word.readsLow_keepLow source
  cases v with
  | bottom => rfl
  | exact n held => simp only [extend, mapExact, ofWord, hreads.keepLow_again]
  | top => rfl

/-- The function keeps `bottom` and `top` and the order of values. -/
structure Preserves (f : Value → Value) : Prop where
  bottom : f bottom = bottom
  top : f top = top
  le : ∀ {v w : Value}, v ≤ w → f v ≤ f w

theorem preserves_mapExact (f : Word → Word) (bits : Nat) : Preserves (mapExact f bits) :=
  ⟨rfl, rfl, fun h => mapExact_le h f bits⟩

/-- The operations on exact values are those on integers, reduced to the width that the result has, or to 64
if that is less. Two multiples with an offset make one, and extending is done once and for all. What is not
exact stays, and the order of values is kept. -/
theorem arithmetic_exact (n multiplier offset multiplier' offset' : Word) (held bits source target : Nat)
    (signed : Bool) (v : Value) :
    ((exact n held).affine multiplier offset bits).IsNumber (n.toNat * multiplier.toInt + offset.toInt)
        (min bits 64) bits ∧
      ((exact n held).extend source target signed).IsNumber (Effect.reading source signed n)
        (min target 64) target ∧
      ((exact n held).widen bits).IsNumber n.toNat (min bits 64) bits ∧
      (v.affine multiplier offset bits).affine multiplier' offset' bits =
        v.affine (multiplier * multiplier') (offset * multiplier' + offset') bits ∧
      (v.extend source target signed).extend source target signed = v.extend source target signed ∧
      Preserves (affine multiplier offset bits) ∧ Preserves (extend source target signed) ∧
      Preserves (widen bits) := by
  have hn := Word.isNumber_toNat n
  refine ⟨?_, ?_, ?_, affine_affine v _ _ _ _ bits, extend_extend v source target signed,
    preserves_mapExact _ bits, preserves_mapExact _ target, preserves_mapExact _ bits⟩
  · exact isNumber_mapExact ((hn.mul (Word.isNumber_toInt multiplier)).add (Word.isNumber_toInt offset)) held bits
  · exact isNumber_mapExact (Word.isNumber_reading source signed n) held target
  · exact isNumber_mapExact hn held bits

end Value

end CallFacts
