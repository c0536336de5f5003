import CallFacts.Proofs.RelationReadBack

/-!
# Observed values against facts

Every observed value has one of three verdicts: there is no fact at its place, it is that of the fact, or it contradicts
the fact. Values are compared by their two's complement readings at the width of the fact, which is to compare them
modulo two to that width. The three parts of a verification are the values of each verdict, in their order.
-/

namespace CallFacts

variable {t : FactTable} {o : Observed} {f : Fact} {bits : Nat} {value : Word}

/-! ### Readings -/

theorem Word.setWidth_keepLow (bits : Nat) (w : Word) :
    (Word.keepLow bits w).setWidth (min bits 64) = w.setWidth (min bits 64) := by
  have hdvd : 2 ^ min bits 64 ∣ Nat.pow 2 bits := Nat.pow_dvd_pow 2 (min_le_left bits 64)
  refine BitVec.eq_of_toNat_eq ?_
  rw [BitVec.toNat_setWidth, BitVec.toNat_setWidth, Word.toNat_keepLow, Nat.mod_mod_of_dvd _ hdvd]

/-- Two words read the same at a width if they are congruent modulo two to it. -/
theorem toInt_setWidth_eq_iff {w w' : Word} {n : Nat} :
    (w.setWidth n).toInt = (w'.setWidth n).toInt ↔ w.toNat ≡ w'.toNat [MOD 2 ^ n] := by
  rw [BitVec.toInt_inj, ← BitVec.toNat_inj, BitVec.toNat_setWidth, BitVec.toNat_setWidth, Nat.ModEq]

theorem signedReading_zero (value : Word) : signedReading value 0 = value.toInt := if_pos (.inl rfl)

/-- A reading is congruent to the word that is read. -/
theorem signedReading_modEq (value : Word) (bits : Nat) :
    signedReading value bits ≡ value.toNat [ZMOD 2 ^ min bits 64] := by
  rcases Nat.eq_zero_or_pos bits with rfl | hpos
  · exact Int.modEq_one
  · rw [signedReading_of_pos hpos]
    have hmod : ((2 ^ min bits 64 : Nat) : Int) = 2 ^ min bits 64 := by push_cast; rfl
    rw [BitVec.toInt_eq_toNat_bmod, BitVec.toNat_setWidth, Int.ModEq, ← hmod, Int.bmod_emod, Int.natCast_mod,
      Int.emod_emod_of_dvd _ dvd_rfl]

/-- A reading at a width lies in the range of that width. -/
theorem signedReading_range (h : 1 ≤ bits) (value : Word) :
    -2 ^ (min bits 64 - 1) ≤ signedReading value bits ∧ signedReading value bits < 2 ^ (min bits 64 - 1) := by
  rw [signedReading_of_pos h]
  exact ⟨BitVec.le_toInt _, BitVec.toInt_lt⟩

/-! ### Verdicts -/

/-- What the facts say about an observed value. -/
inductive Verdict where
  | matched
  | mismatched (f : Fact)
  | missing
deriving DecidableEq

/-- The value observed is that of the fact as far as its width goes. Without a width the fact is compared with zero. -/
def Fact.Confirms (f : Fact) (o : Observed) : Prop :=
  if f.bits = 0 then f.value = 0 else o.value.toNat ≡ f.value.toNat [MOD 2 ^ min f.bits 64]

/-- The verdict on an observed value by the facts at its address and register. -/
inductive Verdict.Holds (t : FactTable) (o : Observed) : Verdict → Prop
  | matched {f : Fact} (hf : f ∈ t.facts) (hsite : f.site = o.site) (hconfirms : f.Confirms o) : Holds t o .matched
  | mismatched {f : Fact} (hf : f ∈ t.facts) (hsite : f.site = o.site) (hcontradicts : ¬ f.Confirms o) :
    Holds t o (.mismatched f)
  | missing (hnone : ∀ f ∈ t.facts, f.site ≠ o.site) : Holds t o .missing

/-- The verdict that the comparison of an observed value with the fact at its site comes to. -/
def Verification.verdict (t : FactTable) (o : Observed) : Verdict :=
  match t.get? o.site with
  | some f => if o.agrees f then .matched else .mismatched f
  | none => .missing

theorem Observed.agrees_iff : o.agrees f = true ↔ f.Confirms o := by
  have hread : o.agrees f = true ↔
      signedReading (Word.keepLow f.bits o.value) f.bits = signedReading f.value f.bits := decide_eq_true_iff
  rw [hread, Fact.Confirms]
  split
  · next hzero =>
    -- Without a width nothing of the observed value is left to compare.
    have hempty : Word.keepLow 0 o.value = 0 := by
      refine BitVec.eq_of_toNat_eq ?_
      rw [Word.toNat_keepLow]
      exact Nat.mod_one _
    rw [hzero, hempty, signedReading_zero, signedReading_zero, BitVec.toInt_inj, eq_comm]
  · next hpos =>
    have hbits : 1 ≤ f.bits := Nat.one_le_iff_ne_zero.mpr hpos
    rw [signedReading_of_pos hbits, signedReading_of_pos hbits, Word.setWidth_keepLow, toInt_setWidth_eq_iff]

theorem FactTable.get?_eq_some_iff {s : Site} : t.get? s = some f ↔ f ∈ t.facts ∧ f.site = s := by
  constructor
  · intro h
    exact ⟨List.mem_of_find?_eq_some h, by simpa using List.find?_some h⟩
  · rintro ⟨hf, rfl⟩
    exact FactTable.get?_eq_some_of_mem hf

theorem FactTable.get?_eq_none_iff {s : Site} : t.get? s = none ↔ ∀ f ∈ t.facts, f.site ≠ s := by
  simp [get?]

namespace Verification

theorem holds_verdict (t : FactTable) (o : Observed) : (verdict t o).Holds t o := by
  rw [verdict]
  cases hget : t.get? o.site with
  | none => exact .missing (FactTable.get?_eq_none_iff.mp hget)
  | some f =>
    obtain ⟨hf, hsite⟩ := FactTable.get?_eq_some_iff.mp hget
    dsimp only
    split
    · next hagrees => exact .matched hf hsite (Observed.agrees_iff.mp hagrees)
    · next hagrees => exact .mismatched hf hsite (mt Observed.agrees_iff.mpr hagrees)

/-- No other verdict holds, since there is one fact at a site. -/
theorem holds_iff {v : Verdict} : v.Holds t o ↔ verdict t o = v := by
  refine ⟨fun h => ?_, fun h => h ▸ holds_verdict t o⟩
  cases h with
  | matched hf hsite hconfirms =>
    simp [verdict, FactTable.get?_eq_some_iff.mpr ⟨hf, hsite⟩, Observed.agrees_iff.mpr hconfirms]
  | mismatched hf hsite hcontradicts =>
    simp [verdict, FactTable.get?_eq_some_iff.mpr ⟨hf, hsite⟩, mt Observed.agrees_iff.mp hcontradicts]
  | missing hnone => simp [verdict, FactTable.get?_eq_none_iff.mpr hnone]

theorem verdict_eq_matched_iff : verdict t o = .matched ↔ (t.get? o.site).any o.agrees = true := by
  rw [verdict]
  cases t.get? o.site with
  | none => simp
  | some f => by_cases hagrees : o.agrees f <;> simp [hagrees]

theorem verdict_eq_missing_iff : verdict t o = .missing ↔ (t.get? o.site).isNone = true := by
  rw [verdict]
  cases t.get? o.site with
  | none => simp
  | some f => by_cases hagrees : o.agrees f <;> simp [hagrees]

theorem contradicted?_eq (t : FactTable) (o : Observed) :
    contradicted? t o = match verdict t o with
      | .mismatched f => some (o, f)
      | _ => none := by
  rw [contradicted?, verdict]
  cases t.get? o.site with
  | none => rfl
  | some f => by_cases hagrees : o.agrees f <;> simp [hagrees]

/-- A verification has the observed values of each verdict in their order, a contradicted one with the fact that
contradicts it. The reading of a fact is congruent to its value, and lies in the range of its width if it has one. -/
theorem ofObserved_partition (t : FactTable) (os : List Observed) :
    (∃ verdict : Observed → Verdict, (∀ o v, Verdict.Holds t o v ↔ verdict o = v) ∧
      (ofObserved t os).matched = os.filter (fun o => verdict o = .matched) ∧
      (ofObserved t os).mismatched = os.filterMap (fun o => match verdict o with
        | .mismatched f => some (o, f)
        | _ => none) ∧
      (ofObserved t os).missing = os.filter (fun o => verdict o = .missing)) ∧
    ∀ f : Fact, f.signed ≡ f.value.toNat [ZMOD 2 ^ min f.bits 64] ∧
      (1 ≤ f.bits → -2 ^ (min f.bits 64 - 1) ≤ f.signed ∧ f.signed < 2 ^ (min f.bits 64 - 1)) ∧
      (f.bits = 0 → f.signed = f.value.toInt) := by
  rw [ofObserved_eq_filter]
  refine ⟨⟨verdict t, fun o v => holds_iff, ?_, ?_, ?_⟩, fun f => ⟨signedReading_modEq _ _, ?_, ?_⟩⟩
  · exact List.filter_congr fun o _ => by rw [Bool.eq_iff_iff, decide_eq_true_iff, verdict_eq_matched_iff]
  · exact List.filterMap_congr fun o _ => contradicted?_eq t o
  · exact List.filter_congr fun o _ => by rw [Bool.eq_iff_iff, decide_eq_true_iff, verdict_eq_missing_iff]
  · exact fun hbits => signedReading_range hbits f.value
  · intro hzero
    rw [Fact.signed, hzero, signedReading_zero]

/-- The reading of a fact without a width is that of the whole word, here five, and five is not below one half. -/
theorem signed_zeroWidth : (⟨⟨0x1000, 0⟩, 5, 0⟩ : Fact).signed = 5 ∧
    ¬ ∀ f : Fact, f.signed ≡ f.value.toNat [ZMOD 2 ^ min f.bits 64] ∧
      -(2 : ℚ) ^ ((min f.bits 64 : ℤ) - 1) ≤ f.signed ∧ (f.signed : ℚ) < 2 ^ ((min f.bits 64 : ℤ) - 1) := by
  have hsigned : (⟨⟨0x1000, 0⟩, 5, 0⟩ : Fact).signed = 5 := by decide
  refine ⟨hsigned, fun hrange => ?_⟩
  have hbelow := (hrange ⟨⟨0x1000, 0⟩, 5, 0⟩).2.2
  rw [hsigned] at hbelow
  norm_num at hbelow

end Verification

end CallFacts
