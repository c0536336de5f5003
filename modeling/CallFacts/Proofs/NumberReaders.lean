import CallFacts.Proofs.OperandText
import Mathlib.Data.List.Forall2
import Mathlib.Data.Nat.Digits.Lemmas

/-!
# The readers of numbers

Register values and immediate operands are written alike: a minus sign or none, the mark of a hexadecimal number or none,
a plus sign or none, and digits. Both readers take hexadecimal magnitudes below `2 ^ 64` and give the pattern of 64 bits.
A decimal magnitude may be any below `2 ^ 64` in a register value and any below `2 ^ 63` in an immediate operand.
-/

namespace CallFacts.Text

variable {base n : Nat} {text rest : List Char} {w : Word} {negative : Bool}

/-! ### Strings of digits -/

/-- The string is not empty, its characters are digits of the base, and with the last one first they are the digits of
the number. -/
def WritesDigits (base : Nat) (text : List Char) (n : Nat) : Prop :=
  ∃ ds, ds ≠ [] ∧ List.Forall₂ (fun c d => digitValue? c = some d ∧ d < base) text ds ∧ Nat.ofDigits base ds.reverse = n

theorem appendDigit?_eq_some_iff {c : Char} {m : Nat} :
    appendDigit? base m c = some n ↔ ∃ d, (digitValue? c = some d ∧ d < base) ∧ m * base + d = n := by
  rw [appendDigit?]
  cases digitValue? c with
  | none => simp
  | some d => simp [and_assoc]

/-- The digits follow those of the number read so far. -/
theorem foldlM_appendDigit?_eq_some_iff {m : Nat} :
    text.foldlM (appendDigit? base) m = some n ↔
      ∃ ds, List.Forall₂ (fun c d => digitValue? c = some d ∧ d < base) text ds ∧
        Nat.ofDigits base (ds.reverse ++ [m]) = n := by
  induction text generalizing m with
  | nil => simp
  | cons c text ih =>
    have hdigits (d : Nat) (ds : List Nat) : Nat.ofDigits base ((d :: ds).reverse ++ [m]) =
        Nat.ofDigits base (ds.reverse ++ [m * base + d]) := by
      rw [List.reverse_cons, List.append_assoc, List.singleton_append]
      simp only [Nat.ofDigits_append, Nat.ofDigits_cons, Nat.ofDigits_nil]
      ring
    simp only [List.foldlM_cons, Option.bind_eq_bind, Option.bind_eq_some_iff, appendDigit?_eq_some_iff,
      List.forall₂_cons_left_iff, ih]
    constructor
    · rintro ⟨_, ⟨d, hd, rfl⟩, ds, hds, hn⟩
      exact ⟨d :: ds, ⟨d, ds, hd, hds, rfl⟩, (hdigits d ds).trans hn⟩
    · rintro ⟨_, ⟨d, ds, hd, hds, rfl⟩, hn⟩
      exact ⟨_, ⟨d, hd, rfl⟩, ds, hds, (hdigits d ds).symm.trans hn⟩

theorem ofDigits?_eq_some_iff : ofDigits? base text = some n ↔ WritesDigits base text n := by
  rw [ofDigits?]
  split
  · next hempty =>
    obtain rfl := List.isEmpty_iff.mp hempty
    simp [WritesDigits]
  · next hne =>
    rw [foldlM_appendDigit?_eq_some_iff]
    have hzero (ds : List Nat) : Nat.ofDigits base (ds.reverse ++ [0]) = Nat.ofDigits base ds.reverse := by
      rw [Nat.ofDigits_append]
      simp
    simp only [hzero, WritesDigits]
    constructor
    · rintro ⟨ds, hds, hn⟩
      refine ⟨ds, ?_, hds, hn⟩
      rintro rfl
      rw [List.forall₂_nil_right_iff.mp hds] at hne
      exact hne rfl
    · rintro ⟨ds, -, hds, hn⟩
      exact ⟨ds, hds, hn⟩

/-- No string of digits starts with a sign. -/
theorem WritesDigits.head_ne {c : Char} (h : WritesDigits base (c :: text) n) : c ≠ '+' ∧ c ≠ '-' := by
  obtain ⟨ds, -, hds, -⟩ := h
  obtain ⟨d, _, ⟨hd, -⟩, -, -⟩ := List.forall₂_cons_left_iff.mp hds
  constructor <;> rintro rfl <;> cases hd

/-! ### Magnitudes -/

/-- Digits after at most one plus sign write a number. -/
inductive WritesNatural (base : Nat) : List Char → Nat → Prop
  | bare {digits : List Char} {n : Nat} (h : WritesDigits base digits n) : WritesNatural base digits n
  | plus {digits : List Char} {n : Nat} (h : WritesDigits base digits n) : WritesNatural base ('+' :: digits) n

theorem natural?_eq_some_iff : natural? base text = some n ↔ WritesNatural base text n := by
  constructor
  · intro h
    rw [natural?.eq_def] at h
    split at h
    · exact .plus (ofDigits?_eq_some_iff.mp h)
    · exact .bare (ofDigits?_eq_some_iff.mp h)
  · intro h
    cases h with
    | bare h =>
      rw [natural?.eq_def]
      split
      · exact absurd rfl h.head_ne.1
      · exact ofDigits?_eq_some_iff.mpr h
    | plus h => exact ofDigits?_eq_some_iff.mpr h

/-- A number without a minus sign: decimal, or hexadecimal behind its mark. -/
inductive Magnitude : List Char → Nat → Nat → Prop
  | decimal {text : List Char} {n : Nat} (h : WritesNatural 10 text n) : Magnitude text 10 n
  | hexadecimal {x : Char} {text : List Char} {n : Nat} (hx : x = 'x' ∨ x = 'X') (h : WritesNatural 16 text n) :
    Magnitude ('0' :: x :: text) 16 n

theorem dropHexMark?_eq_some_iff :
    dropHexMark? text = some rest ↔ ∃ x, (x = 'x' ∨ x = 'X') ∧ text = '0' :: x :: rest := by
  constructor
  · intro h
    rw [dropHexMark?.eq_def] at h
    split at h <;> cases h
    · exact ⟨'x', .inl rfl, rfl⟩
    · exact ⟨'X', .inr rfl, rfl⟩
  · rintro ⟨_, rfl | rfl, rfl⟩ <;> rfl

/-- The mark of a hexadecimal number is no decimal digit. -/
theorem WritesNatural.dropHexMark? (h : WritesNatural 10 text n) : dropHexMark? text = none := by
  cases hmark : Text.dropHexMark? text with
  | none => rfl
  | some hex =>
    obtain ⟨x, hx, rfl⟩ := dropHexMark?_eq_some_iff.mp hmark
    cases h with
    | bare h =>
      obtain ⟨_, -, hds, -⟩ := h
      obtain ⟨_, _, -, hds, -⟩ := List.forall₂_cons_left_iff.mp hds
      obtain ⟨d, _, ⟨hd, hlt⟩, -, -⟩ := List.forall₂_cons_left_iff.mp hds
      rcases hx with rfl | rfl <;> cases hd

/-- The mark decides the base, and the digits decide the number. -/
theorem magnitude_iff : Magnitude text base n ↔
    (∃ hex, dropHexMark? text = some hex ∧ base = 16 ∧ natural? 16 hex = some n) ∨
      (dropHexMark? text = none ∧ base = 10 ∧ natural? 10 text = some n) := by
  constructor
  · intro h
    cases h with
    | decimal h => exact .inr ⟨h.dropHexMark?, rfl, natural?_eq_some_iff.mpr h⟩
    | hexadecimal hx h => exact .inl ⟨_, dropHexMark?_eq_some_iff.mpr ⟨_, hx, rfl⟩, rfl, natural?_eq_some_iff.mpr h⟩
  · rintro (⟨hex, hmark, rfl, h⟩ | ⟨-, rfl, h⟩)
    · obtain ⟨x, hx, rfl⟩ := dropHexMark?_eq_some_iff.mp hmark
      exact .hexadecimal hx (natural?_eq_some_iff.mp h)
    · exact .decimal (natural?_eq_some_iff.mp h)

theorem Magnitude.unique {base' n' : Nat} (h : Magnitude text base n) (h' : Magnitude text base' n') :
    base = base' ∧ n = n' := by
  rcases magnitude_iff.mp h with ⟨hex, hmark, rfl, hn⟩ | ⟨hmark, rfl, hn⟩ <;>
    rcases magnitude_iff.mp h' with ⟨hex', hmark', rfl, hn'⟩ | ⟨hmark', rfl, hn'⟩ <;> simp_all

theorem Magnitude.head?_ne (h : Magnitude text base n) : text.head? ≠ some '-' := by
  cases h with
  | decimal h =>
    cases h with
    | bare h =>
      cases text with
      | nil => simp
      | cons c text => simpa using h.head_ne.2
    | plus h => simp
  | hexadecimal hx h => simp

/-! ### Signs -/

/-- A number in one of the two bases, with a minus sign or without. -/
inductive IsNumeral : List Char → Bool → Nat → Nat → Prop
  | plain {text : List Char} {base n : Nat} (h : Magnitude text base n) : IsNumeral text false base n
  | negated {text : List Char} {base n : Nat} (h : Magnitude text base n) : IsNumeral ('-' :: text) true base n

theorem isNumeral_minus_iff : IsNumeral ('-' :: text) negative base n ↔ negative = true ∧ Magnitude text base n := by
  constructor
  · rintro (h | h)
    · exact absurd rfl h.head?_ne
    · exact ⟨rfl, h⟩
  · rintro ⟨rfl, h⟩
    exact .negated h

theorem isNumeral_plain_iff (hplain : text.head? ≠ some '-') :
    IsNumeral text negative base n ↔ negative = false ∧ Magnitude text base n := by
  constructor
  · rintro (h | h)
    · exact ⟨rfl, h⟩
    · exact absurd rfl hplain
  · rintro ⟨rfl, h⟩
    exact .plain h

theorem IsNumeral.unique {negative' : Bool} {base' n' : Nat} (h : IsNumeral text negative base n)
    (h' : IsNumeral text negative' base' n') : negative = negative' ∧ base = base' ∧ n = n' := by
  cases h with
  | plain h =>
    obtain ⟨rfl, hmagnitude⟩ := (isNumeral_plain_iff h.head?_ne).mp h'
    exact ⟨rfl, h.unique hmagnitude⟩
  | negated h =>
    obtain ⟨rfl, hmagnitude⟩ := isNumeral_minus_iff.mp h'
    exact ⟨rfl, h.unique hmagnitude⟩

/-! ### The two readers -/

/-- The pattern of a number with its sign. -/
def signedPattern (negative : Bool) (n : Nat) : Word := if negative then -BitVec.ofNat 64 n else BitVec.ofNat 64 n

/-- The number with its sign. -/
def signedNumber (negative : Bool) (n : Nat) : Int := if negative then -n else n

/-- Of the numbers with a sign that 64 bits hold, only the least has a magnitude of `2 ^ 63`. -/
theorem signedNumber_fits_iff (hleast : ¬ (negative = true ∧ n = 2 ^ 63)) :
    -2 ^ 63 ≤ signedNumber negative n ∧ signedNumber negative n < 2 ^ 63 ↔ n < 2 ^ 63 := by
  cases negative with
  | false =>
    simp only [signedNumber, Bool.false_eq_true, if_false]
    omega
  | true =>
    have hne : n ≠ 2 ^ 63 := fun heq => hleast ⟨rfl, heq⟩
    simp only [signedNumber, if_true]
    omega

/-- Decimal digits behind two minus signs. -/
def IsDoublySigned (text : List Char) : Prop := ∃ digits n, text = '-' :: '-' :: digits ∧ WritesDigits 10 digits n

/-- The reader takes the text if it is a decimal number below the limit. -/
def ReadsBelow (limit : Nat) (decimal : List Char → Option Word) (text : List Char) : Prop :=
  ∀ w, decimal text = some w ↔ ∃ n, natural? 10 text = some n ∧ n < limit ∧ BitVec.ofNat 64 n = w

theorem unsignedWord?_eq_some_iff :
    unsignedWord? base text = some w ↔ ∃ n, natural? base text = some n ∧ n < 2 ^ 64 ∧ BitVec.ofNat 64 n = w := by
  rw [unsignedWord?]
  cases natural? base text with
  | none => simp
  | some n => simp [Nat.pow_eq]

theorem readsBelow_signedWord? (hminus : ∀ digits n, text = '-' :: digits → ¬ WritesDigits 10 digits n) :
    ReadsBelow (2 ^ 63) signedWord? text := by
  intro w
  rw [signedWord?.eq_def]
  split
  · next digits =>
    -- Neither reader takes what stands behind the minus sign.
    have hdigits : ofDigits? 10 digits = none := by
      rw [Option.eq_none_iff_forall_ne_some]
      exact fun n hn => hminus digits n rfl (ofDigits?_eq_some_iff.mp hn)
    have hnatural (n : Nat) : natural? 10 ('-' :: digits) ≠ some n := by
      intro hn
      cases natural?_eq_some_iff.mp hn with
      | bare h => exact absurd rfl h.head_ne.2
    simp [hdigits, hnatural]
  · cases natural? 10 text with
    | none => simp
    | some n => simp [Nat.pow_eq]

/-- What bounds a number of the base. -/
def limitOf (limit base : Nat) : Nat := if base = 10 then limit else 2 ^ 64

section

variable {limit : Nat} {decimal : List Char → Option Word}

/-- The magnitude behind the sign, by its mark. -/
theorem exists_magnitude_iff (hread : ReadsBelow limit decimal text) :
    (match dropHexMark? text with
      | some hex => unsignedWord? 16 hex
      | none => decimal text) = some w ↔
      ∃ base n, Magnitude text base n ∧ n < limitOf limit base ∧ BitVec.ofNat 64 n = w := by
  simp only [magnitude_iff]
  cases dropHexMark? text with
  | none => simp [hread w, limitOf]
  | some hex => simp [unsignedWord?_eq_some_iff, limitOf]

theorem markedWord?_minus_eq_some_iff (hread : ReadsBelow limit decimal text) :
    markedWord? decimal ('-' :: text) = some w ↔
      ∃ negative base n,
        IsNumeral ('-' :: text) negative base n ∧ n < limitOf limit base ∧ signedPattern negative n = w := by
  rw [markedWord?, Option.map_eq_some_iff]
  simp only [isNumeral_minus_iff]
  constructor
  · rintro ⟨_, hsome, rfl⟩
    obtain ⟨base, n, hmagnitude, hlt, rfl⟩ := (exists_magnitude_iff hread).mp hsome
    exact ⟨true, base, n, ⟨rfl, hmagnitude⟩, hlt, rfl⟩
  · rintro ⟨_, base, n, ⟨rfl, hmagnitude⟩, hlt, rfl⟩
    exact ⟨_, (exists_magnitude_iff hread).mpr ⟨base, n, hmagnitude, hlt, rfl⟩, rfl⟩

theorem markedWord?_plain_eq_some_iff (hplain : text.head? ≠ some '-') (hread : ReadsBelow limit decimal text) :
    markedWord? decimal text = some w ↔
      ∃ negative base n, IsNumeral text negative base n ∧ n < limitOf limit base ∧ signedPattern negative n = w := by
  have hne (rest : List Char) : text ≠ '-' :: rest := by
    rintro rfl
    exact hplain rfl
  rw [markedWord?.eq_2 decimal text hne]
  simp only [isNumeral_plain_iff hplain]
  constructor
  · intro hsome
    obtain ⟨base, n, hmagnitude, hlt, rfl⟩ := (exists_magnitude_iff hread).mp hsome
    exact ⟨false, base, n, ⟨rfl, hmagnitude⟩, hlt, rfl⟩
  · rintro ⟨_, base, n, ⟨rfl, hmagnitude⟩, hlt, rfl⟩
    exact (exists_magnitude_iff hread).mpr ⟨base, n, hmagnitude, hlt, rfl⟩

end

theorem value?_eq_some_iff : value? text = some w ↔
    ∃ negative base n, IsNumeral text negative base n ∧ n < 2 ^ 64 ∧ signedPattern negative n = w := by
  have hread (text : List Char) : ReadsBelow (2 ^ 64) (unsignedWord? 10) text := fun _ => unsignedWord?_eq_some_iff
  have hlimit (base : Nat) : limitOf (2 ^ 64) base = 2 ^ 64 := ite_self _
  by_cases hplain : text.head? = some '-'
  · obtain ⟨rest, rfl⟩ := List.head?_eq_some_iff.mp hplain
    simpa only [value?, hlimit] using markedWord?_minus_eq_some_iff (hread rest)
  · simpa only [value?, hlimit] using markedWord?_plain_eq_some_iff hplain (hread text)

/-- A second minus sign would be read as the sign of the decimal number behind the first. -/
theorem immediate?_eq_some_iff (hsigns : ¬ IsDoublySigned text) : immediate? text = some w ↔
    ∃ negative base n, IsNumeral text negative base n ∧ n < limitOf (2 ^ 63) base ∧ signedPattern negative n = w := by
  by_cases hplain : text.head? = some '-'
  · obtain ⟨rest, rfl⟩ := List.head?_eq_some_iff.mp hplain
    refine markedWord?_minus_eq_some_iff (readsBelow_signedWord? ?_)
    rintro digits n rfl hdigits
    exact hsigns ⟨digits, n, rfl, hdigits⟩
  · refine markedWord?_plain_eq_some_iff hplain (readsBelow_signedWord? ?_)
    rintro digits n rfl
    exact absurd rfl hplain

/-- An immediate operand is a register value that is not written with a decimal magnitude of `2 ^ 63` or more. -/
theorem immediate?_iff_value? (hsigns : ¬ IsDoublySigned text) : immediate? text = some w ↔
    value? text = some w ∧ ∀ negative n, IsNumeral text negative 10 n → n < 2 ^ 63 := by
  rw [immediate?_eq_some_iff hsigns, value?_eq_some_iff]
  constructor
  · rintro ⟨negative, base, n, hnumeral, hlt, rfl⟩
    refine ⟨⟨negative, base, n, hnumeral, ?_, rfl⟩, ?_⟩
    · rw [limitOf] at hlt
      split at hlt <;> omega
    · intro negative' m hdecimal
      obtain ⟨-, rfl, rfl⟩ := hnumeral.unique hdecimal
      exact hlt
  · rintro ⟨⟨negative, base, n, hnumeral, hlt, rfl⟩, hdecimal⟩
    refine ⟨negative, base, n, hnumeral, ?_, rfl⟩
    rw [limitOf]
    split
    · next hbase =>
      subst hbase
      exact hdecimal negative n hnumeral
    · exact hlt

/-- No number has two minus signs. -/
theorem IsNumeral.not_isDoublySigned (h : IsNumeral text negative base n) : ¬ IsDoublySigned text := by
  rintro ⟨digits, n, rfl, -⟩
  obtain ⟨-, hmagnitude⟩ := isNumeral_minus_iff.mp h
  exact hmagnitude.head?_ne rfl

theorem isNumeral_decimal (z : Int) : IsNumeral (decimal z).toList (z < 0) 10 z.natAbs := by
  have hmagnitude : Magnitude (digits 10 z.natAbs) 10 z.natAbs :=
    .decimal (natural?_eq_some_iff.mp (natural?_digits (by omega) (by omega) _))
  rw [toList_decimal]
  split
  · next hneg =>
    rw [decide_eq_true hneg]
    exact .negated hmagnitude
  · next hnonneg =>
    rw [decide_eq_false hnonneg]
    exact .plain hmagnitude

theorem immediate?_decimal {z : Int} (h : z.natAbs < 2 ^ 63) :
    immediate? (decimal z).toList = some (BitVec.ofInt 64 z) := by
  rw [immediate?_iff_value? (isNumeral_decimal z).not_isDoublySigned]
  refine ⟨value?_decimal (by omega), ?_⟩
  intro negative n hnumeral
  obtain ⟨-, -, rfl⟩ := (isNumeral_decimal z).unique hnumeral
  exact h

theorem value?_decimal_toNat (w : Word) : value? (decimal w.toNat).toList = some w := by
  rw [value?_decimal (by omega)]
  simp

/-- A word is read from its decimal text if it is no larger than what the sign leaves room for. -/
theorem immediate?_decimal_toNat (w : Word) :
    immediate? (decimal w.toNat).toList = if w.toNat < 2 ^ 63 then some w else none := by
  have hnumeral := isNumeral_decimal w.toNat
  split
  · next hlt =>
    rw [immediate?_decimal (by omega)]
    simp
  · next hge =>
    rw [Option.eq_none_iff_forall_ne_some]
    intro v hv
    obtain ⟨-, hlt⟩ := (immediate?_iff_value? hnumeral.not_isDoublySigned).mp hv
    exact hge (hlt _ _ hnumeral)

theorem value?_eq_none (h : ∀ negative base n, ¬ IsNumeral text negative base n) : value? text = none := by
  rw [Option.eq_none_iff_forall_ne_some]
  intro v hv
  obtain ⟨negative, base, n, hnumeral, -⟩ := value?_eq_some_iff.mp hv
  exact h negative base n hnumeral

theorem immediate?_eq_none (hsigns : ¬ IsDoublySigned text) (h : ∀ negative base n, ¬ IsNumeral text negative base n) :
    immediate? text = none := by
  rw [Option.eq_none_iff_forall_ne_some]
  intro v hv
  obtain ⟨negative, base, n, hnumeral, -⟩ := (immediate?_eq_some_iff hsigns).mp hv
  exact h negative base n hnumeral

/-- A text without a blank has none around it. -/
theorem trim_of_forall_not_isBlank (h : ∀ c ∈ text, isBlank c = false) : trim text = text := by
  cases text with
  | nil => rfl
  | cons c text =>
    have hword : IsWord (c :: text) := ⟨by simp, h⟩
    exact hword.trimmed.trim_eq

/-- The two readers agree on hexadecimal numbers and on the decimal ones that 64 bits hold with their sign, they read
numbers back from their texts, and they read nothing but numbers. -/
theorem numberReaders_agree :
    (∀ text, (∀ c ∈ text, isBlank c = false) → ¬ IsDoublySigned text → ¬ IsNumeral text true 10 (2 ^ 63) →
      ∀ w, immediate? (trim text) = some w ↔ value? text = some w ∧ ∀ negative n,
        IsNumeral text negative 10 n → -2 ^ 63 ≤ signedNumber negative n ∧ signedNumber negative n < 2 ^ 63) ∧
    (∀ z : Int, -2 ^ 63 ≤ z → z < 2 ^ 63 → value? (decimal z).toList = some (BitVec.ofInt 64 z) ∧
      (z ≠ -2 ^ 63 → immediate? (trim (decimal z).toList) = some (BitVec.ofInt 64 z))) ∧
    (∀ w : Word, value? (decimal w.toNat).toList = some w ∧ value? (hex w).toList = some w ∧
      immediate? (trim (decimal w.toNat).toList) = (if w.toNat < 2 ^ 63 then some w else none) ∧
      immediate? (trim (hex w).toList) = some w) ∧
    (∀ text, (∀ c ∈ text, isBlank c = false) → (∀ negative base n, ¬ IsNumeral text negative base n) →
      value? text = none ∧ (¬ IsDoublySigned text → immediate? (trim text) = none)) := by
  refine ⟨?agree, ?signed, ?words, ?others⟩
  case agree =>
    intro text hblank hsigns hleast w
    have hfits (negative : Bool) (n : Nat) (hnumeral : IsNumeral text negative 10 n) :
        -2 ^ 63 ≤ signedNumber negative n ∧ signedNumber negative n < 2 ^ 63 ↔ n < 2 ^ 63 := by
      refine signedNumber_fits_iff ?_
      rintro ⟨rfl, rfl⟩
      exact hleast hnumeral
    rw [trim_of_forall_not_isBlank hblank, immediate?_iff_value? hsigns]
    refine and_congr_right fun _ => ?_
    exact forall₃_congr fun negative n hnumeral => (hfits negative n hnumeral).symm
  case signed =>
    intro z hlow hhigh
    refine ⟨value?_decimal (by omega), ?_⟩
    intro hne
    rw [(isWord_decimal z).trimmed.trim_eq]
    exact immediate?_decimal (by omega)
  case words =>
    intro w
    rw [(isWord_decimal w.toNat).trimmed.trim_eq, (isWord_hex w).trimmed.trim_eq]
    exact ⟨value?_decimal_toNat w, markedWord?_hex _ w, immediate?_decimal_toNat w, markedWord?_hex _ w⟩
  case others =>
    intro text hblank hnone
    rw [trim_of_forall_not_isBlank hblank]
    exact ⟨value?_eq_none hnone, fun hsigns => immediate?_eq_none hsigns hnone⟩

theorem numberReaders_agree_at :
    immediate? (trim "-0x2a".toList) = some (-42) ∧ immediate? (trim (decimal (-42)).toList) = some (-42) ∧
      value? "0x".toList = none := by
  obtain ⟨hagree, hsigned, -, hothers⟩ := numberReaders_agree
  have hdigits : WritesNatural 16 "2a".toList 42 := natural?_eq_some_iff.mp (by decide)
  have hnumeral : IsNumeral "-0x2a".toList true 16 42 := .negated (.hexadecimal (.inl rfl) hdigits)
  have hbase {negative : Bool} {n : Nat} (h : IsNumeral "-0x2a".toList negative 10 n) : False := by
    obtain ⟨-, hbase, -⟩ := hnumeral.unique h
    cases hbase
  refine ⟨?_, (hsigned (-42) (by decide) (by decide)).2 (by decide), (hothers "0x".toList (show IsWord _ by decide).2 ?_).1⟩
  · refine (hagree "-0x2a".toList (show IsWord _ by decide).2 hnumeral.not_isDoublySigned hbase (-42)).mpr
      ⟨by decide +kernel, ?_⟩
    intro negative n h
    exact (hbase h).elim
  · intro negative base n h
    obtain ⟨-, hmagnitude⟩ := (isNumeral_plain_iff (by decide)).mp h
    rcases magnitude_iff.mp hmagnitude with ⟨hex, hmark, -, hn⟩ | ⟨hmark, -⟩
    · cases hmark
      cases hn
    · cases hmark

/-- Decimal numbers from `2 ^ 63` on are register values and no immediate operands. -/
theorem numberReaders_differ : ¬ ∀ text, (∀ c ∈ text, isBlank c = false) →
    ∀ w, immediate? (trim text) = some w ↔ value? text = some w := by
  intro h
  have hvalue : value? "9223372036854775808".toList = some (BitVec.ofNat 64 (2 ^ 63)) := by decide +kernel
  have himmediate : immediate? (trim "9223372036854775808".toList) = none := by decide +kernel
  have hsome := (h "9223372036854775808".toList (show IsWord _ by decide).2 (BitVec.ofNat 64 (2 ^ 63))).mpr hvalue
  rw [himmediate] at hsome
  cases hsome

end CallFacts.Text
