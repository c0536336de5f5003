import CallFacts.Text.Blank
import CallFacts.Text.CharClass
import CallFacts.Text.Lines
import CallFacts.Text.Numeral
import Mathlib

/-!
# Text that reads back as it was written

Lines that are ended one by one are the lines of their text, words that are joined by blanks are its
words, and a number has the digits that it is read from. What is written here are words: texts without a
blank, which therefore hold no tab, no line feed and no carriage return either.
-/

namespace CallFacts.Text

variable {c : Char} {w text : List Char}

/-! ### Lines -/

theorem dropReturn_eq_self (h : '\r' ∉ text) : dropReturn text = text :=
  if_neg fun hlast => h (List.mem_of_getLast? hlast)

theorem lines_append_cons {line : List Char} (h : '\n' ∉ line) (rest : List Char) :
    lines (line ++ '\n' :: rest) = dropReturn line :: lines rest := by
  rw [lines, List.splitOn_append_cons_self_of_not_mem h, lines]
  cases hpieces : rest.splitOn '\n' with
  | nil => exact absurd hpieces (List.splitOn_ne_nil _ _)
  | cons piece pieces => rfl

/-- Lines that are ended one by one are the lines of the text. -/
theorem lines_flatMap {ls : List (List Char)} (h : ∀ line ∈ ls, '\n' ∉ line ∧ '\r' ∉ line) :
    lines (ls.flatMap (· ++ ['\n'])) = ls := by
  induction ls with
  | nil => rfl
  | cons line ls ih =>
    obtain ⟨hfeed, hreturn⟩ := h line List.mem_cons_self
    rw [List.flatMap_cons, List.append_assoc, List.singleton_append, lines_append_cons hfeed,
      dropReturn_eq_self hreturn, ih fun l hl => h l (List.mem_cons_of_mem _ hl)]

/-! ### Words -/

/-- A text that is not empty and holds no blank. -/
def IsWord (w : List Char) : Prop := w ≠ [] ∧ ∀ c ∈ w, isBlank c = false

instance (w : List Char) : Decidable (IsWord w) :=
  decidable_of_iff (w ≠ [] ∧ w.all (fun c => !isBlank c) = true) (by simp [IsWord])

theorem IsWord.not_mem (h : IsWord w) (hc : isBlank c = true) : c ∉ w := by
  intro hmem
  rw [h.2 c hmem] at hc
  cases hc

theorem IsWord.append (h : IsWord w) (h' : IsWord text) : IsWord (w ++ text) := by
  refine ⟨by simp [h.1], ?_⟩
  intro c hc
  rcases List.mem_append.mp hc with hc | hc
  · exact h.2 c hc
  · exact h'.2 c hc

theorem words_append_cons (hc : isBlank c = true) (x y : List Char) :
    words (x ++ c :: y) = words x ++ words y := by
  rw [words, List.splitOnP_append_cons x y hc, List.filter_append]
  rfl

theorem words_eq_singleton (h : IsWord w) : words w = [w] := by
  rw [words, List.splitOnP_eq_singleton h.2]
  simp [h.1]

/-- Words that are joined by blanks are the words of the text. -/
theorem words_intercalate (hc : isBlank c = true) {ws : List (List Char)} (h : ∀ w ∈ ws, IsWord w) :
    words ([c].intercalate ws) = ws := by
  induction ws with
  | nil => rfl
  | cons w ws ih =>
    have hrest := ih fun v hv => h v (List.mem_cons_of_mem _ hv)
    have hw := words_eq_singleton (h w List.mem_cons_self)
    cases ws with
    | nil => rw [List.intercalate_singleton, hw]
    | cons v ws =>
      rw [List.intercalate_cons_cons, List.append_assoc, List.singleton_append, words_append_cons hc, hw, hrest]
      rfl

theorem mem_intercalate {x : Char} {ws : List (List Char)} (h : x ∈ [c].intercalate ws) :
    x = c ∨ ∃ w ∈ ws, x ∈ w := by
  induction ws with
  | nil => simp at h
  | cons w ws ih =>
    cases ws with
    | nil => exact .inr ⟨w, List.mem_cons_self, by simpa using h⟩
    | cons v ws =>
      rw [List.intercalate_cons_cons, List.append_assoc, List.mem_append, List.mem_append, List.mem_singleton] at h
      rcases h with h | h | h
      · exact .inr ⟨w, List.mem_cons_self, h⟩
      · exact .inl h
      · refine (ih h).imp_right ?_
        rintro ⟨u, hu, hx⟩
        exact ⟨u, List.mem_cons_of_mem _ hu, hx⟩

/-- Joined words hold no blank but the one that joins them. -/
theorem not_mem_intercalate {x : Char} (hx : isBlank x = true) (hne : x ≠ c) {ws : List (List Char)}
    (h : ∀ w ∈ ws, IsWord w) : x ∉ [c].intercalate ws := by
  intro hmem
  rcases mem_intercalate hmem with heq | ⟨w, hw, hmem⟩
  · exact hne heq
  · exact (h w hw).not_mem hx hmem

/-- Words that are joined in a line do not end it. -/
theorem line_of_words (hfeed : '\n' ≠ c) (hreturn : '\r' ≠ c) {ws : List (List Char)} (h : ∀ w ∈ ws, IsWord w) :
    '\n' ∉ [c].intercalate ws ∧ '\r' ∉ [c].intercalate ws :=
  ⟨not_mem_intercalate (by decide) hfeed h, not_mem_intercalate (by decide) hreturn h⟩

/-- What a text starts with, if it is not blank, it starts with when the blanks around it are gone. -/
theorem head?_trim (hc : isBlank c = false) (text : List Char) : (trim (c :: text)).head? = some c := by
  have hstart : trimStart (c :: text) = c :: text := by simp [trimStart, hc]
  rw [trim, hstart, trimEnd, List.head?_reverse, List.reverse_cons, trimStart, List.dropWhile_append]
  split
  · simp [hc]
  · exact List.getLast?_concat

/-! ### Numbers -/

theorem exists_of_mem_digits {base n : Nat} (h : 2 ≤ base) (hc : c ∈ digits base n) : ∃ d < base, digitChar d = c := by
  induction n using Nat.strongRecOn with
  | ind n ih =>
    rw [digits] at hc
    split at hc
    · next hn =>
      rcases List.mem_append.mp hc with hc | hc
      · exact ih _ (Nat.div_lt_self (by omega) (by omega)) hc
      · exact ⟨n % base, Nat.mod_lt n (by omega), (List.mem_singleton.mp hc).symm⟩
    · exact ⟨n, by omega, (List.mem_singleton.mp hc).symm⟩

/-- A digit is no blank and no sign, and it is no mark of a hexadecimal number. -/
theorem digitChar_plain {d : Nat} (h : d < 16) : isBlank (digitChar d) = false ∧ digitChar d ≠ '+' ∧
    digitChar d ≠ '-' ∧ digitChar d ≠ 'x' ∧ digitChar d ≠ 'X' := by
  have hall : ∀ d : Fin 16, isBlank (digitChar d) = false ∧ digitChar d ≠ '+' ∧ digitChar d ≠ '-' ∧
      digitChar d ≠ 'x' ∧ digitChar d ≠ 'X' := by decide
  exact hall ⟨d, h⟩

theorem isDecimalDigit_digitChar {d : Nat} (h : d < 10) : isDecimalDigit (digitChar d) = true := by
  have hall : ∀ d : Fin 10, isDecimalDigit (digitChar d) = true := by decide
  exact hall ⟨d, h⟩

section

variable {base : Nat} (lo : 2 ≤ base) (hi : base ≤ 16)

include lo hi

theorem isWord_digits (n : Nat) : IsWord (digits base n) := by
  refine ⟨digits_ne_nil base n, ?_⟩
  intro c hc
  obtain ⟨d, hd, rfl⟩ := exists_of_mem_digits lo hc
  exact (digitChar_plain (by omega)).1

theorem not_mem_digits (n : Nat) :
    '+' ∉ digits base n ∧ '-' ∉ digits base n ∧ 'x' ∉ digits base n ∧ 'X' ∉ digits base n := by
  have hplain {c : Char} (hc : c ∈ digits base n) : c ≠ '+' ∧ c ≠ '-' ∧ c ≠ 'x' ∧ c ≠ 'X' := by
    obtain ⟨d, hd, rfl⟩ := exists_of_mem_digits lo hc
    exact (digitChar_plain (by omega)).2
  exact ⟨fun h => (hplain h).1 rfl, fun h => (hplain h).2.1 rfl, fun h => (hplain h).2.2.1 rfl,
    fun h => (hplain h).2.2.2 rfl⟩

theorem natural?_digits (n : Nat) : natural? base (digits base n) = some n := by
  have hsign := (not_mem_digits lo hi n).1
  have hread := ofDigits?_digits lo hi n
  cases hdigits : digits base n with
  | nil => exact absurd hdigits (digits_ne_nil base n)
  | cons c text =>
    rw [hdigits] at hsign hread
    rw [natural?]
    · exact hread
    · rintro rest ⟨⟩
      exact hsign List.mem_cons_self

theorem unsignedWord?_digits {n : Nat} (h : n < 2 ^ 64) :
    unsignedWord? base (digits base n) = some (BitVec.ofNat 64 n) := by
  have hfits : n < Nat.pow 2 64 := h
  simp [unsignedWord?, natural?_digits lo hi, hfits]

end

theorem toList_hex (w : Word) : (hex w).toList = '0' :: 'x' :: digits 16 w.toNat := by
  simp [hex]

theorem isWord_hex (w : Word) : IsWord (hex w).toList := by
  rw [toList_hex]
  exact IsWord.append (w := ['0', 'x']) (by decide) (isWord_digits (by omega) (by omega) _)

theorem toList_decimal (n : Int) :
    (decimal n).toList = if n < 0 then '-' :: digits 10 n.natAbs else digits 10 n.natAbs := by
  simp only [decimal]
  split <;> simp

theorem isWord_decimal (n : Int) : IsWord (decimal n).toList := by
  have hdigits : IsWord (digits 10 n.natAbs) := isWord_digits (by omega) (by omega) _
  rw [toList_decimal]
  split
  · exact IsWord.append (w := ['-']) (by decide) hdigits
  · exact hdigits

theorem dropHexMark?_digits (n : Nat) : dropHexMark? (digits 10 n) = none := by
  obtain ⟨-, -, hx, hX⟩ := not_mem_digits (show 2 ≤ 10 by omega) (by omega) n
  cases hmark : dropHexMark? (digits 10 n) with
  | none => rfl
  | some rest =>
    unfold dropHexMark? at hmark
    split at hmark
    · next heq => exact absurd (heq ▸ List.mem_cons_of_mem _ List.mem_cons_self) hx
    · next heq => exact absurd (heq ▸ List.mem_cons_of_mem _ List.mem_cons_self) hX
    · cases hmark

theorem value?_digits {n : Nat} (h : n < 2 ^ 64) : value? (digits 10 n) = some (BitVec.ofNat 64 n) := by
  obtain ⟨-, hsign, -, -⟩ := not_mem_digits (show 2 ≤ 10 by omega) (by omega) n
  rw [value?, markedWord?]
  · simp only [dropHexMark?_digits]
    exact unsignedWord?_digits (by omega) (by omega) h
  · intro rest heq
    exact hsign (heq ▸ List.mem_cons_self)

/-- The decimal text of an integer is read as its pattern. -/
theorem value?_decimal {n : Int} (h : n.natAbs < 2 ^ 64) : value? (decimal n).toList = some (BitVec.ofInt 64 n) := by
  rw [toList_decimal]
  split
  · next hneg =>
    have hvalue : value? ('-' :: digits 10 n.natAbs) = some (-BitVec.ofNat 64 n.natAbs) := by
      rw [value?, markedWord?]
      simp only [dropHexMark?_digits]
      rw [unsignedWord?_digits (by omega) (by omega) h]
      rfl
    rw [hvalue, ← BitVec.ofInt_natCast, ← BitVec.ofInt_neg, Int.ofNat_natAbs_of_nonpos (by omega), Int.neg_neg]
  · next hnonneg =>
    rw [value?_digits h, ← BitVec.ofInt_natCast, Int.natAbs_of_nonneg (by omega)]

end CallFacts.Text
