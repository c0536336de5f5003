import CallFacts.Text.Cut
import CallFacts.Word

/-!
# Numerals

Numbers are written in lower case without leading zeros; a hexadecimal one carries `0x`. Readers
accept either case, leading zeros and one plus sign before the digits of a number that is read
without a sign of its own. Main statement: a digit string reads back as the number it was written
for.
-/

namespace CallFacts.Text

/-- The digit of a value below sixteen. -/
def digitChar (d : Nat) : Char := Char.ofNat (if d < 10 then 48 + d else 87 + d)

/-- The value of a digit up to `f`, in either case. -/
def digitValue? (c : Char) : Option Nat :=
  let n := c.toNat
  if 48 ≤ n ∧ n ≤ 57 then some (n - 48)
  else if 97 ≤ n ∧ n ≤ 102 then some (n - 87)
  else if 65 ≤ n ∧ n ≤ 70 then some (n - 55)
  else none

/-- The digits of a number in a base of two or more. -/
def digits (base n : Nat) : List Char :=
  if _h : 2 ≤ base ∧ base ≤ n then digits base (n / base) ++ [digitChar (n % base)]
  else [digitChar n]
termination_by n
decreasing_by exact Nat.div_lt_self (by omega) (by omega)

/-- One more digit on the right of a number read so far. -/
def appendDigit? (base : Nat) (value : Nat) (c : Char) : Option Nat :=
  match digitValue? c with
  | some d => if d < base then some (value * base + d) else none
  | none => none

/-- The number that a non-empty string of digits writes. -/
def ofDigits? (base : Nat) (text : List Char) : Option Nat :=
  if text.isEmpty then none else text.foldlM (appendDigit? base) 0

/-- A string of digits after at most one plus sign. -/
def natural? (base : Nat) : List Char → Option Nat
  | '+' :: text => ofDigits? base text
  | text => ofDigits? base text

/-- A natural number that fits a word. -/
def unsignedWord? (base : Nat) (text : List Char) : Option Word :=
  match natural? base text with
  | some n => if n < Nat.pow 2 64 then some (BitVec.ofNat 64 n) else none
  | none => none

/-- A decimal number after at most one sign, from `-2 ^ 63` up to `2 ^ 63 - 1`. -/
def signedWord? : List Char → Option Word
  | '-' :: text =>
    match ofDigits? 10 text with
    | some n => if n ≤ Nat.pow 2 63 then some (-BitVec.ofNat 64 n) else none
    | none => none
  | text =>
    match natural? 10 text with
    | some n => if n < Nat.pow 2 63 then some (BitVec.ofNat 64 n) else none
    | none => none

/-- What follows the mark of a hexadecimal number. -/
def dropHexMark? : List Char → Option (List Char)
  | '0' :: 'x' :: text => some text
  | '0' :: 'X' :: text => some text
  | _ => none

/-- A magnitude after an optional minus sign: hexadecimal with its mark, any 64-bit pattern, or
whatever `decimal` reads. A minus sign negates modulo `2 ^ 64`. -/
def markedWord? (decimal : List Char → Option Word) (text : List Char) : Option Word :=
  let magnitude? (text : List Char) : Option Word :=
    match dropHexMark? text with
    | some hex => unsignedWord? 16 hex
    | none => decimal text
  match text with
  | '-' :: rest => (magnitude? rest).map (- ·)
  | _ => magnitude? text

/-- A register value: hexadecimal with its mark or decimal below `2 ^ 64`, perhaps negated. -/
def value? (text : List Char) : Option Word := markedWord? (unsignedWord? 10) text

/-- An immediate operand: hexadecimal with its mark or signed decimal, perhaps negated. -/
def immediate? (text : List Char) : Option Word := markedWord? signedWord? text

/-- A number below 256 in decimal digits after at most one plus sign. -/
def byte? (text : List Char) : Option Nat :=
  match natural? 10 text with
  | some n => if n < 256 then some n else none
  | none => none

/-- The hexadecimal text of a word, as in `0x1f`. -/
def hex (w : Word) : String := "0x" ++ String.ofList (digits 16 w.toNat)

/-- The decimal text of an integer. -/
def decimal (n : Int) : String :=
  if n < 0 then "-" ++ String.ofList (digits 10 n.natAbs) else String.ofList (digits 10 n.natAbs)

/-! ### Reading back what was written -/

theorem digitValue?_digitChar {d : Nat} (h : d < 16) : digitValue? (digitChar d) = some d := by
  have : ∀ d : Fin 16, digitValue? (digitChar d) = some d.val := by decide
  exact this ⟨d, h⟩

theorem appendDigit?_digitChar {base d : Nat} (value : Nat) (hd : d < base) (hb : base ≤ 16) :
    appendDigit? base value (digitChar d) = some (value * base + d) := by
  simp [appendDigit?, digitValue?_digitChar (Nat.lt_of_lt_of_le hd hb), hd]

theorem digits_ne_nil (base n : Nat) : digits base n ≠ [] := by
  rw [digits]; split <;> simp

theorem foldlM_digits {base : Nat} (lo : 2 ≤ base) (hi : base ≤ 16) (n : Nat) :
    (digits base n).foldlM (appendDigit? base) 0 = some n := by
  induction n using Nat.strongRecOn with
  | ind n ih =>
    rw [digits]
    split
    · next h =>
      rw [List.foldlM_append, ih _ (Nat.div_lt_self (by omega) (by omega))]
      simp [appendDigit?_digitChar _ (Nat.mod_lt n (by omega)) hi, Nat.div_add_mod']
    · next h =>
      simp [appendDigit?_digitChar 0 (show n < base by omega) hi]

theorem ofDigits?_digits {base : Nat} (lo : 2 ≤ base) (hi : base ≤ 16) (n : Nat) :
    ofDigits? base (digits base n) = some n := by
  simp [ofDigits?, digits_ne_nil, foldlM_digits lo hi]

end CallFacts.Text
