/-!
# Cutting a text

Cuts around the first or last occurrence of a character, before a tail of a given text, and a given
number of UTF-8 bytes before the end.
-/

namespace CallFacts.Text

/-- What stands before and after the first occurrence of a character. -/
def cutFirst (c : Char) : List Char → Option (List Char × List Char)
  | [] => none
  | x :: rest =>
    if x = c then some ([], rest) else (cutFirst c rest).map fun (before, after) => (x :: before, after)

/-- What stands before and after the last occurrence of a character. -/
def cutLast (c : Char) (text : List Char) : Option (List Char × List Char) :=
  (cutFirst c text.reverse).map fun (after, before) => (before.reverse, after.reverse)

/-- What follows a given beginning. -/
def dropStart? : List Char → List Char → Option (List Char)
  | [], text => some text
  | _ :: _, [] => none
  | c :: start, x :: text => if c = x then dropStart? start text else none

/-- What precedes a given end. -/
def dropEnd? (tail text : List Char) : Option (List Char) :=
  (dropStart? tail.reverse text.reverse).map List.reverse

/-- Takes characters off the front of a reversed text until they fill exactly `bytes` bytes. -/
def takeBytes? : Nat → List Char → Option (List Char × List Char)
  | 0, text => some ([], text)
  | _ + 1, [] => none
  | bytes + 1, c :: text =>
    if c.utf8Size ≤ bytes + 1 then
      (takeBytes? (bytes + 1 - c.utf8Size) text).map fun (taken, rest) => (c :: taken, rest)
    else none
termination_by _ text => text.length

/-- The text cut so that the second part holds its last `bytes` UTF-8 bytes, unless the cut would
fall inside a character or the text is too short. -/
def cutBytesFromEnd? (bytes : Nat) (text : List Char) : Option (List Char × List Char) :=
  (takeBytes? bytes text.reverse).map fun (tail, head) => (head.reverse, tail.reverse)

/-- The number of UTF-8 bytes of a text. -/
def byteSize (text : List Char) : Nat := text.foldl (fun size c => size + c.utf8Size) 0

/-- ASCII letters in lower case, all other characters as they are. -/
def lower (text : List Char) : List Char := text.map Char.toLower

theorem cutFirst_append_cons {c : Char} {before : List Char} (h : c ∉ before) (after : List Char) :
    cutFirst c (before ++ c :: after) = some (before, after) := by
  induction before with
  | nil => simp [cutFirst]
  | cons x before ih =>
    simp only [List.mem_cons, not_or] at h
    simp [cutFirst, Ne.symm h.1, ih h.2]

theorem cutLast_append_cons {c : Char} {after : List Char} (before : List Char) (h : c ∉ after) :
    cutLast c (before ++ c :: after) = some (before, after) := by
  have hreverse : (before ++ c :: after).reverse = after.reverse ++ c :: before.reverse := by simp
  rw [cutLast, hreverse, cutFirst_append_cons (by simpa using h)]
  simp

theorem cutFirst_eq_none_iff {c : Char} {text : List Char} : cutFirst c text = none ↔ c ∉ text := by
  induction text with
  | nil => simp [cutFirst]
  | cons x rest ih =>
    by_cases hx : x = c
    · simp [cutFirst, hx]
    · simp [cutFirst, hx, ih, Ne.symm hx]

theorem cutLast_eq_none_iff {c : Char} {text : List Char} : cutLast c text = none ↔ c ∉ text := by
  rw [cutLast, Option.map_eq_none_iff, cutFirst_eq_none_iff, List.mem_reverse]

theorem dropStart?_append (start text : List Char) : dropStart? start (start ++ text) = some text := by
  induction start with
  | nil => simp [dropStart?]
  | cons c start ih => simp [dropStart?, ih]

theorem eq_append_of_dropStart? {start text rest : List Char} (h : dropStart? start text = some rest) :
    text = start ++ rest := by
  induction start generalizing text with
  | nil => simpa [dropStart?] using h
  | cons c start ih =>
    cases text with
    | nil => simp [dropStart?] at h
    | cons x text =>
      simp only [dropStart?] at h
      split at h
      · next hc => simp [hc, ih h]
      · simp at h

theorem eq_append_of_dropEnd? {tail text rest : List Char} (h : dropEnd? tail text = some rest) :
    text = rest ++ tail := by
  obtain ⟨start, hstart, rfl⟩ := Option.map_eq_some_iff.mp h
  rw [← List.reverse_reverse text, eq_append_of_dropStart? hstart]
  simp

theorem dropEnd?_append (text tail : List Char) : dropEnd? tail (text ++ tail) = some text := by
  simp [dropEnd?, dropStart?_append]

end CallFacts.Text
