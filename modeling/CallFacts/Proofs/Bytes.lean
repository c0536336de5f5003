import CallFacts.Text.Cut

/-!
# Places in a text, counted in bytes

A text can be cut at a number of bytes exactly if some of its characters fill that number. The two parts of
the cut are then the only ones that do.
-/

namespace CallFacts.Text

variable {n : Nat} {c : Char} {text head tail : List Char}

theorem foldl_utf8Size (text : List Char) (n : Nat) :
    text.foldl (fun size c => size + c.utf8Size) n = n + byteSize text := by
  induction text generalizing n with
  | nil => rfl
  | cons c text ih =>
    rw [byteSize, List.foldl_cons, List.foldl_cons, ih, ih (0 + c.utf8Size)]
    omega

@[simp] theorem byteSize_nil : byteSize [] = 0 := rfl

@[simp] theorem byteSize_cons (c : Char) (text : List Char) : byteSize (c :: text) = c.utf8Size + byteSize text := by
  rw [byteSize, List.foldl_cons, foldl_utf8Size]
  omega

@[simp] theorem byteSize_append (head tail : List Char) : byteSize (head ++ tail) = byteSize head + byteSize tail := by
  induction head with
  | nil => simp
  | cons c head ih =>
    simp only [List.cons_append, byteSize_cons, ih]
    omega

@[simp] theorem byteSize_reverse (text : List Char) : byteSize text.reverse = byteSize text := by
  induction text with
  | nil => rfl
  | cons c text ih =>
    simp only [List.reverse_cons, byteSize_append, ih, byteSize_cons, byteSize_nil]
    omega

theorem eq_nil_of_byteSize_eq_zero (h : byteSize text = 0) : text = [] := by
  cases text with
  | nil => rfl
  | cons c text =>
    have := c.utf8Size_pos
    rw [byteSize_cons] at h
    omega

/-- The text is cut where the characters before the cut fill the given bytes. -/
theorem takeBytes?_eq_some_iff : takeBytes? n text = some (head, tail) ↔ text = head ++ tail ∧ byteSize head = n := by
  induction text generalizing n head tail with
  | nil => cases n <;> simp +contextual [takeBytes?, eq_comm]
  | cons c text ih =>
    cases n with
    | zero =>
      simp only [takeBytes?, Option.some.injEq, Prod.mk.injEq]
      constructor
      · rintro ⟨rfl, rfl⟩
        exact ⟨rfl, rfl⟩
      · rintro ⟨htext, hsize⟩
        obtain rfl := eq_nil_of_byteSize_eq_zero hsize
        exact ⟨rfl, htext⟩
    | succ n =>
      rw [takeBytes?]
      split
      · next hfits =>
        simp only [Option.map_eq_some_iff, Prod.exists, Prod.mk.injEq, ih]
        constructor
        · rintro ⟨taken, rest, ⟨rfl, hsize⟩, rfl, rfl⟩
          refine ⟨rfl, ?_⟩
          rw [byteSize_cons]
          omega
        · rintro ⟨htext, hsize⟩
          cases head with
          | nil => simp at hsize
          | cons first taken =>
            simp only [List.cons_append, List.cons.injEq] at htext
            obtain ⟨rfl, rfl⟩ := htext
            rw [byteSize_cons] at hsize
            exact ⟨taken, tail, ⟨rfl, by omega⟩, rfl, rfl⟩
      · next hlarge =>
        simp only [reduceCtorEq, false_iff, not_and]
        intro htext hsize
        cases head with
        | nil => simp at hsize
        | cons first taken =>
          simp only [List.cons_append, List.cons.injEq] at htext
          obtain ⟨rfl, rfl⟩ := htext
          rw [byteSize_cons] at hsize
          omega

theorem cutBytesFromEnd?_eq_some_iff :
    cutBytesFromEnd? n text = some (head, tail) ↔ text = head ++ tail ∧ byteSize tail = n := by
  simp only [cutBytesFromEnd?, Option.map_eq_some_iff, Prod.exists, Prod.mk.injEq, takeBytes?_eq_some_iff]
  constructor
  · rintro ⟨back, front, ⟨htext, hsize⟩, rfl, rfl⟩
    refine ⟨?_, by rwa [byteSize_reverse]⟩
    rw [← List.reverse_append, ← htext, List.reverse_reverse]
  · rintro ⟨rfl, hsize⟩
    exact ⟨tail.reverse, head.reverse, ⟨List.reverse_append, by rwa [byteSize_reverse]⟩, by simp, by simp⟩

/-- A text cannot be cut exactly if no characters at its end fill the given bytes. -/
theorem cutBytesFromEnd?_eq_none_iff :
    cutBytesFromEnd? n text = none ↔ ∀ head tail, text = head ++ tail → byteSize tail ≠ n := by
  rw [Option.eq_none_iff_forall_ne_some, Prod.forall]
  simp only [ne_eq, cutBytesFromEnd?_eq_some_iff, not_and]

end CallFacts.Text
