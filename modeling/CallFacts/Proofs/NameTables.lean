import CallFacts.Arch

/-!
# The names of registers as tables

The reader of names goes through words first and through letters with numbers afterwards. What it accepts is told by two
tables, since no word is a letter and a number and the letters differ.
-/

namespace CallFacts

namespace Arch

variable {arch : Arch} {name : List Char} {view : RegisterView}

/-- The registers that a word of its own names. -/
def words : Arch → List (String × RegisterView)
  | arm32 =>
    [("sp", ⟨13, 32⟩), ("lr", ⟨14, 32⟩), ("pc", ⟨15, 32⟩), ("ip", ⟨12, 32⟩), ("fp", ⟨11, 32⟩), ("sb", ⟨9, 32⟩)]
  | arm64 => [("sp", ⟨31, 64⟩), ("wsp", ⟨31, 32⟩), ("fp", ⟨29, 64⟩), ("lr", ⟨30, 64⟩)]

/-- Registers that a letter and a number name: the numbers are below a limit, and the letter stands for a width. -/
structure Series where
  letter : Char
  limit : Nat
  bits : Nat

def series : Arch → List Series
  | arm32 => [⟨'r', 16, 32⟩]
  | arm64 => [⟨'x', 31, 64⟩, ⟨'w', 31, 32⟩]

theorem lowerRegister?_of_mem_words {word : String} (h : (word, view) ∈ arch.words) :
    arch.lowerRegister? word.toList = some view := by
  have hall (arch : Arch) : ∀ entry ∈ arch.words, arch.lowerRegister? entry.1.toList = some entry.2 := by
    cases arch <;> decide
  exact hall arch _ h

/-- No word is a letter and a number. -/
theorem numbered?_of_mem_words {word : String} (h : word ∈ arch.words.map Prod.fst) {s : Series}
    (hs : s ∈ arch.series) : numbered? s.letter s.limit word.toList = none := by
  have hall (arch : Arch) :
      ∀ word ∈ arch.words.map Prod.fst, ∀ s ∈ arch.series, numbered? s.letter s.limit word.toList = none := by
    cases arch <;> decide
  exact hall arch word h s hs

/-- A numbered name starts with one letter only. -/
theorem numbered?_eq_none_of_ne {letter letter' : Char} (hne : letter ≠ letter') {limit limit' : Nat} {r : Register}
    (h : numbered? letter limit name = some r) : numbered? letter' limit' name = none := by
  cases name with
  | nil => rfl
  | cons c number =>
    rw [numbered?] at h ⊢
    split at h
    · next hc => exact if_neg fun hc' => hne (hc.1.symm.trans hc'.1)
    · cases h

theorem lowerRegister?_of_numbered {s : Series} (hs : s ∈ arch.series) {r : Register}
    (hr : numbered? s.letter s.limit name = some r) : arch.lowerRegister? name = some ⟨r, s.bits⟩ := by
  have hne {word : String} (hmem : word ∈ arch.words.map Prod.fst) : String.ofList name ≠ word := by
    rintro rfl
    have hnone := numbered?_of_mem_words hmem hs
    rw [String.toList_ofList, hr] at hnone
    cases hnone
  cases arch with
  | arm32 =>
    obtain rfl := List.mem_singleton.mp hs
    simp only [lowerRegister?]
    split
    case h_7 => rw [hr]; rfl
    all_goals next hname => exact absurd hname (hne (by decide))
  | arm64 =>
    simp only [lowerRegister?]
    split
    case h_5 =>
      rcases List.mem_cons.mp hs with rfl | hs
      · rw [hr]
      · obtain rfl := List.mem_singleton.mp hs
        have hx : numbered? 'x' 31 name = none := numbered?_eq_none_of_ne (by decide) hr
        rw [hx, hr]
        rfl
    all_goals next hname => exact absurd hname (hne (by decide))

/-- The names of a view are its words and the numbered names of its series. -/
theorem lowerRegister?_eq_some_iff : arch.lowerRegister? name = some view ↔
    (∃ word, (word, view) ∈ arch.words ∧ name = word.toList) ∨
      ∃ s ∈ arch.series, ∃ r, numbered? s.letter s.limit name = some r ∧ view = ⟨r, s.bits⟩ := by
  constructor
  · intro h
    have hword {word : String} (hname : String.ofList name = word) (hmem : (word, view) ∈ arch.words) :
        ∃ word, (word, view) ∈ arch.words ∧ name = word.toList :=
      ⟨word, hmem, by rw [← hname, String.toList_ofList]⟩
    cases arch with
    | arm32 =>
      obtain ⟨r, hr, rfl⟩ := Option.map_eq_some_iff.mp h
      split at hr
      case h_7 => exact .inr ⟨_, List.mem_cons_self, r, hr, rfl⟩
      all_goals next hname => cases hr; exact .inl (hword hname (by decide))
    | arm64 =>
      simp only [lowerRegister?] at h
      split at h
      case h_5 =>
        split at h
        · next r hr =>
          cases h
          exact .inr ⟨⟨'x', 31, 64⟩, by simp [series], r, hr, rfl⟩
        · obtain ⟨r, hr, rfl⟩ := Option.map_eq_some_iff.mp h
          exact .inr ⟨⟨'w', 31, 32⟩, by simp [series], r, hr, rfl⟩
      all_goals next hname => cases h; exact .inl (hword hname (by decide))
  · rintro (⟨word, hmem, rfl⟩ | ⟨s, hs, r, hr, rfl⟩)
    · exact lowerRegister?_of_mem_words hmem
    · exact lowerRegister?_of_numbered hs hr

end Arch

end CallFacts
