import CallFacts.Proofs.OperandText

/-!
# The characters of names and numerals

A text that names a register, in whatever case, has only letters, digits and a plus sign; one that writes a number may
also have a minus sign. So neither has a blank, a bracket or any other mark that the lines of a listing are cut at. A
text that names a register is read as that register.
-/

namespace CallFacts

namespace Text

variable {c : Char} {text : List Char} {base n : Nat}

/-! ### Letters in either case -/

def capitals : List Char :=
  ['A', 'B', 'C', 'D', 'E', 'F', 'G', 'H', 'I', 'J', 'K', 'L', 'M', 'N', 'O', 'P', 'Q', 'R', 'S', 'T',
    'U', 'V', 'W', 'X', 'Y', 'Z']

/-- The letters in either case, the digits and the plus sign. -/
def wordChars : List Char := '+' :: nameChars ++ capitals

/-- What is checked of every character below a bound holds of each of them. -/
theorem forall_of_toNat_lt {P : Char → Prop} {bound : Nat} (h : ∀ n < bound, P (Char.ofNat n))
    (hc : c.toNat < bound) : P c := by
  have hp := h c.toNat hc
  rwa [Char.ofNat_toNat] at hp

/-- Only a capital is changed. -/
theorem toLower_eq_self_or (c : Char) : c.toLower = c ∨ c ∈ capitals := by
  rw [Char.toLower]
  split
  · next hcapital =>
    obtain ⟨hlow, hhigh⟩ := hcapital
    have hlow' : 65 ≤ c.toNat := hlow
    have hhigh' : c.toNat < 91 := Nat.lt_succ_of_le hhigh
    have hall : ∀ n < 91, 65 ≤ (Char.ofNat n).toNat → Char.ofNat n ∈ capitals := by decide
    exact .inr (forall_of_toNat_lt (P := fun c => 65 ≤ c.toNat → c ∈ capitals) hall hhigh' hlow')
  · exact .inl rfl

theorem lower_lower (text : List Char) : lower (lower text) = lower text := by
  simp [lower]

theorem mem_wordChars_of_toLower (h : c.toLower ∈ wordChars) : c ∈ wordChars := by
  rcases toLower_eq_self_or c with hsame | hcapital
  · rwa [hsame] at h
  · exact List.mem_append_right _ hcapital

/-! ### Numerals -/

theorem mem_wordChars_of_digitValue? (h : (digitValue? c).isSome) : c ∈ wordChars := by
  have hsmall : c.toNat < 128 := by
    by_contra hlarge
    simp only [digitValue?] at h
    rw [if_neg (by omega), if_neg (by omega), if_neg (by omega)] at h
    cases h
  have hall : ∀ n < 128, (digitValue? (Char.ofNat n)).isSome → Char.ofNat n ∈ wordChars := by decide
  exact forall_of_toNat_lt (P := fun c => (digitValue? c).isSome → c ∈ wordChars) hall hsmall h

theorem mem_wordChars_of_foldlM {m : Nat} (h : text.foldlM (appendDigit? base) n = some m) :
    ∀ c ∈ text, c ∈ wordChars := by
  induction text generalizing n with
  | nil => simp
  | cons d text ih =>
    rw [List.foldlM_cons] at h
    obtain ⟨k, hk, h⟩ := Option.bind_eq_some_iff.mp h
    rw [List.forall_mem_cons]
    refine ⟨?_, ih h⟩
    simp only [appendDigit?] at hk
    split at hk
    · next hd =>
      refine mem_wordChars_of_digitValue? ?_
      rw [hd]
      rfl
    · cases hk

/-- A text is made of some characters and is not empty. -/
def IsMadeOf (chars text : List Char) : Prop := text ≠ [] ∧ ∀ c ∈ text, c ∈ chars

instance (chars text : List Char) : Decidable (IsMadeOf chars text) :=
  decidable_of_iff (text ≠ [] ∧ text.all chars.contains = true) (by simp [IsMadeOf])

theorem IsMadeOf.cons {chars : List Char} (hc : c ∈ chars) (h : IsMadeOf chars text) : IsMadeOf chars (c :: text) :=
  ⟨by simp, List.forall_mem_cons.mpr ⟨hc, h.2⟩⟩

theorem IsMadeOf.mono {chars chars' : List Char} (h : IsMadeOf chars text) (hchars : chars ⊆ chars') :
    IsMadeOf chars' text := ⟨h.1, fun c hc => hchars (h.2 c hc)⟩

theorem isMadeOf_of_ofDigits? (h : ofDigits? base text = some n) : IsMadeOf wordChars text := by
  rw [ofDigits?] at h
  split at h
  · cases h
  · next hempty => exact ⟨by simpa using hempty, mem_wordChars_of_foldlM h⟩

theorem isMadeOf_of_natural? (h : natural? base text = some n) : IsMadeOf wordChars text := by
  rw [natural?.eq_def] at h
  split at h
  · exact (isMadeOf_of_ofDigits? h).cons (by decide)
  · exact isMadeOf_of_ofDigits? h

theorem isMadeOf_of_byte? (h : byte? text = some n) : IsMadeOf wordChars text := by
  rw [byte?] at h
  split at h
  · next m hm => exact isMadeOf_of_natural? hm
  · cases h

theorem isMadeOf_of_unsignedWord? {value : Word} (h : unsignedWord? base text = some value) :
    IsMadeOf wordChars text := by
  rw [unsignedWord?] at h
  split at h
  · next m hm => exact isMadeOf_of_natural? hm
  · cases h

/-- The mark of a hexadecimal number is made of a digit and a letter. -/
theorem isMadeOf_of_dropHexMark? {hex : List Char} (hmark : dropHexMark? text = some hex)
    (h : IsMadeOf wordChars hex) : IsMadeOf wordChars text := by
  rw [dropHexMark?.eq_def] at hmark
  split at hmark <;> cases hmark
  · exact (h.cons (by decide)).cons (by decide)
  · exact (h.cons (by decide)).cons (by decide)

/-- What a value is written with: a minus sign may stand ahead. -/
theorem isMadeOf_of_value? {value : Word} (h : value? text = some value) : IsMadeOf ('-' :: wordChars) text := by
  have hsub : wordChars ⊆ '-' :: wordChars := List.subset_cons_self _ _
  rw [value?, markedWord?.eq_def] at h
  split at h
  · obtain ⟨magnitude, hsome, -⟩ := Option.map_eq_some_iff.mp h
    refine IsMadeOf.cons List.mem_cons_self ?_
    dsimp only at hsome
    split at hsome
    · next hmark => exact (isMadeOf_of_dropHexMark? hmark (isMadeOf_of_unsignedWord? hsome)).mono hsub
    · exact (isMadeOf_of_unsignedWord? hsome).mono hsub
  · dsimp only at h
    split at h
    · next hmark => exact (isMadeOf_of_dropHexMark? hmark (isMadeOf_of_unsignedWord? h)).mono hsub
    · exact (isMadeOf_of_unsignedWord? h).mono hsub

/-! ### Texts without marks -/

/-- The characters of names and values mean nothing else. -/
theorem plain_of_mem (h : c ∈ '-' :: wordChars) :
    isBlank c = false ∧ Operand.isPlain c = true ∧ c ∉ ['<', '=', '!', '#', ';', '@'] := by
  have hall : ('-' :: wordChars).all (fun c =>
      !isBlank c && (Operand.isPlain c && decide (c ∉ ['<', '=', '!', '#', ';', '@']))) = true := by decide
  have hc := List.all_eq_true.mp hall c h
  simpa only [Bool.and_eq_true, Bool.not_eq_true', decide_eq_true_eq] using hc

theorem not_mark_of_mem (h : c ∈ '-' :: wordChars) : c ∉ ['[', '{', '#'] := by
  have hall : ('-' :: wordChars).all (fun c => c ∉ ['[', '{', '#']) = true := by decide
  simpa using List.all_eq_true.mp hall c h

section

variable (h : IsMadeOf ('-' :: wordChars) text)

include h

theorem IsMadeOf.isWord : IsWord text := ⟨h.1, fun c hc => (plain_of_mem (h.2 c hc)).1⟩

theorem IsMadeOf.all_isPlain : text.all Operand.isPlain = true :=
  List.all_eq_true.mpr fun c hc => (plain_of_mem (h.2 c hc)).2.1

theorem IsMadeOf.isPiece : Operand.IsPiece text := Operand.isPiece_of_plain h.all_isPlain

theorem IsMadeOf.not_mem_comma : ',' ∉ text := by
  intro hmem
  have hplain : Operand.isPlain ',' = true := (plain_of_mem (h.2 _ hmem)).2.1
  cases hplain

theorem IsMadeOf.not_mem (hc : c ∈ ['<', '=', '!', '#', ';', '@']) : c ∉ text :=
  fun hmem => (plain_of_mem (h.2 c hmem)).2.2 hc

end

end Text

/-! ### Names of registers -/

namespace Arch

variable {arch : Arch} {name : List Char} {view : RegisterView}

theorem isMadeOf_of_numbered? {letter : Char} {limit : Nat} {r : Register} (hletter : letter ∈ Text.wordChars)
    (h : numbered? letter limit name = some r) : Text.IsMadeOf Text.wordChars name := by
  cases name with
  | nil => cases h
  | cons c number =>
    rw [numbered?] at h
    split at h
    · next hc =>
      split at h
      · next n hn => exact (Text.isMadeOf_of_byte? hn).cons (hc.1 ▸ hletter)
      · cases h
    · cases h

theorem isMadeOf_of_lowerRegister? (h : arch.lowerRegister? name = some view) : Text.IsMadeOf Text.wordChars name := by
  rcases lowerRegister?_eq_some_iff.mp h with ⟨word, hword, rfl⟩ | ⟨s, hs, r, hr, -⟩
  · have hall (arch : Arch) : ∀ entry ∈ arch.words, Text.IsMadeOf Text.wordChars entry.1.toList := by
      cases arch <;> decide
    exact hall arch _ hword
  · have hall (arch : Arch) : ∀ s ∈ arch.series, s.letter ∈ Text.wordChars := by
      cases arch <;> decide
    exact isMadeOf_of_numbered? (hall arch s hs) hr

theorem isMadeOf_of_register? (h : arch.register? name = some view) : Text.IsMadeOf Text.wordChars name := by
  obtain ⟨hne, hchars⟩ := isMadeOf_of_lowerRegister? h
  refine ⟨fun hnil => hne (by rw [hnil]; rfl), fun c hc => ?_⟩
  exact Text.mem_wordChars_of_toLower (hchars _ (List.mem_map_of_mem hc))

theorem isMadeOf_name (h : arch.register? name = some view) : Text.IsMadeOf ('-' :: Text.wordChars) name :=
  (isMadeOf_of_register? h).mono (List.subset_cons_self _ _)

/-- No register has a hyphen in its name. -/
theorem hyphen_not_mem_of_register? (h : arch.register? name = some view) : '-' ∉ name := by
  intro hmem
  have hall : '-' ∉ Text.wordChars := by decide
  exact hall ((isMadeOf_of_register? h).2 '-' hmem)

theorem register?_lower (arch : Arch) (name : List Char) : arch.register? (Text.lower name) = arch.register? name := by
  rw [register?, Text.lower_lower, register?]

end Arch

/-! ### Names as operands -/

namespace Operand

variable {arch : Arch} {name : List Char} {view : RegisterView}

/-- The name of a register, in either case, is no shift, and it has no mark behind it. -/
theorem readWord?_name (h : arch.register? name = some view) :
    readWord? arch (Text.lower name) = some (.register view) := by
  have hlower : arch.register? (Text.lower name) = some view := (arch.register?_lower name).trans h
  have hmade := Arch.isMadeOf_name hlower
  have hshift : ShiftKind.ofName? (String.ofList (Text.lower name)) = none := by
    cases hkind : ShiftKind.ofName? (String.ofList (Text.lower name)) with
    | none => rfl
    | some kind =>
      have hall (arch : Arch) : ∀ shift ∈ shiftNames, arch.register? shift.toList = none := by
        cases arch <;> decide
      have hnone := hall arch _ (mem_shiftNames hkind)
      rw [String.toList_ofList, hlower] at hnone
      cases hnone
  have hplain : Text.dropEnd? ['!'] (Text.lower name) = none :=
    Text.dropEnd?_eq_none List.mem_cons_self (hmade.not_mem (by decide))
  -- The reader tries a shift first and a written-back register next; both fail for a bare name.
  rw [readWord?, Text.words_eq_singleton hmade.isWord]
  simp only [readShift?, hshift, hplain, hlower, Option.map_none, Option.bind_none]

/-- A piece that starts with a name or a number is a word, a written-back register, a shift or an address. -/
theorem readPiece_append {rest : List Char} {operand : Operand} (hname : Text.IsMadeOf ('-' :: Text.wordChars) name)
    (hsymbol : '<' ∉ rest) (htrim : Text.Trimmed (name ++ rest))
    (hread : readWord? arch (Text.lower (name ++ rest)) = some operand) : readPiece arch (name ++ rest) = .ok operand := by
  have hwhole : '<' ∉ name ++ rest := by
    simpa using ⟨hname.not_mem (by decide), hsymbol⟩
  obtain ⟨c, tail, rfl⟩ := List.exists_cons_of_ne_nil hname.1
  have hmark : c ∉ ['[', '{', '#'] := Text.not_mark_of_mem (hname.2 c List.mem_cons_self)
  rw [List.cons_append] at hwhole htrim hread ⊢
  rw [readPiece_word hwhole htrim hmark, hread]
  rfl

theorem readPiece_of_readWord? {operand : Operand} (hname : Text.IsMadeOf ('-' :: Text.wordChars) name)
    (hread : readWord? arch (Text.lower name) = some operand) : readPiece arch name = .ok operand := by
  have htrim := hname.isWord.trimmed
  rw [← List.append_nil name] at htrim hread ⊢
  exact readPiece_append hname List.not_mem_nil htrim hread

theorem readPiece_name (h : arch.register? name = some view) : readPiece arch name = .ok (.register view) :=
  readPiece_of_readWord? (Arch.isMadeOf_name h) (readWord?_name h)

end Operand

end CallFacts
