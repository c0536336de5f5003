import CallFacts.Proofs.NumberReaders
import CallFacts.Proofs.SpelledOperands

/-!
# Which texts name a register

A register has a word of its own, or a letter and a number. The number is written without zeros ahead of it, but the
reader of numbers takes a plus sign, and behind the sign it takes zeros too. So `r+5` and `r+05` are read as `r5`, while
`r05` is no register and is left to the cases of operands that come after the registers.
-/

namespace CallFacts

namespace Text

variable {base n : Nat} {text : List Char}

/-! ### Numbers without zeros ahead of them -/

theorem eq_digitChar {c : Char} {d : Nat} (h : digitValue? c = some d) (hd : d < 10) : c = digitChar d := by
  simp only [digitValue?] at h
  rw [digitChar, if_pos hd]
  split at h
  · next hc =>
    obtain rfl := Option.some.inj h
    rw [show 48 + (c.toNat - 48) = c.toNat by omega, Char.ofNat_toNat]
  · split at h
    · next hc =>
      obtain rfl := Option.some.inj h
      omega
    · split at h
      · next hc =>
        obtain rfl := Option.some.inj h
        omega
      · cases h

theorem digits_eq_map (h : 2 ≤ base) (hn : n ≠ 0) : digits base n = (Nat.digits base n).reverse.map digitChar := by
  induction n using Nat.strongRecOn with
  | ind n ih =>
    rw [digits]
    split
    · next hle =>
      have hquotient : n / base ≠ 0 := Nat.ne_of_gt (Nat.div_pos hle.2 (by omega))
      have hdigits : Nat.digits base n = n % base :: Nat.digits base (n / base) :=
        Nat.digits_def' (by omega) (Nat.pos_of_ne_zero hn)
      rw [ih _ (Nat.div_lt_self (by omega) (by omega)) hquotient, hdigits, List.reverse_cons, List.map_append]
      rfl
    · rw [Nat.digits_of_lt base n hn (by omega)]
      rfl

theorem head?_digits (hn : n ≠ 0) : (digits 10 n).head? ≠ some '0' := by
  have hne : Nat.digits 10 n ≠ [] := Nat.digits_ne_nil_iff_ne_zero.mpr hn
  rw [digits_eq_map (by omega) hn, List.head?_map, List.head?_reverse, List.getLast?_eq_some_getLast hne]
  have hlast : (Nat.digits 10 n).getLast hne ≠ 0 := Nat.getLast_digit_ne_zero 10 hn
  have hlt : (Nat.digits 10 n).getLast hne < 10 := Nat.digits_lt_base (by omega) (List.getLast_mem hne)
  have hall : ∀ d < 10, digitChar d = '0' → d = 0 := by decide
  intro hzero
  exact hlast (hall _ hlt (Option.some.inj hzero))

/-- Whether the first of several characters is a zero. -/
def HasLeadingZero (text : List Char) : Prop := 1 < text.length ∧ text.head? = some '0'

theorem not_hasLeadingZero_digits (n : Nat) : ¬ HasLeadingZero (digits 10 n) := by
  rintro ⟨hlength, hhead⟩
  obtain rfl : n = 0 := by_contra fun hn => head?_digits hn hhead
  exact absurd hlength (by decide +kernel)

/-- Digits that write a number without a zero ahead of it are the digits of the number. -/
theorem WritesDigits.eq_digits (h : WritesDigits 10 text n) (hzero : ¬ HasLeadingZero text) : text = digits 10 n := by
  obtain ⟨ds, hne, hds, rfl⟩ := h
  have htext : text = ds.map digitChar := by
    rw [← List.forall₂_eq_eq_eq, List.forall₂_map_right_iff]
    exact hds.imp fun c d hd => eq_digitChar hd.1 hd.2
  have hlt : ∀ d ∈ ds, d < 10 :=
    ((List.forall₂_and_left _ _).mp (hds.flip.imp fun d c (hd : digitValue? c = some d ∧ d < 10) => hd.symm)).1
  obtain ⟨d, rest, rfl⟩ := List.exists_cons_of_ne_nil hne
  by_cases hd : d = 0
  · subst hd
    cases rest with
    | nil => rw [htext]; decide +kernel
    | cons e rest => exact absurd ⟨by simp [htext], by rw [htext]; rfl⟩ hzero
  · have hback : Nat.digits 10 (Nat.ofDigits 10 (d :: rest).reverse) = (d :: rest).reverse :=
      Nat.digits_ofDigits 10 (by omega) _ (fun l hl => hlt l (List.mem_reverse.mp hl)) (by simp [hd])
    have hn : Nat.ofDigits 10 (d :: rest).reverse ≠ 0 := by
      rw [← Nat.digits_ne_nil_iff_ne_zero, hback]
      simp
    rw [digits_eq_map (by omega) hn, hback, List.reverse_reverse, htext]

/-! ### Numbers with a plus sign -/

theorem byte?_eq_some_iff : byte? text = some n ↔ WritesNatural 10 text n ∧ n < 256 := by
  rw [← natural?_eq_some_iff, byte?]
  cases natural? 10 text with
  | none => simp
  | some m => by_cases hm : m < 256 <;> simp [hm] <;> omega

/-- A number without a zero ahead is written by its digits, or by any digits behind a plus sign. -/
theorem writesNatural_and_not_hasLeadingZero_iff : WritesNatural 10 text n ∧ ¬ HasLeadingZero text ↔
    text = digits 10 n ∨ ∃ rest, text = '+' :: rest ∧ WritesDigits 10 rest n := by
  constructor
  · rintro ⟨h, hzero⟩
    cases h with
    | bare h => exact .inl (h.eq_digits hzero)
    | plus h => exact .inr ⟨_, rfl, h⟩
  · rintro (rfl | ⟨rest, rfl, h⟩)
    · exact ⟨.bare (ofDigits?_eq_some_iff.mp (ofDigits?_digits (by omega) (by omega) n)), not_hasLeadingZero_digits n⟩
    · refine ⟨.plus h, ?_⟩
      rintro ⟨-, hhead⟩
      cases hhead

end Text

/-! ### The names -/

theorem Register.ofIndex?_eq_some_iff {n : Nat} {r : Register} : ofIndex? n = some r ↔ r.val = n := by
  rw [ofIndex?]
  split
  · rw [Option.some.injEq, Fin.ext_iff, eq_comm]
  · next hn =>
    constructor
    · intro h
      cases h
    · rintro rfl
      exact absurd r.isLt hn

namespace Arch

variable {arch : Arch} {name : List Char} {view : RegisterView}

/-- A name in small letters, and the view it names. -/
inductive Names (arch : Arch) : List Char → RegisterView → Prop
  | word {word : String} {view : RegisterView} (h : (word, view) ∈ arch.words) : Names arch word.toList view
  | numbered {s : Series} {r : Register} (hs : s ∈ arch.series) (hr : r.val < s.limit) :
    Names arch (s.letter :: Text.digits 10 r.val) ⟨r, s.bits⟩

/-- A letter and a number with a plus sign between them, and the view that is meant. -/
inductive NamesWithPlus (arch : Arch) : List Char → RegisterView → Prop
  | numbered {s : Series} {r : Register} {text : List Char} (hs : s ∈ arch.series) (hr : r.val < s.limit)
    (h : Text.WritesDigits 10 text r.val) : NamesWithPlus arch (s.letter :: '+' :: text) ⟨r, s.bits⟩

theorem Names.plus_not_mem (h : arch.Names name view) : '+' ∉ name := by
  cases h with
  | word h =>
    have hall (arch : Arch) : ∀ entry ∈ arch.words, '+' ∉ entry.1.toList := by
      cases arch <;> decide
    exact hall arch _ h
  | @numbered s r hs hr =>
    have hall (arch : Arch) : ∀ s ∈ arch.series, '+' ≠ s.letter := by
      cases arch <;> decide
    have hdigits := (Text.not_mem_digits (show 2 ≤ 10 by omega) (by omega) r.val).1
    simpa using ⟨hall arch s hs, hdigits⟩

theorem NamesWithPlus.plus_mem (h : arch.NamesWithPlus name view) : '+' ∈ name := by
  cases h
  exact List.mem_cons_of_mem _ List.mem_cons_self

/-- What stands behind the letter of a numbered name. -/
theorem numbered?_eq_some_iff {letter : Char} {limit : Nat} {r : Register} :
    numbered? letter limit name = some r ↔ ∃ number, name = letter :: number ∧ r.val < limit ∧
      (number = Text.digits 10 r.val ∨ ∃ rest, number = '+' :: rest ∧ Text.WritesDigits 10 rest r.val) := by
  simp only [← Text.writesNatural_and_not_hasLeadingZero_iff]
  cases name with
  | nil => simp [numbered?]
  | cons c number =>
    rw [numbered?]
    constructor
    · intro h
      split at h
      · next hc =>
        obtain ⟨rfl, hzero⟩ := hc
        split at h
        · next n hn =>
          obtain ⟨hnumber, -⟩ := Text.byte?_eq_some_iff.mp hn
          split at h
          · next hlt =>
            obtain rfl := Register.ofIndex?_eq_some_iff.mp h
            exact ⟨number, rfl, hlt, hnumber, hzero⟩
          · cases h
        · cases h
      · cases h
    · rintro ⟨_, heq, hlt, hnumber, hzero⟩
      obtain ⟨rfl, rfl⟩ := List.cons.inj heq
      have hbyte : Text.byte? number = some r.val := Text.byte?_eq_some_iff.mpr ⟨hnumber, by omega⟩
      rw [if_pos ⟨rfl, hzero⟩, hbyte]
      simp only [if_pos hlt]
      exact Register.ofIndex?_eq_some_iff.mpr rfl

/-- A text in small letters names a register by the book, or with a plus sign ahead of the number. -/
theorem lowerRegister?_eq_some_iff_names :
    arch.lowerRegister? name = some view ↔ arch.Names name view ∨ arch.NamesWithPlus name view := by
  rw [lowerRegister?_eq_some_iff]
  constructor
  · rintro (⟨word, hmem, rfl⟩ | ⟨s, hs, r, hr, rfl⟩)
    · exact .inl (.word hmem)
    · obtain ⟨number, rfl, hlt, rfl | ⟨rest, rfl, hrest⟩⟩ := numbered?_eq_some_iff.mp hr
      · exact .inl (.numbered hs hlt)
      · exact .inr (.numbered hs hlt hrest)
  · rintro (h | h)
    · cases h with
      | word h => exact .inl ⟨_, h, rfl⟩
      | numbered hs hr => exact .inr ⟨_, hs, _, numbered?_eq_some_iff.mpr ⟨_, rfl, hr, .inl rfl⟩, rfl⟩
    · cases h with
      | numbered hs hr h => exact .inr ⟨_, hs, _, numbered?_eq_some_iff.mpr ⟨_, rfl, hr, .inr ⟨_, rfl, h⟩⟩, rfl⟩

theorem register?_eq_some_iff : arch.register? name = some view ↔
    arch.Names (Text.lower name) view ∨ arch.NamesWithPlus (Text.lower name) view :=
  lowerRegister?_eq_some_iff_names

theorem isZeroRegister_lower (arch : Arch) (name : List Char) :
    arch.isZeroRegister (Text.lower name) = arch.isZeroRegister name := by
  cases arch with
  | arm32 => rfl
  | arm64 => rw [isZeroRegister, isZeroRegister, Text.lower_lower]

end Arch

/-! ### Names among the operands -/

namespace Operand

variable {arch : Arch} {name piece text : List Char} {view : RegisterView} {operand : Operand}

theorem readShift?_ne_register (ws : List (List Char)) : readShift? ws ≠ some (some (register view)) := by
  intro h
  rw [readShift?.eq_def] at h
  split at h
  · cases h
  · obtain ⟨kind, -, h⟩ := Option.map_eq_some_iff.mp h
    split at h
    · cases h
    · dsimp only at h
      split at h
      · split at h <;> cases h
      · cases h

theorem readWord?_eq_register_iff :
    readWord? arch (Text.lower name) = some (.register view) ↔ arch.register? name = some view := by
  constructor
  · intro h
    rw [readWord?] at h
    split at h
    · next hshift =>
      subst h
      exact absurd hshift (readShift?_ne_register _)
    · split at h
      · cases h
      · split at h
        · next hview =>
          cases h
          rwa [Arch.register?_lower] at hview
        · split at h
          · cases h
          · obtain ⟨a, -, h⟩ := Option.map_eq_some_iff.mp h
            cases h
  · exact readWord?_name

/-- A piece is a register only by its name. -/
theorem readPiece_eq_register_iff :
    readPiece arch piece = .ok (.register view) ↔ arch.register? (headOf piece) = some view := by
  constructor
  · intro h
    simp only [readPiece] at h
    split at h
    · cases h
    · split at h
      · next operand hread =>
        obtain ⟨_, -, hmemory⟩ := Option.map_eq_some_iff.mp hread
        subst hmemory
        cases h
      · cases h
    · next inner _ =>
      split at h
      · next inner after hcut =>
        cases hlist : readList? arch inner <;> rw [hlist] at h <;> cases h
      · cases h
    · next rest _ =>
      cases hvalue : Text.immediate? (Text.trim rest) <;> rw [hvalue] at h <;> cases h
    · rw [show Text.trim (piece.takeWhile (· != '<')) = headOf piece from rfl] at h
      cases hword : readWord? arch (Text.lower (headOf piece)) with
      | none =>
        rw [hword] at h
        cases h
      | some operand =>
        rw [hword] at h
        cases h
        exact readWord?_eq_register_iff.mp hword
  · intro h
    have hmade := Arch.isMadeOf_name h
    obtain ⟨c, rest, hhead⟩ := List.exists_cons_of_ne_nil hmade.1
    rw [readPiece_of_trim hhead (Text.not_mark_of_mem (hmade.2 c (hhead ▸ List.mem_cons_self))), ← hhead,
      readWord?_name h]
    rfl

/-- A text that no case ahead of the registers takes: it opens no bracket and is no constant, no shift and no register
that is written back. -/
structure IsBare (arch : Arch) (text : List Char) : Prop where
  nonempty : text ≠ []
  mark : ∀ c ∈ text.head?, c ∉ ['[', '{', '#']
  shift : readShift? (Text.words (Text.lower text)) = none
  writeback : (Text.dropEnd? ['!'] (Text.lower text)).bind arch.register? = none

/-- The cases after the registers: a register that reads zero, an address, and any other text. -/
inductive IsUnnamed (arch : Arch) (text : List Char) : Operand → Prop
  | zero {bits : Nat} (harch : arch = .arm64)
    (h : (String.ofList (Text.lower text), bits) ∈ [("xzr", 64), ("wzr", 32)]) : IsUnnamed arch text (.zero bits)
  | target {a : Word} (h : readTarget? (Text.lower text) = some a) : IsUnnamed arch text (.target a)
  | other (hzero : arch.isZeroRegister text = false) (htarget : readTarget? (Text.lower text) = none) :
    IsUnnamed arch text (.other (String.ofList text))

theorem isZeroRegister_iff : arch.isZeroRegister text = true ↔
    arch = .arm64 ∧ ∃ bits, (String.ofList (Text.lower text), bits) ∈ [("xzr", 64), ("wzr", 32)] := by
  cases arch with
  | arm32 => simp [Arch.isZeroRegister]
  | arm64 => simp [Arch.isZeroRegister, ← String.toList_inj, exists_or]

theorem readTarget?_of_zero {bits : Nat} (h : (String.ofList (Text.lower text), bits) ∈ [("xzr", 64), ("wzr", 32)]) :
    (if (Text.lower text).head? = some 'w' then 32 else 64) = bits ∧ readTarget? (Text.lower text) = none := by
  have hall : ∀ entry ∈ [("xzr", 64), ("wzr", 32)],
      (if entry.1.toList.head? = some 'w' then 32 else 64) = entry.2 ∧ readTarget? entry.1.toList = none := by
    decide +kernel
  simpa only [String.toList_ofList] using hall _ h

/-- What the reader makes of a text that is no register. -/
def readUnnamed (arch : Arch) (text : List Char) : Operand :=
  if arch.isZeroRegister text then .zero (if (Text.lower text).head? = some 'w' then 32 else 64)
  else ((readTarget? (Text.lower text)).map .target).getD (.other (String.ofList text))

theorem isUnnamed_readUnnamed (arch : Arch) (text : List Char) : IsUnnamed arch text (readUnnamed arch text) := by
  rw [readUnnamed]
  cases hzero : arch.isZeroRegister text with
  | true =>
    obtain ⟨harch, bits, h⟩ := isZeroRegister_iff.mp hzero
    rw [if_pos rfl, (readTarget?_of_zero h).1]
    exact .zero harch h
  | false =>
    rw [if_neg (by decide)]
    cases htarget : readTarget? (Text.lower text) with
    | none => exact .other hzero htarget
    | some a => exact .target htarget

/-- No two of the later cases fit one text. -/
theorem IsUnnamed.eq_readUnnamed (h : IsUnnamed arch text operand) : operand = readUnnamed arch text := by
  rw [readUnnamed]
  cases h with
  | zero harch h => rw [if_pos (isZeroRegister_iff.mpr ⟨harch, _, h⟩), (readTarget?_of_zero h).1]
  | target ha =>
    have hzero : ¬ arch.isZeroRegister text = true := by
      intro hzero
      obtain ⟨-, bits, h⟩ := isZeroRegister_iff.mp hzero
      rw [(readTarget?_of_zero h).2] at ha
      cases ha
    rw [if_neg hzero, ha]
    rfl
  | other hzero htarget =>
    rw [hzero, htarget]
    rfl

/-- What is no register and no operand of an earlier case is left to the later ones. -/
theorem readPiece_of_isBare (h : IsBare arch (headOf piece)) (hnone : arch.register? (headOf piece) = none) :
    readPiece arch piece = .ok (readUnnamed arch (headOf piece)) := by
  obtain ⟨c, rest, hhead⟩ := List.exists_cons_of_ne_nil h.nonempty
  rw [readPiece_of_trim hhead (h.mark c (by rw [hhead]; rfl)), ← hhead, readWord?, h.shift]
  simp only [h.writeback, Arch.register?_lower, hnone, Arch.isZeroRegister_lower, readUnnamed]
  split <;> rfl

/-- The names by the book are the names of registers, unless there is a plus sign between a letter and a number: then the
text is a register all the same. A register is an operand wherever its name stands, and any other text, if no earlier
case takes it, is left to the later ones. -/
theorem registerNames_iff (arch : Arch) (name : List Char) :
    ((∀ view, arch.register? name = some view ↔ arch.Names (Text.lower name) view) ↔
        ∀ view, ¬ arch.NamesWithPlus (Text.lower name) view) ∧
      (∀ view, arch.NamesWithPlus (Text.lower name) view → arch.register? name = some view) ∧
      ∀ piece, headOf piece = name →
        (∀ view, readPiece arch piece = .ok (.register view) ↔ arch.register? name = some view) ∧
        (IsBare arch name → arch.register? name = none →
          ∀ operand, readPiece arch piece = .ok operand ↔ IsUnnamed arch name operand) := by
  refine ⟨⟨?_, ?_⟩, fun view h => Arch.register?_eq_some_iff.mpr (.inr h), ?_⟩
  · intro h view hplus
    have hnames := (h view).mp (Arch.register?_eq_some_iff.mpr (.inr hplus))
    exact hnames.plus_not_mem hplus.plus_mem
  · intro h view
    rw [Arch.register?_eq_some_iff]
    exact or_iff_left (h view)
  · rintro piece rfl
    refine ⟨fun view => readPiece_eq_register_iff, fun hbare hnone operand => ?_⟩
    rw [readPiece_of_isBare hbare hnone, Except.ok.injEq]
    constructor
    · rintro rfl
      exact isUnnamed_readUnnamed arch _
    · intro h
      exact h.eq_readUnnamed.symm

/-- A sign lets a number through that no name has. -/
theorem plusSign_accepted :
    Arch.arm32.register? "r+5".toList = some ⟨5, 32⟩ ∧ (∀ view, ¬ Arch.arm32.Names (Text.lower "r+5".toList) view) ∧
      readPiece .arm32 "r+5".toList = .ok (.register ⟨5, 32⟩) ∧ readPiece .arm32 "r05".toList = .ok (.other "r05") :=
  ⟨by decide +kernel, fun _ h => h.plus_not_mem (by decide +kernel), by decide +kernel, by decide +kernel⟩

/-- `R05` is other text, and `r+05` is a register. -/
theorem registerNames_leadingZero :
    (∀ view, ¬ Arch.arm32.NamesWithPlus (Text.lower "R05".toList) view) ∧
      (∀ view, ¬ Arch.arm32.Names (Text.lower "R05".toList) view) ∧
      headOf "R05 <f>".toList = "R05".toList ∧ IsBare .arm32 "R05".toList ∧
      readPiece .arm32 "R05 <f>".toList = .ok (.other "R05") ∧
      Arch.arm32.NamesWithPlus (Text.lower "r+05".toList) ⟨5, 32⟩ ∧
      readPiece .arm32 "r+05".toList = .ok (.register ⟨5, 32⟩) := by
  have hplus : ∀ view, ¬ Arch.arm32.NamesWithPlus (Text.lower "R05".toList) view :=
    fun _ h => absurd h.plus_mem (by decide)
  have hnone : Arch.arm32.register? "R05".toList = none := by decide +kernel
  have hhead : headOf "R05 <f>".toList = "R05".toList := by decide +kernel
  have hbare : IsBare .arm32 "R05".toList :=
    ⟨by decide, by rintro _ ⟨⟩; decide, by decide +kernel, by decide +kernel⟩
  have hwritten : Arch.arm32.NamesWithPlus (Text.lower "r+05".toList) ⟨5, 32⟩ :=
    .numbered (s := ⟨'r', 16, 32⟩) (r := 5) List.mem_cons_self (by decide)
      (Text.ofDigits?_eq_some_iff.mp (by decide +kernel))
  obtain ⟨hexact, -, hpieces⟩ := registerNames_iff .arm32 "R05".toList
  obtain ⟨-, haccepted, hregisters⟩ := registerNames_iff .arm32 "r+05".toList
  refine ⟨hplus, fun view h => ?_, hhead, hbare, ?_, hwritten, ?_⟩
  · have hsome := (hexact.mpr hplus view).mpr h
    rw [hnone] at hsome
    cases hsome
  · exact ((hpieces _ hhead).2 hbare hnone _).mpr (.other rfl (by decide +kernel))
  · exact ((hregisters _ (by decide +kernel)).1 _).mpr (haccepted _ hwritten)

end Operand

end CallFacts
