import CallFacts.Proofs.Brackets
import CallFacts.Proofs.NameTables
import CallFacts.Proofs.WrittenText

/-!
# Texts of operands

A name is made of small letters and digits, and so is a number in hexadecimal digits. Such texts are cut at no comma and
hold no mark, so each is read as a whole: as a constant behind `#`, as the amount of a shift, as an address. Texts that
are joined by a comma and a blank are read one by one.
-/

namespace CallFacts

/-! ### Names -/

namespace Text

variable {c : Char} {w text : List Char}

def letters : List Char :=
  ['a', 'b', 'c', 'd', 'e', 'f', 'g', 'h', 'i', 'j', 'k', 'l', 'm', 'n', 'o', 'p', 'q', 'r', 's', 't',
    'u', 'v', 'w', 'x', 'y', 'z']

def nameChars : List Char := letters ++ ['0', '1', '2', '3', '4', '5', '6', '7', '8', '9']

/-- A text of small letters and decimal digits that is not empty. -/
def IsName (w : List Char) : Prop := w ≠ [] ∧ ∀ c ∈ w, c ∈ nameChars

instance (w : List Char) : Decidable (IsName w) :=
  decidable_of_iff (w ≠ [] ∧ w.all nameChars.contains = true) (by simp [IsName])

/-- What a computation finds of all these characters holds of each of them. -/
theorem of_mem_nameChars {test : Char → Bool} (h : nameChars.all test = true) (hc : c ∈ nameChars) : test c = true :=
  List.all_eq_true.mp h c hc

theorem isBlank_of_mem_nameChars (h : c ∈ nameChars) : isBlank c = false := by
  have hall : nameChars.all (fun c => !isBlank c) = true := by decide
  simpa using of_mem_nameChars hall h

theorem toLower_of_mem_nameChars (h : c ∈ nameChars) : c.toLower = c := by
  have hall : nameChars.all (fun c => c.toLower == c) = true := by decide
  simpa using of_mem_nameChars hall h

/-- A name is no memory reference, no list and no constant. -/
theorem not_mark_of_mem_nameChars (h : c ∈ nameChars) : c ∉ ['[', '{', '#'] := by
  have hall : nameChars.all (fun c => c ∉ ['[', '{', '#']) = true := by decide
  simpa using of_mem_nameChars hall h

/-- The characters that mean something between names. -/
def marks : List Char := [' ', ',', '[', ']', '{', '}', '!', '#', '-', '=', '<', ';', '@', '.', ':', '+']

theorem IsName.not_mem (h : IsName w) (hc : marks.contains c = true) : c ∉ w := by
  have hall : nameChars.all (fun c => !marks.contains c) = true := by decide
  intro hmem
  have hplain := of_mem_nameChars hall (h.2 c hmem)
  rw [hc] at hplain
  cases hplain

/-- A text does not end in what it has not in it. -/
theorem dropEnd?_eq_none {ending : List Char} (hc : c ∈ ending) (h : c ∉ text) : dropEnd? ending text = none := by
  cases hdrop : dropEnd? ending text with
  | none => rfl
  | some rest => exact absurd (by simp [eq_append_of_dropEnd? hdrop, hc]) h

/-- A text goes on up to a character that it has not in it. -/
theorem takeWhile_ne_eq_self (h : c ∉ text) : text.takeWhile (· != c) = text := by
  rw [List.takeWhile_eq_self_iff]
  intro x hx
  have hne : x ≠ c := fun heq => h (heq ▸ hx)
  simpa using hne

theorem IsName.isWord (h : IsName w) : IsWord w := ⟨h.1, fun c hc => isBlank_of_mem_nameChars (h.2 c hc)⟩

theorem IsName.lower_eq (h : IsName w) : lower w = w := by
  rw [lower, List.map_congr_left fun c hc => toLower_of_mem_nameChars (h.2 c hc), List.map_id']

theorem isName_digits {base : Nat} (lo : 2 ≤ base) (hi : base ≤ 16) (n : Nat) : IsName (digits base n) := by
  refine ⟨digits_ne_nil base n, fun c hc => ?_⟩
  have hall : (List.range 16).all (fun d => nameChars.contains (digitChar d)) = true := by decide
  obtain ⟨d, hd, rfl⟩ := exists_of_mem_digits lo hc
  simpa using List.all_eq_true.mp hall d (List.mem_range.mpr (by omega))

theorem IsName.append (h : IsName w) (h' : IsName text) : IsName (w ++ text) := by
  refine ⟨by simp [h.1], ?_⟩
  intro c hc
  exact (List.mem_append.mp hc).elim (h.2 c) (h'.2 c)

theorem isName_hex (w : Word) : IsName (hex w).toList := by
  rw [toList_hex]
  exact IsName.append (w := ['0', 'x']) (by decide) (isName_digits (by omega) (by omega) _)

/-- A marked number is read whatever a decimal one would be read as. -/
theorem markedWord?_hex (decimal : List Char → Option Word) (w : Word) :
    markedWord? decimal (hex w).toList = some w := by
  have hdigits := unsignedWord?_digits (show 2 ≤ 16 by omega) (by omega) w.isLt
  rw [BitVec.ofNat_toNat, BitVec.setWidth_eq] at hdigits
  rw [toList_hex]
  simpa [markedWord?, dropHexMark?] using hdigits

/-! ### Blanks around a text -/

/-- A text that neither starts nor ends with a blank. -/
def Trimmed (text : List Char) : Prop :=
  (∀ c ∈ text.head?, isBlank c = false) ∧ ∀ c ∈ text.getLast?, isBlank c = false

theorem trimStart_eq_self (h : ∀ c ∈ text.head?, isBlank c = false) : trimStart text = text := by
  cases text with
  | nil => rfl
  | cons c text => simp [trimStart, h c rfl]

theorem Trimmed.trim_eq (h : Trimmed text) : trim text = text := by
  rw [trim, trimStart_eq_self h.1, trimEnd, trimStart_eq_self, List.reverse_reverse]
  rw [List.head?_reverse]
  exact h.2

theorem trim_cons_of_isBlank (hc : isBlank c = true) (text : List Char) : trim (c :: text) = trim text := by
  rw [trim, trimStart, List.dropWhile_cons_of_pos hc, trim, trimStart]

/-- Only the ends matter. -/
theorem Trimmed.append (h : Trimmed w) (hne : w ≠ []) (between : List Char) (h' : Trimmed text) (hne' : text ≠ []) :
    Trimmed (w ++ (between ++ text)) := by
  refine ⟨?_, ?_⟩
  · rw [List.head?_append_of_ne_nil _ hne]
    exact h.1
  · rw [List.getLast?_append_of_ne_nil _ (by simp [hne']), List.getLast?_append_of_ne_nil _ hne']
    exact h'.2

theorem IsWord.trimmed (h : IsWord w) : Trimmed w :=
  ⟨fun c hc => h.2 c (List.mem_of_head? hc), fun c hc => h.2 c (List.mem_of_getLast? hc)⟩

theorem trimmed_of_ends {first last : Char} (hfirst : isBlank first = false) (hlast : isBlank last = false)
    (between : List Char) : Trimmed (first :: between ++ [last]) := by
  refine ⟨?_, ?_⟩
  · rintro c ⟨⟩
    exact hfirst
  · rw [List.getLast?_concat]
    rintro c ⟨⟩
    exact hlast

/-- Texts without blanks at their ends have none at the ends when they are joined. -/
theorem trimmed_intercalate {separator : List Char} {ws : List (List Char)} (hne : ws ≠ [])
    (h : ∀ w ∈ ws, w ≠ [] ∧ Trimmed w) : separator.intercalate ws ≠ [] ∧ Trimmed (separator.intercalate ws) := by
  induction ws with
  | nil => exact absurd rfl hne
  | cons w ws ih =>
    obtain ⟨⟨hw, htrim⟩, hws⟩ := List.forall_mem_cons.mp h
    cases ws with
    | nil => simpa using ⟨hw, htrim⟩
    | cons v ws =>
      obtain ⟨hrest, htrimRest⟩ := ih (by simp) hws
      rw [List.intercalate_cons_cons, List.append_assoc]
      exact ⟨by simp [hw], htrim.append hw _ htrimRest hrest⟩

/-- What holds of the characters of texts and of a comma and a blank holds of those of the joined texts. -/
theorem forall_mem_intercalate {P : Char → Prop} (hcomma : P ',') (hblank : P ' ') {ws : List (List Char)}
    (h : ∀ w ∈ ws, ∀ c ∈ w, P c) : ∀ c ∈ [',', ' '].intercalate ws, P c := by
  induction ws with
  | nil => simp
  | cons w ws ih =>
    have hrest := ih fun v hv => h v (List.mem_cons_of_mem _ hv)
    cases ws with
    | nil => simpa using h w List.mem_cons_self
    | cons v ws =>
      intro c hc
      rw [List.intercalate_cons_cons, List.mem_append, List.mem_append] at hc
      rcases hc with (hc | hc) | hc
      · exact h w List.mem_cons_self c hc
      · rcases List.mem_pair.mp hc with rfl | rfl
        · exact hcomma
        · exact hblank
      · exact hrest c hc

end Text

/-! ### Views of registers -/

namespace Arch

variable {arch : Arch} {view : RegisterView}

/-- The views of the registers of an architecture: each whole and by its low 32 bits. -/
def views (arch : Arch) : List RegisterView :=
  (Register.all.take arch.registerCount).flatMap fun r => [⟨r, arch.registerBits⟩, ⟨r, 32⟩]

/-- The name of a view. -/
def viewName (arch : Arch) (view : RegisterView) : List Char :=
  let name := (arch.registerName view.register).toList
  if view.bits = arch.registerBits then name
  else if name = ['s', 'p'] then ['w', 's', 'p'] else 'w' :: name.tail

theorem isName_viewName (h : view ∈ arch.views) : Text.IsName (arch.viewName view) := by
  have hall (arch : Arch) : ∀ view ∈ arch.views, Text.IsName (arch.viewName view) := by
    cases arch <;> decide +kernel
  exact hall arch view h

theorem register?_viewName (h : view ∈ arch.views) : arch.register? (arch.viewName view) = some view := by
  have hall (arch : Arch) : ∀ view ∈ arch.views, arch.register? (arch.viewName view) = some view := by
    cases arch <;> decide +kernel
  exact hall arch view h

end Arch

/-! ### Results -/

/-- What does not look at a blank before a text reads joined texts as it reads each of them. -/
theorem mapM_cons_map_blank {m : Type → Type} [Monad m] [LawfulMonad m] {α : Type} {f : List Char → m α}
    (hblank : ∀ text, f (' ' :: text) = f text) (w : List Char) (ws : List (List Char)) :
    (w :: ws.map (' ' :: ·)).mapM f = (w :: ws).mapM f := by
  have hrest : (ws.map (' ' :: ·)).mapM f = ws.mapM f := by
    induction ws with
    | nil => rfl
    | cons v ws ih => rw [List.map_cons, List.mapM_cons, List.mapM_cons, hblank, ih]
  rw [List.mapM_cons, List.mapM_cons, hrest]

namespace Operand

variable {arch : Arch} {w text : List Char}

/-! ### Cutting at commas -/

theorem not_brackets_of_plain (h : w.all isPlain = true) : ∀ c ∈ w, isOpening c = false ∧ isClosing c = false := by
  intro c hc
  have hplain := List.all_eq_true.mp h c hc
  simp only [isPlain, Bool.and_eq_true, Bool.not_eq_true'] at hplain
  exact hplain.1

theorem isPlain_of_isName (h : Text.IsName w) : w.all isPlain = true := by
  have hall : Text.nameChars.all isPlain = true := by decide
  exact List.all_eq_true.mpr fun c hc => Text.of_mem_nameChars hall (h.2 c hc)

theorem isPiece_of_plain (h : w.all isPlain = true) : IsPiece w := isPiece_of_isWhole (isWhole_of_plain h)

/-- Commas inside brackets do not cut. -/
theorem isPiece_of_brackets {opening closing : Char} (hopening : isOpening opening = true)
    (hclosing : isClosing closing = true) (hinner : ∀ c ∈ w, isOpening c = false ∧ isClosing c = false)
    (hafter : IsPiece text) : IsPiece (opening :: w ++ closing :: text) := by
  have hbrackets := isPiece_of_isWhole (isWhole_brackets hopening hclosing hinner)
  have hall := hbrackets.append hafter
  rwa [List.append_assoc, List.singleton_append] at hall

/-- Pieces that are joined by a comma and a blank are cut again; the blank stays. -/
theorem split?_intercalate (hw : IsPiece w) {ws : List (List Char)} (h : ∀ v ∈ ws, IsPiece v) :
    split? 0 ([',', ' '].intercalate (w :: ws)) = some (w :: ws.map (' ' :: ·)) := by
  induction ws generalizing w with
  | nil =>
    have hsingle := hw []
    rw [List.append_nil] at hsingle
    rw [List.intercalate_singleton, hsingle]
    simp [split?]
  | cons v ws ih =>
    have hrest := ih (h v List.mem_cons_self) fun u hu => h u (List.mem_cons_of_mem _ hu)
    have hblank : IsPiece [' '] := isPiece_of_plain rfl
    rw [List.intercalate_cons_cons, List.append_assoc, hw]
    show (split? 0 (',' :: ([' '] ++ [',', ' '].intercalate (v :: ws)))).map _ = _
    rw [split?_cons_eq, if_pos ⟨rfl, rfl⟩, hblank, hrest]
    simp

/-- The blank before a piece does not matter. -/
theorem readPiece_cons_blank (arch : Arch) (piece : List Char) :
    readPiece arch (' ' :: piece) = readPiece arch piece := by
  rw [readPiece, List.takeWhile_cons_of_pos (by decide), Text.trim_cons_of_isBlank (by decide), readPiece]

/-- Pieces that are joined by a comma and a blank are read one by one. -/
theorem readAll_intercalate {arch : Arch} {ws : List (List Char)} {os : List Operand}
    (hws : ∀ w ∈ ws, w ≠ [] ∧ Text.Trimmed w ∧ IsPiece w) (hread : ws.mapM (readPiece arch) = .ok os) :
    readAll arch ([',', ' '].intercalate ws) = .ok os := by
  cases ws with
  | nil => exact hread
  | cons w ws =>
    obtain ⟨⟨-, -, hw⟩, hrest⟩ := List.forall_mem_cons.mp hws
    have hends : ∀ v ∈ w :: ws, v ≠ [] ∧ Text.Trimmed v := fun v hv => ⟨(hws v hv).1, (hws v hv).2.1⟩
    obtain ⟨hne, htrim⟩ := @Text.trimmed_intercalate [',', ' '] _ (List.cons_ne_nil w ws) hends
    rw [readAll, htrim.trim_eq, if_neg (by simpa using hne), split?_intercalate hw fun v hv => (hrest v hv).2.2]
    exact (mapM_cons_map_blank (readPiece_cons_blank arch) w ws).trans hread

/-! ### Reading single operands -/

/-- A piece without a symbol's name and without blanks around it is read as it stands. -/
theorem takeWhile_trim {text : List Char} (hsymbol : '<' ∉ text) (htrim : Text.Trimmed text) :
    Text.trim (text.takeWhile (· != '<')) = text := by
  rw [Text.takeWhile_ne_eq_self hsymbol, htrim.trim_eq]

/-- A piece that starts with no bracket and no `#` is a word in lower case, or other text. -/
theorem readPiece_of_trim {piece : List Char} {c : Char} {text : List Char}
    (hhead : Text.trim (piece.takeWhile (· != '<')) = c :: text) (hc : c ∉ ['[', '{', '#']) :
    readPiece arch piece =
      .ok ((readWord? arch (Text.lower (c :: text))).getD (other (String.ofList (c :: text)))) := by
  simp only [List.mem_cons, List.not_mem_nil, or_false, not_or] at hc
  rw [readPiece, hhead]
  split
  · next heq => cases heq
  · next heq => exact absurd (List.cons.inj heq).1 hc.1
  · next heq => exact absurd (List.cons.inj heq).1 hc.2.1
  · next heq => exact absurd (List.cons.inj heq).1 hc.2.2
  · rfl

theorem readPiece_word {c : Char} {text : List Char} (hsymbol : '<' ∉ c :: text) (htrim : Text.Trimmed (c :: text))
    (hc : c ∉ ['[', '{', '#']) :
    readPiece arch (c :: text) =
      .ok ((readWord? arch (Text.lower (c :: text))).getD (other (String.ofList (c :: text)))) :=
  readPiece_of_trim (takeWhile_trim hsymbol htrim) hc

theorem readPiece_constant {text : List Char} {w : Word} (hword : Text.IsWord text) (hsymbol : '<' ∉ text)
    (hread : Text.immediate? text = some w) : readPiece arch ('#' :: text) = .ok (.immediate w) := by
  have hmarked : Text.IsWord ('#' :: text) := Text.IsWord.append (w := ['#']) (by decide) hword
  rw [readPiece, takeWhile_trim (by simpa using hsymbol) hmarked.trimmed]
  simp only [hword.trimmed.trim_eq, hread]
  rfl

theorem readPiece_immediate (w : Word) : readPiece arch ('#' :: (Text.hex w).toList) = .ok (.immediate w) :=
  readPiece_constant (Text.isName_hex w).isWord ((Text.isName_hex w).not_mem rfl) (Text.markedWord?_hex _ w)

theorem immediate?_digits {n : Nat} (h : n < 2 ^ 63) :
    Text.immediate? (Text.digits 10 n) = some (BitVec.ofNat 64 n) := by
  obtain ⟨-, hsign, -, -⟩ := Text.not_mem_digits (show 2 ≤ 10 by omega) (by omega) n
  have hne (rest : List Char) : Text.digits 10 n ≠ '-' :: rest := fun heq => hsign (heq ▸ List.mem_cons_self)
  have hfits : n < Nat.pow 2 63 := h
  rw [Text.immediate?, Text.markedWord?]
  · simp only [Text.dropHexMark?_digits]
    rw [Text.signedWord?]
    · simp [Text.natural?_digits (show 2 ≤ 10 by omega) (by omega) n, hfits]
    · exact hne
  · exact hne

/-- The names of shifts. -/
def shiftNames : List String :=
  ["lsl", "lsr", "asr", "ror", "rrx", "uxtb", "uxth", "uxtw", "uxtx", "sxtb", "sxth", "sxtw", "sxtx"]

theorem mem_shiftNames {name : String} {kind : ShiftKind} (h : ShiftKind.ofName? name = some kind) :
    name ∈ shiftNames := by
  unfold ShiftKind.ofName? at h
  split at h
  case h_14 => cases h
  all_goals simp [shiftNames]

theorem isName_of_known {name : String} {kind : ShiftKind} (h : ShiftKind.ofName? name = some kind) :
    Text.IsName name.toList := by
  have hall : ∀ name ∈ shiftNames, Text.IsName name.toList := by decide
  exact hall name (mem_shiftNames h)

theorem readWord?_shift {name : List Char} {kind : ShiftKind} (h : ShiftKind.ofName? (String.ofList name) = some kind)
    (amount : Fin 256) : readWord? arch (name ++ ' ' :: '#' :: Text.digits 10 amount) = some (.shift kind amount) := by
  have hname : Text.IsName name := by simpa using isName_of_known h
  have hdigits := Text.isName_digits (show 2 ≤ 10 by omega) (by omega) amount.val
  have hamount : Text.IsWord ('#' :: Text.digits 10 amount) :=
    Text.IsWord.append (w := ['#']) (by decide) hdigits.isWord
  have hwords : Text.words (name ++ ' ' :: '#' :: Text.digits 10 amount) = [name, '#' :: Text.digits 10 amount] := by
    rw [Text.words_append_cons (by decide), Text.words_eq_singleton hname.isWord, Text.words_eq_singleton hamount]
    rfl
  have hvalue := immediate?_digits (show amount.val < 2 ^ 63 by omega)
  rw [readWord?, hwords, readShift?, h]
  simp [hvalue]
  omega

/-! ### Addresses -/

/-- The characters of an address. -/
def addressChars : List Char :=
  ['0', '1', '2', '3', '4', '5', '6', '7', '8', '9', 'a', 'b', 'c', 'd', 'e', 'f', 'x']

/-- A text of the characters of an address that starts with a digit. -/
def IsAddress (text : List Char) : Prop :=
  text.all addressChars.contains = true ∧ ∃ c ∈ text.head?, (Text.digitValue? c).isSome = true

theorem ofName?_of_isAddress {text : List Char} (h : IsAddress text) :
    ShiftKind.ofName? (String.ofList text) = none := by
  -- Each name of a shift has a letter that no address has.
  have hall : ∀ name ∈ shiftNames, name.toList.all addressChars.contains = false := by decide
  cases hname : ShiftKind.ofName? (String.ofList text) with
  | none => rfl
  | some kind =>
    have hletter := hall (String.ofList text) (mem_shiftNames hname)
    rw [String.toList_ofList, h.1] at hletter
    cases hletter

theorem numbered?_of_isAddress {letter : Char} {text : List Char} (h : IsAddress text)
    (hletter : Text.digitValue? letter = none) (limit : Nat) : Arch.numbered? letter limit text = none := by
  obtain ⟨-, c, hc, hdigit⟩ := h
  obtain ⟨rest, rfl⟩ := List.head?_eq_some_iff.mp hc
  rw [Arch.numbered?, if_neg]
  rintro ⟨rfl, -⟩
  rw [hletter] at hdigit
  cases hdigit

theorem lowerRegister?_of_isAddress {text : List Char} (h : IsAddress text) : arch.lowerRegister? text = none := by
  cases hview : arch.lowerRegister? text with
  | none => rfl
  | some view =>
    exfalso
    rcases Arch.lowerRegister?_eq_some_iff.mp hview with ⟨word, hword, rfl⟩ | ⟨s, hs, r, hr, -⟩
    · have hall (arch : Arch) : ∀ entry ∈ arch.words, entry.1.toList.all addressChars.contains = false := by
        cases arch <;> decide
      exact Bool.false_ne_true ((hall arch _ hword).symm.trans h.1)
    · have hall (arch : Arch) : ∀ s ∈ arch.series, Text.digitValue? s.letter = none := by
        cases arch <;> decide
      rw [numbered?_of_isAddress h (hall arch s hs)] at hr
      cases hr

theorem isZeroRegister_of_isAddress {text : List Char} (h : IsAddress text) (hlower : Text.lower text = text) :
    arch.isZeroRegister text = false := by
  cases arch with
  | arm32 => rfl
  | arm64 =>
    have hne (name : List Char) (hname : name.all addressChars.contains = false) : text ≠ name := by
      rintro rfl
      rw [h.1] at hname
      cases hname
    simp only [Arch.isZeroRegister, hlower, Bool.or_eq_false_iff, beq_eq_false_iff_ne]
    exact ⟨hne _ (by rfl), hne _ (by rfl)⟩

/-- A text that can only be an address is read as one. -/
theorem readPiece_address {text : List Char} (hname : Text.IsName text) (h : IsAddress text) {address : Word}
    (hread : readTarget? text = some address) : readPiece arch text = .ok (.target address) := by
  have hword : readWord? arch text = some (.target address) := by
    have hshift : readShift? (Text.words text) = none := by
      rw [Text.words_eq_singleton hname.isWord, readShift?, ofName?_of_isAddress h]
      rfl
    have hmark : Text.dropEnd? ['!'] text = none := Text.dropEnd?_eq_none List.mem_cons_self (hname.not_mem rfl)
    have hregister : arch.register? text = none := by
      rw [Arch.register?, hname.lower_eq, lowerRegister?_of_isAddress h]
    rw [readWord?, hshift]
    simp only [hmark, Option.bind_none, hregister, isZeroRegister_of_isAddress h hname.lower_eq, hread]
    rfl
  obtain ⟨c, rest, hc⟩ := List.exists_cons_of_ne_nil hname.1
  have hsymbol := hname.not_mem (show Text.marks.contains '<' = true from rfl)
  have htrim := hname.isWord.trimmed
  have hlower := hname.lower_eq
  have hmem : c ∈ Text.nameChars := hname.2 c (hc ▸ List.mem_cons_self)
  rw [hc] at hsymbol htrim hlower hword ⊢
  rw [readPiece_word hsymbol htrim (Text.not_mark_of_mem_nameChars hmem), hlower, hword]
  rfl

theorem isAddress_digits (n : Nat) : IsAddress (Text.digits 16 n) := by
  have hall : (List.range 16).all (fun d => addressChars.contains (Text.digitChar d)) = true := by decide
  refine ⟨List.all_eq_true.mpr ?_, ?_⟩
  · intro c hc
    obtain ⟨d, hd, rfl⟩ := Text.exists_of_mem_digits (by omega) hc
    exact List.all_eq_true.mp hall d (List.mem_range.mpr hd)
  · obtain ⟨c, rest, hc⟩ := List.exists_cons_of_ne_nil (Text.digits_ne_nil 16 n)
    obtain ⟨d, hd, rfl⟩ := Text.exists_of_mem_digits (by omega) (hc ▸ List.mem_cons_self : c ∈ Text.digits 16 n)
    exact ⟨_, by rw [hc]; rfl, by rw [Text.digitValue?_digitChar hd]; rfl⟩

theorem readTarget?_digits (w : Word) : readTarget? (Text.digits 16 w.toNat) = some w ∧
    readTarget? (Text.hex w).toList = some w := by
  have hdigits := Text.unsignedWord?_digits (show 2 ≤ 16 by omega) (by omega) w.isLt
  rw [BitVec.ofNat_toNat, BitVec.setWidth_eq] at hdigits
  have hall : ((Text.digits 16 w.toNat).all fun c => (Text.digitValue? c).isSome) = true := by
    rw [List.all_eq_true]
    intro c hc
    obtain ⟨d, hd, rfl⟩ := Text.exists_of_mem_digits (by omega) hc
    rw [Text.digitValue?_digitChar hd]
    rfl
  have hmark : Text.dropStart? ['0', 'x'] (Text.digits 16 w.toNat) = none := by
    cases hdrop : Text.dropStart? ['0', 'x'] (Text.digits 16 w.toNat) with
    | none => rfl
    | some rest =>
      have hmem : 'x' ∈ Text.digits 16 w.toNat := by simp [Text.eq_append_of_dropStart? hdrop]
      exact absurd hmem (Text.not_mem_digits (by omega) (by omega) _).2.2.1
  refine ⟨?_, ?_⟩
  · rw [readTarget?, hmark]
    simp [hall, hdigits]
  · rw [Text.toList_hex, readTarget?, show ('0' :: 'x' :: Text.digits 16 w.toNat) = ['0', 'x'] ++ _ from rfl,
      Text.dropStart?_append]
    simp [hall, hdigits]

theorem readPiece_target (w : Word) : readPiece arch (Text.digits 16 w.toNat) = .ok (.target w) :=
  readPiece_address (Text.isName_digits (by omega) (by omega) _) (isAddress_digits _) (readTarget?_digits w).1

theorem readPiece_markedTarget (w : Word) : readPiece arch (Text.hex w).toList = .ok (.target w) := by
  have haddress : IsAddress (Text.hex w).toList := by
    rw [Text.toList_hex]
    refine ⟨?_, '0', rfl, rfl⟩
    rw [List.all_cons, List.all_cons, (isAddress_digits _).1]
    rfl
  exact readPiece_address (Text.isName_hex w) haddress (readTarget?_digits w).2

/-! ### Register lists -/

theorem splitOn_append_intercalate {u w : List Char} (hu : ',' ∉ u) (hw : ',' ∉ w) (ws : List (List Char))
    (h : ∀ v ∈ ws, ',' ∉ v) :
    (u ++ [',', ' '].intercalate (w :: ws)).splitOn ',' = (u ++ w) :: ws.map (' ' :: ·) := by
  induction ws generalizing u w with
  | nil =>
    rw [List.intercalate_singleton]
    exact List.splitOnP_eq_singleton fun c hc => by
      have hne : c ≠ ',' := by
        rintro rfl
        exact (List.mem_append.mp hc).elim hu hw
      simpa using hne
  | cons v ws ih =>
    have hrest := ih (u := [' ']) (by decide) (h v List.mem_cons_self) fun x hx => h x (List.mem_cons_of_mem _ hx)
    have hfirst : ',' ∉ u ++ w := fun hmem => (List.mem_append.mp hmem).elim hu hw
    rw [List.intercalate_cons_cons, List.append_assoc, ← List.append_assoc]
    show (u ++ w ++ ',' :: ([' '] ++ [',', ' '].intercalate (v :: ws))).splitOn ',' = _
    rw [List.splitOn_append_cons_self_of_not_mem hfirst, hrest]
    rfl

/-- The items of a list that are joined by a comma and a blank are read one by one. -/
theorem readList?_intercalate {items : List (List Char)} (hcomma : ∀ item ∈ items, ',' ∉ item) :
    readList? arch ([',', ' '].intercalate items) =
      (items.mapM (readListItem? arch)).map fun sets => sets.foldl (· ∪ ·) ∅ := by
  cases items with
  | nil => rfl
  | cons item items =>
    obtain ⟨hitem, hitems⟩ := List.forall_mem_cons.mp hcomma
    have hblank (text : List Char) : readListItem? arch (' ' :: text) = readListItem? arch text := by
      rw [readListItem?, Text.trim_cons_of_isBlank (by decide), readListItem?]
    have hsplit := splitOn_append_intercalate (u := []) (by simp) hitem items hitems
    rw [List.nil_append] at hsplit
    rw [readList?, hsplit, mapM_cons_map_blank hblank, List.nil_append]

theorem readPiece_braces {inner : List Char} {set : RegisterSet} (hsymbol : '<' ∉ inner)
    (hread : readList? arch inner = some set) : readPiece arch ('{' :: inner ++ ['}']) = .ok (.registerList set) := by
  have hwhole : '<' ∉ '{' :: inner ++ ['}'] := by simpa using hsymbol
  have hclosing : Text.cutLast '}' (inner ++ ['}']) = some (inner, []) := Text.cutLast_append_cons _ (by simp)
  rw [readPiece, takeWhile_trim hwhole (Text.trimmed_of_ends rfl rfl inner), List.cons_append]
  simp only [hclosing, hread]
  rfl

end Operand

end CallFacts
