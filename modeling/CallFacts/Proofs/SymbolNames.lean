import CallFacts.Listing
import CallFacts.Proofs.SpelledOperands

/-!
# Names of symbols behind operands

A disassembler writes the name of a symbol behind an address. All from its first `<` on is left out of a piece, but only
after the text has been cut: what follows a comma of the name is read as an operand of its own, and its brackets count.
So a name goes unseen exactly if it is whole.
-/

namespace CallFacts

/-! ### Blanks at the end -/

namespace Text

variable {c : Char} {text w : List Char}

theorem trimStart_append (h : trimStart text ≠ []) (w : List Char) : trimStart (text ++ w) = trimStart text ++ w := by
  rw [trimStart, List.dropWhile_append, if_neg (by simpa [trimStart] using h), trimStart]

theorem trimEnd_append_cons (hc : isBlank c = false) (w text : List Char) :
    trimEnd (w ++ c :: text) = w ++ c :: trimEnd text := by
  have hreverse : (w ++ c :: text).reverse = (text.reverse ++ [c]) ++ w.reverse := by simp
  have hsplit : trimStart (text.reverse ++ [c]) = trimStart text.reverse ++ [c] := by
    rw [trimStart, List.dropWhile_append]
    split
    · next hblank => simp [trimStart, List.isEmpty_iff.mp hblank, hc]
    · rfl
  rw [trimEnd, hreverse, trimStart_append (by simp [hsplit]), hsplit, trimEnd]
  simp

/-- What is trimmed from the end is blank. -/
theorem exists_blanks (text : List Char) : ∃ blanks, text = trimEnd text ++ blanks ∧ ∀ c ∈ blanks, isBlank c = true := by
  refine ⟨(text.reverse.takeWhile isBlank).reverse, ?_, fun c hc => ?_⟩
  · rw [trimEnd, trimStart, ← List.reverse_append, List.takeWhile_append_dropWhile, List.reverse_reverse]
  · exact List.all_eq_true.mp List.all_takeWhile c (List.mem_reverse.mp hc)

theorem trimStart_of_blanks (h : ∀ c ∈ w, isBlank c = true) (text : List Char) : trimStart (w ++ text) = trimStart text := by
  induction w with
  | nil => rfl
  | cons c w ih =>
    obtain ⟨hc, hrest⟩ := List.forall_mem_cons.mp h
    rw [List.cons_append, trimStart, List.dropWhile_cons_of_pos hc]
    exact ih hrest

theorem trimEnd_append_blanks (h : ∀ c ∈ w, isBlank c = true) (text : List Char) : trimEnd (text ++ w) = trimEnd text := by
  have hreverse : ∀ c ∈ w.reverse, isBlank c = true := fun c hc => h c (List.mem_reverse.mp hc)
  rw [trimEnd, List.reverse_append, trimStart_of_blanks hreverse, trimEnd]

theorem trim_append_blanks (h : ∀ c ∈ w, isBlank c = true) (text : List Char) : trim (text ++ w) = trim text := by
  by_cases hblank : trimStart text = []
  · have hall : trimStart w = [] := by
      have hempty := trimStart_of_blanks h []
      rwa [List.append_nil] at hempty
    have hboth : trimStart (text ++ w) = [] := by
      rw [trimStart, List.dropWhile_append, if_pos (by simpa [trimStart] using hblank)]
      exact hall
    rw [trim, hboth, trim, hblank]
  · rw [trim, trimStart_append hblank, trimEnd_append_blanks h, trim]

/-- Blanks between two texts are kept. -/
theorem exists_trim_append (hne : trim text ≠ []) {b : Char} (hb : isBlank b = true) (hc : isBlank c = false) :
    ∃ blanks, (∀ x ∈ blanks, isBlank x = true) ∧
      ∀ tail, trim (text ++ b :: c :: tail) = trim text ++ (blanks ++ c :: trimEnd tail) := by
  have hstart : trimStart text ≠ [] := by
    intro hempty
    rw [trim, hempty] at hne
    exact hne rfl
  obtain ⟨blanks, htext, hblanks⟩ := exists_blanks (trimStart text)
  refine ⟨blanks ++ [b], List.forall_mem_append.mpr ⟨hblanks, by simpa using hb⟩, fun tail => ?_⟩
  rw [trim, trimStart_append hstart, List.append_cons, trimEnd_append_cons hc]
  conv_lhs => rw [htext]
  rw [trim]
  simp

end Text

namespace Operand

variable {arch : Arch} {text tail w piece first : List Char} {rest : List (List Char)}

theorem IsWhole.trimEnd (h : IsWhole text) : IsWhole (Text.trimEnd text) := by
  obtain ⟨blanks, htext, hblanks⟩ := Text.exists_blanks text
  have hplain : blanks.all isPlain = true := List.all_eq_true.mpr fun c hc => isPlain_of_isBlank (hblanks c hc)
  rw [htext, ← wholeFrom_zero_iff, wholeFrom_append_plain hplain, wholeFrom_zero_iff] at h
  exact h

theorem readPiece_congr {piece' : List Char} (h : headOf piece = headOf piece') :
    readPiece arch piece = readPiece arch piece' := by
  simp only [headOf] at h
  simp only [readPiece, h]

/-- All from the first `<` on is left out of a piece, and so are the blanks ahead of it. -/
theorem headOf_append_symbol (hblank : ∀ c ∈ w, Text.isBlank c = true) (piece tail : List Char) :
    headOf (piece ++ (w ++ '<' :: tail)) = headOf piece := by
  have hw : ∀ c ∈ w, (c != '<') = true := by
    intro c hc
    have hne : c ≠ '<' := by
      rintro rfl
      cases hblank _ hc
    simpa using hne
  rw [headOf, List.takeWhile_append]
  split
  · next hlength =>
    have hpiece : piece.takeWhile (· != '<') = piece := (List.takeWhile_prefix _).eq_of_length hlength
    rw [List.takeWhile_append_of_pos hw, List.takeWhile_cons_of_neg (by simp), List.append_nil,
      Text.trim_append_blanks hblank, headOf, hpiece]
  · rfl

theorem isWhole_symbolStart (hblank : ∀ c ∈ w, Text.isBlank c = true) : IsWhole (w ++ ['<']) := by
  refine isWhole_of_plain ?_
  rw [List.all_append, List.all_eq_true.mpr fun c hc => isPlain_of_isBlank (hblank c hc)]
  rfl

/-- Behind operands, a symbol's name adds what follows its commas outside brackets. -/
theorem readAll_append_symbol (hne : Text.trim text ≠ []) (hbalanced : IsBalanced (Text.trim text))
    (hcut : IsCut (Text.trimEnd tail) (first :: rest)) :
    readAll arch (text ++ ' ' :: '<' :: tail) = (do
      let operands ← readAll arch text
      let more ← rest.mapM (readPiece arch)
      return operands ++ more) := by
  obtain ⟨pieces, hpieces⟩ := exists_isCut_iff.mpr hbalanced
  obtain ⟨init, last, rfl⟩ := (List.eq_nil_or_concat' pieces).resolve_left hpieces.1
  obtain ⟨blanks, hblanks, htrim⟩ := Text.exists_trim_append hne (show Text.isBlank ' ' = true by decide)
    (show Text.isBlank '<' = false by decide)
  -- The name starts inside the last piece, so that only its later pieces are new.
  have hname : IsCut (blanks ++ '<' :: Text.trimEnd tail) ((blanks ++ '<' :: first) :: rest) := by
    have hstart : IsCut (blanks ++ ['<']) ([] ++ [blanks ++ ['<']]) :=
      isCut_singleton_iff.mpr (isWhole_symbolStart hblanks)
    simpa using hstart.append hcut
  have hall := hpieces.append hname
  rw [← htrim tail] at hall
  have hne' : Text.trim (text ++ ' ' :: '<' :: tail) ≠ [] := by
    rw [htrim]
    simp [hne]
  rw [readAll_of_isCut hne hpieces, readAll_of_isCut hne' hall, List.mapM_append, List.mapM_cons,
    readPiece_congr (headOf_append_symbol hblanks last first), ← List.mapM_cons, ← List.mapM_append,
    List.append_cons, List.mapM_append]

/-- A name that is whole goes unseen. -/
theorem readAll_whole_symbol (hne : Text.trim text ≠ []) (hbalanced : IsBalanced (Text.trim text)) (htail : IsWhole tail) :
    readAll arch (text ++ ' ' :: '<' :: tail) = readAll arch text := by
  rw [readAll_append_symbol hne hbalanced (isCut_singleton_iff.mpr htail.trimEnd)]
  simp

/-- The brackets of a name count like those of operands. -/
theorem readAll_unbalanced_symbol (hne : Text.trim text ≠ []) (hbalanced : IsBalanced (Text.trim text))
    (htail : ¬ IsBalanced (Text.trimEnd tail)) : readAll arch (text ++ ' ' :: '<' :: tail) =
      .error (.unbalanced (String.ofList (Text.trim (text ++ ' ' :: '<' :: tail)))) := by
  obtain ⟨blanks, hblanks, htrim⟩ := Text.exists_trim_append hne (show Text.isBlank ' ' = true by decide)
    (show Text.isBlank '<' = false by decide)
  have hstart := balancedFrom_zero_iff.mpr (isWhole_symbolStart hblanks).1
  refine readAll_of_unbalanced ?_
  rw [htrim, List.append_cons, ← balancedFrom_zero_iff, balancedFrom_append_iff (balancedFrom_zero_iff.mpr hbalanced),
    ← balancedFrom_zero_iff, balancedFrom_append_iff hstart]
  exact htail

/-! ### Addresses -/

/-- Operands with the name of a symbol behind them. -/
def withSymbol (text symbol : List Char) : List Char := text ++ ' ' :: '<' :: (symbol ++ ['>'])

section

variable (address : Word) (marked : Bool)

/-- The text of an address, perhaps with its mark. -/
def addressText : List Char := if marked then (Text.hex address).toList else Text.digits 16 address.toNat

theorem isName_addressText : Text.IsName (addressText address marked) := by
  cases marked
  · exact Text.isName_digits (by omega) (by omega) _
  · exact Text.isName_hex address

theorem readAll_addressText : readAll arch (addressText address marked) = .ok [.target address] := by
  have hspells : Spells arch (addressText address marked) (.target address) := by
    cases marked
    · exact .target address
    · exact .markedTarget address
  simpa using readAll_of_spells (.cons hspells .nil)

theorem trim_addressText : Text.trim (addressText address marked) = addressText address marked :=
  (isName_addressText address marked).isWord.trimmed.trim_eq

theorem trim_addressText_ne_nil : Text.trim (addressText address marked) ≠ [] := by
  rw [trim_addressText]
  exact (isName_addressText address marked).1

theorem isBalanced_addressText : IsBalanced (Text.trim (addressText address marked)) := by
  rw [trim_addressText]
  exact (isWhole_of_plain (isPlain_of_isName (isName_addressText address marked))).1

variable {address marked} {symbol : List Char}

theorem isWhole_closed_iff : IsWhole (symbol ++ ['>']) ↔ IsWhole symbol := by
  simpa using @isWhole_between_plain symbol [] ['>'] rfl rfl

theorem readAll_whole_name (h : IsWhole symbol) :
    readAll arch (withSymbol (addressText address marked) symbol) = .ok [.target address] := by
  rw [withSymbol, readAll_whole_symbol (trim_addressText_ne_nil address marked) (isBalanced_addressText address marked)
    (isWhole_closed_iff.mpr h), readAll_addressText]

/-- A name of which nothing is read is whole: it is balanced, for otherwise the text would be refused, and it is one
piece, for each further piece would give an operand. -/
theorem isWhole_of_readAll
    (h : readAll arch (withSymbol (addressText address marked) symbol) = .ok [.target address]) : IsWhole symbol := by
  have hne := trim_addressText_ne_nil address marked
  have hbalanced := isBalanced_addressText address marked
  have hend : Text.trimEnd (symbol ++ ['>']) = symbol ++ ['>'] :=
    Text.trimEnd_append_cons (by decide) symbol []
  by_cases htail : IsBalanced (symbol ++ ['>'])
  · obtain ⟨pieces, hcut⟩ := exists_isCut_iff.mpr htail
    obtain ⟨first, rest, rfl⟩ := List.exists_cons_of_ne_nil hcut.1
    rw [withSymbol, readAll_append_symbol hne hbalanced (by rwa [hend]), readAll_addressText] at h
    have hmore : rest.mapM (readPiece arch) = .ok [] := by
      cases hmore : rest.mapM (readPiece arch) with
      | error e =>
        rw [hmore] at h
        cases h
      | ok more =>
        rw [hmore] at h
        cases more with
        | nil => rfl
        | cons o more => cases h
    obtain rfl : rest = [] := List.forall₂_nil_right_iff.mp (mapM_eq_ok_iff_forall₂.mp hmore)
    obtain ⟨-, hfirst, hwhole⟩ := hcut
    rw [List.intercalate_singleton] at hfirst
    exact isWhole_closed_iff.mp (hfirst ▸ hwhole first List.mem_cons_self)
  · rw [withSymbol, readAll_unbalanced_symbol hne hbalanced (by rwa [hend])] at h
    cases h

end

end Operand

/-! ### Lines -/

/-- A name that is whole, as far as no comment starts in it, changes nothing of what a line says. -/
theorem Listing.Builder.instruction_withSymbol {operands symbol : List Char} (hcomment : ∀ c ∈ operands, c ∉ [';', '@'])
    (hne : Text.trim operands ≠ []) (hbalanced : Operand.IsBalanced (Text.trim operands))
    (hsymbol : Operand.IsWhole (symbol.takeWhile fun c => c != ';' && c != '@')) (b : Builder) (models : List Model)
    (line : Nat) (place : List Char) (size : Option (List Char)) (mnemonic : List Char) :
    b.instruction models line place size mnemonic (Operand.withSymbol operands symbol) =
      b.instruction models line place size mnemonic operands := by
  have htail : Operand.IsWhole ((symbol ++ ['>']).takeWhile fun c => c != ';' && c != '@') := by
    rw [List.takeWhile_append]
    split
    · next hlength =>
      have hall : symbol.takeWhile (fun c => c != ';' && c != '@') = symbol :=
        (List.takeWhile_prefix _).eq_of_length hlength
      rw [hall] at hsymbol
      exact hsymbol.append (Operand.isWhole_of_plain rfl)
    · exact hsymbol
  have hkept : ∀ c ∈ operands, (c != ';' && c != '@') = true := fun c hc => by simpa using hcomment c hc
  have hboth (rest : List Char) : (operands ++ rest).takeWhile (fun c => c != ';' && c != '@') =
      operands ++ rest.takeWhile fun c => c != ';' && c != '@' := List.takeWhile_append_of_pos hkept
  have hwhole : operands.takeWhile (fun c => c != ';' && c != '@') = operands := by
    have hempty := hboth []
    rwa [List.append_nil, List.takeWhile_nil, List.append_nil] at hempty
  have hdecode : decode b.program.arch place size mnemonic (Operand.withSymbol operands symbol) =
      decode b.program.arch place size mnemonic operands := by
    rw [decode.eq_def, decode.eq_def, Operand.withSymbol, hboth, hwhole, List.takeWhile_cons_of_pos rfl,
      List.takeWhile_cons_of_pos rfl, Operand.readAll_whole_symbol hne hbalanced htail]
  rw [instruction, instruction, hdecode]

namespace Operand

/-- A symbol's name behind an address goes unseen exactly if its brackets are balanced and its commas are inside them.
On the line of an instruction such a name goes unseen behind any operands, and only what is ahead of a comment counts. -/
theorem withSymbol_unseen_iff (arch : Arch) (address : Word) (marked : Bool) (symbol : List Char) :
    (readAll arch (withSymbol (addressText address marked) symbol) = .ok [.target address] ↔ IsWhole symbol) ∧
      (IsWhole (symbol.takeWhile fun c => c != ';' && c != '@') → ∀ operands : List Char,
        (∀ c ∈ operands, c ∉ [';', '@']) → Text.trim operands ≠ [] → IsBalanced (Text.trim operands) →
        ∀ (b : Listing.Builder) (models : List Model) (line : Nat) (place : List Char) (size : Option (List Char))
          (mnemonic : List Char), b.instruction models line place size mnemonic (withSymbol operands symbol) =
            b.instruction models line place size mnemonic operands) := by
  refine ⟨⟨isWhole_of_readAll, readAll_whole_name⟩, ?_⟩
  intro hsymbol operands hcomment hne hbalanced
  exact Listing.Builder.instruction_withSymbol hcomment hne hbalanced hsymbol

/-- A comma inside brackets is no reason to see the name. -/
theorem annotatedBranch_unseen :
    readAll .arm64 (withSymbol (addressText 0x10500 false) "f[int, char]".toList) = .ok [.target 0x10500] ∧
      { Listing.Builder.new .arm64 with block := some ⟨0⟩ }.instruction Arch.arm64.semantics 1 "1000".toList none
          "cbz".toList (withSymbol "w0, 10500".toList "f[int, char]".toList) =
        { Listing.Builder.new .arm64 with block := some ⟨0⟩ }.instruction Arch.arm64.semantics 1 "1000".toList none
          "cbz".toList "w0, 10500".toList := by
  obtain ⟨hread, hline⟩ := withSymbol_unseen_iff .arm64 0x10500 false "f[int, char]".toList
  have hcut : split? 0 "f[int, char]".toList = some ["f[int, char]".toList] := by decide +kernel
  have hwhole : IsWhole "f[int, char]".toList := isCut_singleton_iff.mp (split?_eq_some_iff.mp hcut)
  have hkept : "f[int, char]".toList.takeWhile (fun c => c != ';' && c != '@') = "f[int, char]".toList := by decide
  have hplain : ("w0, 10500".toList.all fun c => !([';', '@'].contains c)) = true := by decide
  have hbalanced : IsBalanced (Text.trim "w0, 10500".toList) := by
    have hpieces : split? 0 (Text.trim "w0, 10500".toList) = some ["w0".toList, " 10500".toList] := by decide +kernel
    exact exists_isCut_iff.mp ⟨_, split?_eq_some_iff.mp hpieces⟩
  refine ⟨hread.mpr hwhole, ?_⟩
  exact hline (by rwa [hkept]) _ (fun c hc => by simpa using List.all_eq_true.mp hplain c hc) (by decide +kernel)
    hbalanced _ _ _ _ _ _

/-- The names of functions with several parameters or type arguments are not whole: a piece of the name becomes an
operand, or it is empty ahead of a `<` and the line is refused. -/
theorem demangledNames_seen :
    readAll .arm32 (withSymbol "10500".toList "f(int, int)".toList) = .ok [.target 0x10500, .other "int)>"] ∧
      readAll .arm64 (withSymbol "10500".toList "f(<A>, <B>)".toList) = .error .empty ∧
      readAll .arm64 (withSymbol "10500".toList "f[".toList) = .error (.unbalanced "10500 <f[>") := by
  decide +kernel

end Operand

end CallFacts
