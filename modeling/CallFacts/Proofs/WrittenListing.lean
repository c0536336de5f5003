import CallFacts.Listing
import CallFacts.Proofs.WrittenOperands

/-!
# Listings as they are written

A listing names its architecture, then writes its functions with their blocks and instructions, then its
edges, each on a line of its own. The parts that a line may leave out or write in two ways are choices of the
listing, and each line has the parts that were written into it.
-/

namespace CallFacts

/-- A name or a label. -/
abbrev Label := { label : String // Text.IsWord label.toList }

namespace Label

def text (label : Label) : List Char := label.1.toList

theorem isWord (label : Label) : Text.IsWord label.text := label.2

end Label

/-! ### The syntax of lines -/

/-- A register with the value that it has at the entry of a function. -/
structure WrittenAssignment (arch : Arch) where
  view : arch.View
  value : Word
  fits : value.toNat < 2 ^ arch.registerBits
  marked : Bool

def WrittenAssignment.text {arch : Arch} (a : WrittenAssignment arch) : List Char :=
  a.view.name ++ '=' :: if a.marked then (Text.hex a.value).toList else Text.digits 10 a.value.toNat

/-- A name that starts with a letter. -/
def IsMnemonic (mnemonic : List Char) : Prop := Text.IsName mnemonic ∧ ∀ c ∈ mnemonic.head?, c ∈ Text.letters

instance (mnemonic : List Char) : Decidable (IsMnemonic mnemonic) :=
  decidable_of_iff (Text.IsName mnemonic ∧ mnemonic.head?.all Text.letters.contains = true) (by
    cases h : mnemonic.head? <;> simp [IsMnemonic, h])

theorem IsMnemonic.exists_cons {mnemonic : List Char} (h : IsMnemonic mnemonic) :
    ∃ c rest, mnemonic = c :: rest ∧ c ∈ Text.letters := by
  obtain ⟨c, rest, rfl⟩ := List.exists_cons_of_ne_nil h.1.1
  exact ⟨c, rest, rfl, h.2 c rfl⟩

structure WrittenInstruction (arch : Arch) where
  address : Word
  marked : Bool
  colon : Bool
  /-- The size, if it is written. -/
  size : Option (Fin 100)
  mnemonic : List Char
  isMnemonic : IsMnemonic mnemonic
  operands : List (WrittenOperand arch)

namespace WrittenInstruction

variable {arch : Arch}

def addressText (i : WrittenInstruction arch) : List Char :=
  if i.marked then (Text.hex i.address).toList else Text.digits 16 i.address.toNat

theorem isName_addressText (i : WrittenInstruction arch) : Text.IsName i.addressText := by
  rw [addressText]
  cases i.marked
  · exact Text.isName_digits (by omega) (by omega) _
  · exact Text.isName_hex _

def sizeText (i : WrittenInstruction arch) : List Char :=
  match i.size with
  | some size => Text.digits 10 size ++ [' ']
  | none => []

def operandsPart (i : WrittenInstruction arch) : List Char :=
  if i.operands.isEmpty then [] else ' ' :: operandsText i.operands

/-- The line of the instruction. -/
def row (i : WrittenInstruction arch) : List Char :=
  ' ' :: ' ' :: (i.addressText ++
    ((if i.colon then [':'] else []) ++ ' ' :: (i.sizeText ++ (i.mnemonic ++ i.operandsPart))))

end WrittenInstruction

structure WrittenBlock (arch : Arch) where
  label : Label
  isEntry : Bool
  instructions : List (WrittenInstruction arch)

/-- A function with a block, and with at most one block that is flagged as its entry. -/
structure WrittenFunction (arch : Arch) where
  name : Label
  assignments : List (WrittenAssignment arch)
  blocks : List (WrittenBlock arch)
  nonempty : blocks ≠ []
  oneEntry : (blocks.filter (·.isEntry)).length ≤ 1

structure WrittenEdge where
  source : Label
  target : Label
  kind : EdgeKind

/-- A listing whose blocks have labels of their own. -/
structure WrittenListing (arch : Arch) where
  functions : List (WrittenFunction arch)
  edges : List WrittenEdge
  distinct : ((functions.flatMap (·.blocks)).map fun b => b.label.1).Nodup

/-! ### Lines -/

/-- Words with a blank between them. -/
def wordRow (words : List (List Char)) : List Char := [' '].intercalate words

def Arch.row (arch : Arch) : List Char := wordRow ["arch".toList, arch.name.toList]

def WrittenEdge.row (e : WrittenEdge) : List Char :=
  wordRow ["edge".toList, e.source.text, e.target.text, e.kind.name.toList]

variable {arch : Arch}

namespace WrittenBlock

def head (b : WrittenBlock arch) : List Char :=
  wordRow ("block".toList :: b.label.text :: if b.isEntry then ["entry".toList] else [])

def rows (b : WrittenBlock arch) : List (List Char) := b.head :: b.instructions.map WrittenInstruction.row

end WrittenBlock

namespace WrittenFunction

def head (f : WrittenFunction arch) : List Char :=
  wordRow ("function".toList :: f.name.text :: f.assignments.map WrittenAssignment.text)

def rows (f : WrittenFunction arch) : List (List Char) := f.head :: f.blocks.flatMap WrittenBlock.rows

end WrittenFunction

namespace WrittenListing

def rows (l : WrittenListing arch) : List (List Char) :=
  arch.row :: l.functions.flatMap WrittenFunction.rows ++ l.edges.map WrittenEdge.row

/-- The text of the listing: each line with the line feed that ends it. -/
def text (l : WrittenListing arch) : List Char := l.rows.flatMap (· ++ ['\n'])

example : ∃ l : WrittenListing .arm32, l.text =
    "arch arm32\nfunction f r0=7\nblock first entry\n  10: 4 mov r0, #0x1\nedge first gone call\n".toList := by
  let r0 : Arch.arm32.View := ⟨⟨0, 32⟩, by decide⟩
  let first : Label := ⟨"first", by decide⟩
  let move : WrittenInstruction .arm32 :=
    ⟨0x10, false, true, some 4, "mov".toList, by decide, [.register r0, .immediate 1]⟩
  let f : WrittenFunction .arm32 :=
    ⟨⟨"f", by decide⟩, [⟨r0, 7, by decide, false⟩], [⟨first, true, [move]⟩], by simp, by decide⟩
  exact ⟨⟨[f], [⟨first, ⟨"gone", by decide +kernel⟩, .call⟩], by simp [f]⟩, by decide +kernel⟩

end WrittenListing

/-! ### Lines of words -/

theorem WrittenEdge.isWord (e : WrittenEdge) :
    ∀ w ∈ ["edge".toList, e.source.text, e.target.text, e.kind.name.toList], Text.IsWord w := by
  have hkind : Text.IsWord e.kind.name.toList := by cases e.kind <;> decide
  simp only [List.forall_mem_cons]
  exact ⟨by decide, e.source.isWord, e.target.isWord, hkind, by simp⟩

theorem WrittenBlock.isWord (b : WrittenBlock arch) :
    ∀ w ∈ "block".toList :: b.label.text :: (if b.isEntry then ["entry".toList] else []), Text.IsWord w := by
  simp only [List.forall_mem_cons]
  refine ⟨by decide, b.label.isWord, ?_⟩
  cases b.isEntry
  · simp
  · simp only [if_true, List.forall_mem_cons]
    exact ⟨by decide, by simp⟩

theorem WrittenAssignment.isWord (a : WrittenAssignment arch) : Text.IsWord a.text := by
  have hvalue : Text.IsWord ('=' :: if a.marked then (Text.hex a.value).toList else Text.digits 10 a.value.toNat) := by
    refine Text.IsWord.append (w := ['=']) (by decide) ?_
    cases a.marked
    · exact Text.isWord_digits (by omega) (by omega) _
    · exact Text.isWord_hex _
  exact a.view.isName.isWord.append hvalue

theorem WrittenFunction.isWord (f : WrittenFunction arch) :
    ∀ w ∈ "function".toList :: f.name.text :: f.assignments.map WrittenAssignment.text, Text.IsWord w := by
  simp only [List.forall_mem_cons, List.mem_map]
  refine ⟨by decide, f.name.isWord, ?_⟩
  rintro _ ⟨a, -, rfl⟩
  exact a.isWord

namespace Listing.Line

/-- A line of words has the parts that its words have. -/
theorem read?_wordRow {word : List Char} {words : List (List Char)} (h : ∀ w ∈ word :: words, Text.IsWord w) :
    read? (wordRow (word :: words)) = ofWords? (word :: words) := by
  have hword := h word List.mem_cons_self
  obtain ⟨c, rest, rfl⟩ := List.exists_cons_of_ne_nil hword.1
  have hblank : Text.isBlank c = false := hword.2 c List.mem_cons_self
  have hstart : (afterBlank? (wordRow ((c :: rest) :: words))).isSome = false := by
    cases words <;> simp [wordRow, afterBlank?, hblank]
  rw [read?, if_neg (by simp [hstart]), wordRow, Text.words_intercalate (by decide) h]

theorem read?_edge (e : WrittenEdge) : read? e.row = some (.edge e.source.1 e.target.1 e.kind.name) := by
  rw [WrittenEdge.row, read?_wordRow e.isWord]
  simp [ofWords?, Label.text]

theorem read?_block (b : WrittenBlock arch) : read? b.head = some (.block b.label.1 b.isEntry) := by
  rw [WrittenBlock.head, read?_wordRow b.isWord]
  cases b.isEntry <;> simp [ofWords?, Label.text]

/-- An assignment has something on both sides of its equals sign. -/
theorem isAssignment_append {name value : List Char} (hname : name ≠ []) (hvalue : value ≠ []) :
    isAssignment (name ++ '=' :: value) = true := by
  obtain ⟨c, rest, rfl⟩ := List.exists_cons_of_ne_nil hname
  rw [isAssignment, List.cons_append, List.tail_cons, List.dropLast_append_cons, List.dropLast_cons_of_ne_nil hvalue]
  simp

theorem isAssignment_text (a : WrittenAssignment arch) : isAssignment a.text = true := by
  refine isAssignment_append a.view.isName.1 ?_
  cases a.marked
  · exact Text.digits_ne_nil _ _
  · exact (Text.isWord_hex _).1

theorem read?_function (f : WrittenFunction arch) :
    read? f.head = some (.function f.name.1 (f.assignments.map WrittenAssignment.text)) := by
  have hall : (f.assignments.map WrittenAssignment.text).all isAssignment = true := by
    rw [List.all_eq_true]
    simp only [List.mem_map]
    rintro _ ⟨a, -, rfl⟩
    exact isAssignment_text a
  rw [WrittenFunction.head, read?_wordRow f.isWord]
  simp only [ofWords?, String.ofList_toList, hall]
  simp [Label.text]

/-! ### Lines of instructions -/

theorem afterBlank?_cons_trimmed {c : Char} {text : List Char} (hc : Text.isBlank c = true)
    (h : ∀ d ∈ text.head?, Text.isBlank d = false) : afterBlank? (c :: text) = some text := by
  rw [afterBlank?, if_pos hc, Text.trimStart_eq_self h]

/-- What a run of characters of one kind takes of a text. -/
theorem takeWhile_append_cons {p : Char → Bool} {w : List Char} (hw : ∀ c ∈ w, p c = true) {c : Char}
    (hc : p c = false) (text : List Char) :
    (w ++ c :: text).takeWhile p = w ∧ (w ++ c :: text).dropWhile p = c :: text := by
  rw [List.takeWhile_append_of_pos hw, List.dropWhile_append_of_pos hw]
  simp [hc]

/-- An address that is not marked is not taken for its mark. -/
theorem dropStart?_digits (n : Nat) {c : Char} (hc : c ≠ 'x') (text : List Char) :
    Text.dropStart? ['0', 'x'] (Text.digits 16 n ++ c :: text) = none := by
  have hx := (Text.not_mem_digits (show 2 ≤ 16 by omega) (by omega) n).2.2.1
  cases hdrop : Text.dropStart? ['0', 'x'] (Text.digits 16 n ++ c :: text) with
  | none => rfl
  | some rest =>
    have htext := Text.eq_append_of_dropStart? hdrop
    cases hdigits : Text.digits 16 n with
    | nil => exact absurd hdigits (Text.digits_ne_nil 16 n)
    | cons d digits =>
      rw [hdigits] at htext hx
      cases digits with
      | nil => simp_all
      | cons d' digits => simp_all

theorem mnemonicAndOperands?_text (i : WrittenInstruction arch) :
    mnemonicAndOperands? (i.mnemonic ++ i.operandsPart) = some (i.mnemonic, operandsText i.operands) := by
  obtain ⟨c, rest, hrest, hletter⟩ := i.isMnemonic.exists_cons
  have hletters : Text.letters.all Char.isAlpha = true := by decide
  have hall : Text.nameChars.all (fun c => Text.isWordChar c || c == '.') = true := by decide
  have hword : ∀ d ∈ rest, (Text.isWordChar d || d == '.') = true := fun d hd =>
    Text.of_mem_nameChars hall (i.isMnemonic.1.2 d (hrest ▸ List.mem_cons_of_mem _ hd))
  rw [hrest, List.cons_append, mnemonicAndOperands?, if_pos (List.all_eq_true.mp hletters c hletter)]
  cases hos : i.operands with
  | nil =>
    have hwhole : rest.takeWhile (fun c => Text.isWordChar c || c == '.') = rest :=
      List.takeWhile_eq_self_iff.mpr hword
    have hnone : rest.dropWhile (fun c => Text.isWordChar c || c == '.') = [] :=
      List.dropWhile_eq_nil_iff.mpr hword
    simp [WrittenInstruction.operandsPart, hos, hwhole, hnone, operandsText]
  | cons o os =>
    obtain ⟨hne, htrimmed⟩ := WrittenOperand.trimmed_operandsText o os
    have hblank : (Text.isWordChar ' ' || ' ' == '.') = false := by decide
    obtain ⟨hwhole, hafter⟩ := takeWhile_append_cons hword hblank (operandsText (o :: os))
    have hpart : i.operandsPart = ' ' :: operandsText (o :: os) := by simp [WrittenInstruction.operandsPart, hos]
    have hblanks : afterBlank? (' ' :: operandsText (o :: os)) = some (operandsText (o :: os)) :=
      afterBlank?_cons_trimmed rfl htrimmed.1
    have htrim : Text.trim (' ' :: operandsText (o :: os)) = operandsText (o :: os) := by
      rw [Text.trim_cons_of_isBlank (by decide), htrimmed.trim_eq]
    rw [hpart, hwhole, hafter]
    simp only [hblanks, htrim]
    rfl

/-- A mnemonic starts with a letter, which is neither blank nor a digit. -/
theorem exists_mnemonic (i : WrittenInstruction arch) :
    ∃ c rest, i.mnemonic ++ i.operandsPart = c :: rest ∧ Text.isBlank c = false ∧ Text.isDecimalDigit c = false := by
  obtain ⟨c, rest, hrest, hletter⟩ := i.isMnemonic.exists_cons
  have hall : Text.letters.all (fun c => !Text.isDecimalDigit c) = true := by decide
  have hdigit := List.all_eq_true.mp hall c hletter
  refine ⟨c, rest ++ i.operandsPart, by rw [hrest, List.cons_append], ?_, by simpa using hdigit⟩
  exact Text.isBlank_of_mem_nameChars (List.mem_append_left _ hletter)

theorem length_digits_le {n : Nat} (h : n < 100) : (Text.digits 10 n).length ≤ 2 := by
  rw [Text.digits]
  split
  · have hlast : Text.digits 10 (n / 10) = [Text.digitChar (n / 10)] := by
      rw [Text.digits, dif_neg (by omega)]
    rw [hlast]
    simp
  · simp

theorem sizeAndRest?_text (i : WrittenInstruction arch) :
    sizeAndRest? (i.sizeText ++ (i.mnemonic ++ i.operandsPart)) =
      some (i.size.map fun size => Text.digits 10 size, i.mnemonic ++ i.operandsPart) := by
  obtain ⟨c, rest, htext, hblank, hdigit⟩ := exists_mnemonic i
  rw [htext, WrittenInstruction.sizeText]
  cases i.size with
  | none => simp [sizeAndRest?, hdigit]
  | some size =>
    have hdigits : ∀ d ∈ Text.digits 10 size.val, Text.isDecimalDigit d = true := by
      intro d hd
      obtain ⟨n, hn, rfl⟩ := Text.exists_of_mem_digits (by omega) hd
      exact Text.isDecimalDigit_digitChar hn
    have hnot : Text.isDecimalDigit ' ' = false := by decide
    obtain ⟨htaken, hafter⟩ := takeWhile_append_cons hdigits hnot (c :: rest)
    have hlength := length_digits_le size.isLt
    have hblanks : afterBlank? (' ' :: c :: rest) = some (c :: rest) :=
      afterBlank?_cons_trimmed rfl (by simpa using hblank)
    have hne := Text.digits_ne_nil 10 size.val
    simp only [List.append_assoc, List.singleton_append, sizeAndRest?, htaken, hafter]
    simp [hne, hlength, hblanks]

/-- The mark of an address is dropped, and only the mark. -/
theorem dropStart?_addressText (i : WrittenInstruction arch) {c : Char} (hc : c ≠ 'x') (text : List Char) :
    (Text.dropStart? ['0', 'x'] (i.addressText ++ c :: text)).getD (i.addressText ++ c :: text) =
      Text.digits 16 i.address.toNat ++ c :: text := by
  rw [WrittenInstruction.addressText]
  cases i.marked with
  | false => simp [dropStart?_digits _ hc]
  | true => simp [Text.toList_hex, Text.dropStart?]

/-- What follows the blank behind the address does not start with a blank. -/
theorem exists_body (i : WrittenInstruction arch) :
    ∃ c rest, i.sizeText ++ (i.mnemonic ++ i.operandsPart) = c :: rest ∧ Text.isBlank c = false := by
  obtain ⟨c, rest, htext, hblank, -⟩ := exists_mnemonic i
  rw [htext, WrittenInstruction.sizeText]
  cases i.size with
  | none => exact ⟨c, rest, rfl, hblank⟩
  | some size =>
    have hdigits := Text.isWord_digits (show 2 ≤ 10 by omega) (by omega) size.val
    obtain ⟨d, digits, hd⟩ := List.exists_cons_of_ne_nil hdigits.1
    exact ⟨d, digits ++ [' '] ++ c :: rest, by simp [hd], hdigits.2 d (hd ▸ List.mem_cons_self)⟩

theorem trimStart_addressText (i : WrittenInstruction arch) (text : List Char) :
    Text.trimStart (' ' :: ' ' :: (i.addressText ++ text)) = i.addressText ++ text := by
  have hname := i.isName_addressText
  obtain ⟨c, address, hc⟩ := List.exists_cons_of_ne_nil hname.1
  have hplain : Text.isBlank c = false := hname.isWord.2 c (hc ▸ List.mem_cons_self)
  have hspace : Text.isBlank ' ' = true := rfl
  simp [Text.trimStart, hc, hplain, hspace]

theorem instruction?_row (i : WrittenInstruction arch) :
    instruction? i.row = some (.instruction (Text.digits 16 i.address.toNat)
      (i.size.map fun size => Text.digits 10 size) i.mnemonic (operandsText i.operands)) := by
  obtain ⟨c, rest, hbody, hblank⟩ := exists_body i
  have hsize := sizeAndRest?_text i
  have hmnemonic := mnemonicAndOperands?_text i
  have hhex : ∀ d ∈ Text.digits 16 i.address.toNat, (Text.digitValue? d).isSome = true := by
    intro d hd
    obtain ⟨n, hn, rfl⟩ := Text.exists_of_mem_digits (by omega) hd
    rw [Text.digitValue?_digitChar hn]
    rfl
  have hne := Text.digits_ne_nil 16 i.address.toNat
  have hblanks : afterBlank? (' ' :: c :: rest) = some (c :: rest) :=
    afterBlank?_cons_trimmed rfl (by simpa using hblank)
  rw [hbody] at hsize
  rw [WrittenInstruction.row, hbody, instruction?, trimStart_addressText]
  cases i.colon with
  | true =>
    obtain ⟨htaken, hafter⟩ := takeWhile_append_cons hhex (show (Text.digitValue? ':').isSome = false by rfl)
      (' ' :: c :: rest)
    simp only [if_true, List.singleton_append, dropStart?_addressText i (show ':' ≠ 'x' by decide), htaken, hafter]
    simp [hne, hblanks, hsize, hmnemonic]
  | false =>
    obtain ⟨htaken, hafter⟩ := takeWhile_append_cons hhex (show (Text.digitValue? ' ').isSome = false by rfl)
      (c :: rest)
    simp only [Bool.false_eq_true, if_false, List.nil_append, dropStart?_addressText i (show ' ' ≠ 'x' by decide),
      htaken, hafter]
    simp [hne, hblanks, hsize, hmnemonic]

/-- The line of an instruction has the parts that were written into it. -/
theorem read?_instruction (i : WrittenInstruction arch) :
    read? i.row = some (.instruction (Text.digits 16 i.address.toNat) (i.size.map fun size => Text.digits 10 size)
      i.mnemonic (operandsText i.operands)) := by
  rw [read?, if_pos (by rfl), instruction?_row]

end Listing.Line

/-! ### What the parts of a line mean -/

/-- Operands without the marks of a comment are read whole. -/
theorem Listing.takeWhile_comment {operands : List Char} (h : ∀ c ∈ operands, c ∉ [';', '@']) :
    operands.takeWhile (fun c => c != ';' && c != '@') = operands := by
  rw [List.takeWhile_eq_self_iff]
  intro c hc
  simpa using h c hc

namespace WrittenInstruction

/-- The instruction as it is written; without a size it has the length of a word. -/
def decoded (i : WrittenInstruction arch) : Decoded :=
  ⟨i.address, (i.size.map Fin.val).getD 4, String.ofList i.mnemonic, i.operands.map WrittenOperand.operand⟩

theorem normalizeMnemonic_eq (i : WrittenInstruction arch) : Decoded.normalizeMnemonic i.mnemonic = i.mnemonic := by
  have hlower := i.isMnemonic.1.lower_eq
  have hdot (ending : List Char) (hending : '.' ∈ ending) : Text.dropEnd? ending i.mnemonic = none :=
    Text.dropEnd?_eq_none hending (i.isMnemonic.1.not_mem rfl)
  rw [Decoded.normalizeMnemonic, hlower, hdot _ (by simp), hdot _ (by simp)]
  rfl

theorem decode_row (i : WrittenInstruction arch) :
    Listing.Builder.decode arch (Text.digits 16 i.address.toNat) (i.size.map fun size => Text.digits 10 size) i.mnemonic
      (operandsText i.operands) = .ok i.decoded := by
  have haddress := Text.unsignedWord?_digits (show 2 ≤ 16 by omega) (by omega) i.address.isLt
  rw [BitVec.ofNat_toNat, BitVec.setWidth_eq] at haddress
  have hsize (size : Fin 100) : Text.byte? (Text.digits 10 size) = some size.val := by
    have hfits : size.val < 256 := by omega
    simp [Text.byte?, Text.natural?_digits (show 2 ≤ 10 by omega) (by omega) size.val, hfits]
  have hwhole : (operandsText i.operands).takeWhile (fun c => c != ';' && c != '@') = operandsText i.operands := by
    refine Listing.takeWhile_comment fun c hc => ?_
    have hmem := WrittenOperand.mem_chars_operandsText i.operands c hc
    have hsemicolon : c ≠ ';' := fun heq => WrittenOperand.not_mem_chars rfl (heq ▸ hmem)
    have hat : c ≠ '@' := fun heq => WrittenOperand.not_mem_chars rfl (heq ▸ hmem)
    simp [hsemicolon, hat]
  unfold Listing.Builder.decode
  rw [haddress, hwhole, WrittenOperand.readAll_operandsText]
  cases hwritten : i.size with
  | none => simp [Decoded.ofText, normalizeMnemonic_eq, decoded, hwritten]
  | some size => simp [Decoded.ofText, normalizeMnemonic_eq, decoded, hwritten, hsize]

end WrittenInstruction

theorem Listing.Builder.assignment_eq {name text : List Char} {view : RegisterView} {v : Word}
    (hname : arch.register? name = some view) (hvalue : Text.value? text = some v) :
    Builder.assignment arch (name ++ '=' :: text) = .ok (view.register, v &&& arch.valueMask) := by
  have hcut := Text.cutFirst_append_cons ((Arch.isMadeOf_name hname).not_mem (c := '=') (by decide)) text
  simp only [Builder.assignment, hcut, hname, hvalue]

theorem WrittenAssignment.assignment_text (a : WrittenAssignment arch) :
    Listing.Builder.assignment arch a.text = .ok (a.view.1.register, a.value) := by
  have hvalue : Text.value? (if a.marked then (Text.hex a.value).toList else Text.digits 10 a.value.toNat) =
      some a.value := by
    cases a.marked
    · have hdecimal := Text.value?_digits a.value.isLt
      rwa [BitVec.ofNat_toNat, BitVec.setWidth_eq] at hdecimal
    · exact Text.markedWord?_hex _ a.value
  have hmask : a.value &&& arch.valueMask = a.value := by
    show Word.keepLow arch.registerBits a.value = a.value
    apply BitVec.eq_of_toNat_eq
    rw [Word.toNat_keepLow]
    exact Nat.mod_eq_of_lt a.fits
  rw [text, Listing.Builder.assignment_eq a.view.register?_name hvalue, hmask]

/-! ### Lines in their text -/

/-- A line that means something and that its line feed ends. -/
def IsRow (row : List Char) : Prop := Listing.isIdle row = false ∧ '\n' ∉ row ∧ '\r' ∉ row

theorem isIdle_of_head {row : List Char} {c : Char} (h : (Text.trim row).head? = some c) (hc : c ≠ '#') :
    Listing.isIdle row = false := by
  obtain ⟨rest, hrest⟩ := List.head?_eq_some_iff.mp h
  simp [Listing.isIdle, hrest, hc]

theorem isRow_wordRow {word : List Char} {words : List (List Char)} (hhead : word.head? ≠ some '#')
    (h : ∀ w ∈ word :: words, Text.IsWord w) : IsRow (wordRow (word :: words)) := by
  refine ⟨?_, Text.line_of_words (by decide) (by decide) h⟩
  obtain ⟨hne, hblank⟩ := h word List.mem_cons_self
  obtain ⟨c, rest, rfl⟩ := List.exists_cons_of_ne_nil hne
  have hc : c ≠ '#' := by simpa using hhead
  have hstart (text : List Char) : Listing.isIdle (c :: text) = false :=
    isIdle_of_head (Text.head?_trim (hblank c List.mem_cons_self) text) hc
  cases words with
  | nil => exact hstart _
  | cons w words =>
    rw [wordRow, List.intercalate_cons_cons]
    exact hstart _

namespace WrittenInstruction

theorem mem_sizeText (i : WrittenInstruction arch) {c : Char} (hc : c ∈ i.sizeText) : c ∈ WrittenOperand.chars := by
  rw [sizeText] at hc
  cases hwritten : i.size with
  | none => simp [hwritten] at hc
  | some size =>
    simp only [hwritten, List.mem_append, List.mem_singleton] at hc
    rcases hc with hc | rfl
    · exact WrittenOperand.mem_chars_of_isName (Text.isName_digits (by omega) (by omega) _) hc
    · exact WrittenOperand.mem_chars_of_mark (by simp)

theorem mem_operandsPart (i : WrittenInstruction arch) {c : Char} (hc : c ∈ i.operandsPart) :
    c ∈ WrittenOperand.chars := by
  rw [operandsPart] at hc
  split at hc
  · cases hc
  · rcases List.mem_cons.mp hc with rfl | hc
    · exact WrittenOperand.mem_chars_of_mark (by simp)
    · exact WrittenOperand.mem_chars_operandsText _ c hc

/-- Besides the colon behind its address a line has the characters of operands. -/
theorem mem_row (i : WrittenInstruction arch) {c : Char} (hc : c ∈ i.row) : c = ':' ∨ c ∈ WrittenOperand.chars := by
  have hblank : ' ' ∈ WrittenOperand.chars := WrittenOperand.mem_chars_of_mark (by simp)
  simp only [row, List.mem_cons, List.mem_append] at hc
  rcases hc with rfl | rfl | hc | hc | rfl | hc | hc | hc
  · exact .inr hblank
  · exact .inr hblank
  · exact .inr (WrittenOperand.mem_chars_of_isName i.isName_addressText hc)
  · split at hc
    · exact .inl (List.mem_singleton.mp hc)
    · cases hc
  · exact .inr hblank
  · exact .inr (i.mem_sizeText hc)
  · exact .inr (WrittenOperand.mem_chars_of_isName i.isMnemonic.1 hc)
  · exact .inr (i.mem_operandsPart hc)

theorem isRow (i : WrittenInstruction arch) : IsRow i.row := by
  have haddress := i.isName_addressText
  have hnot {c : Char} (hcolon : c ≠ ':') (hc : ['<', ';', '@', '\n', '\r'].contains c = true) : c ∉ i.row :=
    fun hmem => (i.mem_row hmem).elim hcolon (WrittenOperand.not_mem_chars hc)
  refine ⟨?_, hnot (by decide) rfl, hnot (by decide) rfl⟩
  obtain ⟨c, rest, hc⟩ := List.exists_cons_of_ne_nil haddress.1
  have hmem : c ∈ i.addressText := hc ▸ List.mem_cons_self
  have hhash : c ≠ '#' := fun heq => haddress.not_mem rfl (heq ▸ hmem)
  refine isIdle_of_head (c := c) ?_ hhash
  rw [row, Text.trim_cons_of_isBlank (by decide), Text.trim_cons_of_isBlank (by decide), hc, List.cons_append]
  exact Text.head?_trim (haddress.isWord.2 c hmem) _

end WrittenInstruction

theorem WrittenListing.isRow (l : WrittenListing arch) : ∀ row ∈ l.rows, IsRow row := by
  intro row hrow
  simp only [rows, List.mem_append, List.mem_cons, List.mem_flatMap, List.mem_map] at hrow
  rcases hrow with (rfl | ⟨f, -, hrow⟩) | ⟨e, -, rfl⟩
  · have hwords : ∀ w ∈ ["arch".toList, arch.name.toList], Text.IsWord w := by cases arch <;> decide
    exact isRow_wordRow (by decide) hwords
  · simp only [WrittenFunction.rows, List.mem_cons, List.mem_flatMap, WrittenBlock.rows, List.mem_map] at hrow
    rcases hrow with rfl | ⟨b, -, rfl | ⟨i, -, rfl⟩⟩
    · exact isRow_wordRow (by decide) f.isWord
    · exact isRow_wordRow (by decide) b.isWord
    · exact i.isRow
  · exact isRow_wordRow (by decide) e.isWord

/-- All lines of the text mean something. -/
theorem WrittenListing.meaningful_lines (l : WrittenListing arch) :
    (Text.lines l.text).filter (fun row => !Listing.isIdle row) = l.rows := by
  have hlines : Text.lines l.text = l.rows := Text.lines_flatMap fun row hrow => (l.isRow row hrow).2
  rw [hlines, List.filter_eq_self]
  intro row hrow
  simp [(l.isRow row hrow).1]

end CallFacts
