import CallFacts.Observed
import CallFacts.Proofs.ProperFacts
import CallFacts.Proofs.Soundness
import CallFacts.Proofs.WrittenText
import CallFacts.Render

/-!
# Reading the relation back

The rows of the relation name an address, a register and a value, and so do the lines of observed values.
The first, second and last column of the rows, joined by blanks, are a text of observed values, also when
the addresses get back mode bits. Reading it succeeds, gives the values of the facts in their order, and
every one of them agrees with its fact.
-/

namespace CallFacts

/-! ### From rows to observed values -/

namespace Render

/-- The columns of a row of the relation. -/
def columns (row : List Char) : List (List Char) := row.splitOn '\t'

/-- The address that a column writes. -/
def addressOf? (column : List Char) : Option Word := (Text.dropStart? ['0', 'x'] column).bind (Text.unsignedWord? 16)

/-- The column with further bits set in its address. -/
def withBits (bits : Word) (column : List Char) : List Char :=
  match addressOf? column with
  | some address => (Text.hex (address ||| bits)).toList
  | none => column

/-- The first, second and last column of a row, with further bits in the address. -/
def observedLine (bits : Word) (row : List Char) : List Char :=
  [' '].intercalate [withBits bits ((columns row).headD []), ((columns row)[1]?).getD [], (columns row).getLastD []]

/-- The observed values that a relation lists, where the address of each row gets bits of its own. -/
def observedText (bits : Nat → Word) (relation : List Char) : List Char :=
  ((Text.lines relation).mapIdx fun i row => observedLine (bits i) row).flatMap (· ++ ['\n'])

end Render

/-! ### Registers and values -/

theorem Arch.normalize_or (arch : Arch) (a b : Word) :
    arch.normalize (a ||| b) = arch.normalize a ||| arch.normalize b := by
  ext i
  simp [normalize, Bool.and_or_distrib_right]

/-- The name of a register names the register. -/
theorem Arch.register?_registerName {arch : Arch} {r : Register} (h : r.val < arch.registerCount) :
    ∃ bits, arch.register? (arch.registerName r).toList = some ⟨r, bits⟩ := by
  have harm32 : ∀ r : Register, r.val < 16 → arm32.register? (arm32.registerName r).toList = some ⟨r, 32⟩ := by
    decide +kernel
  have harm64 : ∀ r : Register, r.val < 32 → arm64.register? (arm64.registerName r).toList = some ⟨r, 64⟩ := by
    decide +kernel
  cases arch with
  | arm32 => exact ⟨32, harm32 r h⟩
  | arm64 => exact ⟨64, harm64 r h⟩

/-- The name of a register is a word of letters and digits. -/
theorem Arch.registerName_plain {arch : Arch} {r : Register} (h : r.val < arch.registerCount) :
    Text.IsWord (arch.registerName r).toList ∧ (arch.registerName r).toList.all Text.isWordChar = true := by
  have harm32 : ∀ r : Register, r.val < 16 → Text.IsWord (arm32.registerName r).toList ∧
      (arm32.registerName r).toList.all Text.isWordChar = true := by decide +kernel
  have harm64 : ∀ r : Register, r.val < 32 → Text.IsWord (arm64.registerName r).toList ∧
      (arm64.registerName r).toList.all Text.isWordChar = true := by decide +kernel
  cases arch with
  | arm32 => exact harm32 r h
  | arm64 => exact harm64 r h

theorem Arch.registerBits_pos (arch : Arch) : 0 < arch.registerBits := by
  cases arch <;> decide

/-- The reading at a width is that of the low bits: what is shifted back carries their sign. -/
theorem signedReading_of_pos {bits : Nat} (h : 0 < bits) (value : Word) :
    signedReading value bits = (value.setWidth (min bits 64)).toInt := by
  rw [signedReading]
  split
  · rw [Nat.min_eq_right (by omega), BitVec.setWidth_eq]
  · have hle : bits ≤ 64 := by omega
    rw [Nat.min_eq_left hle, ← BitVec.toInt_signExtend_of_le hle, ← Word.sshiftRight_shiftLeft h hle]

theorem signedReading_eq {bits : Nat} (hpos : 0 < bits) (hle : bits ≤ 64) (value : Word) :
    signedReading value bits = (value.setWidth bits).toInt := by
  rw [signedReading_of_pos hpos, Nat.min_eq_left hle]

/-- A two's complement reading has a magnitude that fits a word. -/
theorem natAbs_signedReading_lt {bits : Nat} (hpos : 0 < bits) (hle : bits ≤ 64) (value : Word) :
    (signedReading value bits).natAbs < 2 ^ 64 := by
  have hupper := BitVec.toInt_lt (x := value.setWidth bits)
  have hlower := BitVec.le_toInt (value.setWidth bits)
  have hpow : (2 : Int) ^ (bits - 1) ≤ 2 ^ 63 := by exact_mod_cast Nat.pow_le_pow_right (by omega) (by omega)
  rw [signedReading_eq hpos hle]
  omega

/-- The pattern of a reading, cut to the width of the reading, reads the same. -/
theorem signedReading_keepLow_ofInt {bits : Nat} (hpos : 0 < bits) (hle : bits ≤ 64) (value : Word) :
    signedReading (Word.keepLow bits (BitVec.ofInt 64 (signedReading value bits))) bits = signedReading value bits := by
  rw [signedReading_eq hpos hle, signedReading_eq hpos hle, Word.keepLow_eq_setWidth, BitVec.setWidth_setWidth_of_le _ hle,
    BitVec.setWidth_eq, Word.setWidth_ofInt_of_le hle, BitVec.ofInt_toInt]

/-- The columns of the row of a fact. -/
def Render.fieldsOf (arch : Arch) (f : Fact) : List (List Char) :=
  [(Text.hex f.site.address).toList, (arch.registerName f.site.register).toList, (Text.hex f.site.address).toList,
    ['N', 'O', 'N', 'E'], ['0'], (Text.decimal f.signed).toList]

/-! ### Rows -/

namespace Render

variable {arch : Arch} {f : Fact} {facts : List Fact}

theorem toList_relationRow : (relationRow arch f).toList = ['\t'].intercalate (fieldsOf arch f) := by
  rw [relationRow, String.toList_intercalate]
  rfl

theorem isWord_of_mem_fieldsOf (h : f.site.register.val < arch.registerCount) {w : List Char}
    (hw : w ∈ fieldsOf arch f) : Text.IsWord w := by
  simp only [fieldsOf, List.mem_cons, List.not_mem_nil, or_false] at hw
  rcases hw with rfl | rfl | rfl | rfl | rfl | rfl
  · exact Text.isWord_hex _
  · exact (Arch.registerName_plain h).1
  · exact Text.isWord_hex _
  · decide
  · decide
  · exact Text.isWord_decimal _

/-- Lines that are written one after the other, each with its end. -/
theorem toList_lines {α : Type} (text : α → String) (xs : List α) :
    (String.join (xs.map fun x => line (text x))).toList =
      (xs.map fun x => (text x).toList).flatMap (· ++ ['\n']) := by
  simp [line, String.toList_join, List.flatMap_map]

/-- The lines of the relation are the rows of the facts. -/
theorem lines_relation (h : ∀ f ∈ facts, f.site.register.val < arch.registerCount) :
    Text.lines (relation arch facts).toList = facts.map fun f => ['\t'].intercalate (fieldsOf arch f) := by
  simp only [relation, toList_lines, toList_relationRow]
  rw [Text.lines_flatMap]
  intro row hrow
  obtain ⟨f, hf, rfl⟩ := List.mem_map.mp hrow
  exact Text.line_of_words (by decide) (by decide) fun w => isWord_of_mem_fieldsOf (h f hf)

theorem columns_row (h : f.site.register.val < arch.registerCount) :
    columns (['\t'].intercalate (fieldsOf arch f)) = fieldsOf arch f := by
  rw [columns, List.splitOn_intercalate]
  · intro w hw
    exact (isWord_of_mem_fieldsOf h hw).not_mem (by decide)
  · simp [fieldsOf]

theorem withBits_hex (bits address : Word) :
    withBits bits (Text.hex address).toList = (Text.hex (address ||| bits)).toList := by
  have hread : addressOf? (Text.hex address).toList = some address := by
    rw [addressOf?, Text.toList_hex]
    simp only [Text.dropStart?, if_true, Option.bind_some]
    rw [Text.unsignedWord?_digits (by omega) (by omega) address.isLt, BitVec.ofNat_toNat, BitVec.setWidth_eq]
  rw [withBits, hread]

/-- The words of a line of observed values. -/
def observedWords (arch : Arch) (bits : Word) (f : Fact) : List (List Char) :=
  [(Text.hex (f.site.address ||| bits)).toList, (arch.registerName f.site.register).toList,
    (Text.decimal f.signed).toList]

theorem observedLine_row (h : f.site.register.val < arch.registerCount) (bits : Word) :
    observedLine bits (['\t'].intercalate (fieldsOf arch f)) = [' '].intercalate (observedWords arch bits f) := by
  rw [observedLine, columns_row h]
  show [' '].intercalate [withBits bits (Text.hex f.site.address).toList, _, _] = _
  rw [withBits_hex]
  rfl

example : observedLine 1 "0x100c\tr0\t0x100c\tNONE\t0\t-1".toList = "0x100d r0 -1".toList := by decide +kernel

theorem isWord_of_mem_observedWords (h : f.site.register.val < arch.registerCount) {bits : Word} {w : List Char}
    (hw : w ∈ observedWords arch bits f) : Text.IsWord w := by
  simp only [observedWords, List.mem_cons, List.not_mem_nil, or_false] at hw
  rcases hw with rfl | rfl | rfl
  · exact Text.isWord_hex _
  · exact (Arch.registerName_plain h).1
  · exact Text.isWord_decimal _

/-- The lines of the observed values that a relation lists. -/
theorem lines_observedText (h : ∀ f ∈ facts, f.site.register.val < arch.registerCount) (bits : Nat → Word) :
    Text.lines (observedText bits (relation arch facts).toList) =
      facts.mapIdx fun i f => [' '].intercalate (observedWords arch (bits i) f) := by
  have hlines : (Text.lines (relation arch facts).toList).mapIdx (fun i row => observedLine (bits i) row) =
      facts.mapIdx fun i f => [' '].intercalate (observedWords arch (bits i) f) := by
    rw [lines_relation h]
    apply List.ext_getElem
    · simp
    · intro i hi hi'
      simp only [List.getElem_mapIdx, List.getElem_map]
      exact observedLine_row (h _ (List.getElem_mem _)) _
  rw [observedText, hlines, Text.lines_flatMap]
  intro line hline
  obtain ⟨i, hi, rfl⟩ := List.mem_mapIdx.mp hline
  exact Text.line_of_words (by decide) (by decide) fun w => isWord_of_mem_observedWords (h _ (List.getElem_mem _))

end Render

/-! ### Lines -/

namespace Observed

variable {arch : Arch} {f : Fact}

theorem isSome_digitValue?_of_mem_digits {n : Nat} {c : Char} (h : c ∈ Text.digits 16 n) :
    (Text.digitValue? c).isSome = true := by
  obtain ⟨d, hd, rfl⟩ := Text.exists_of_mem_digits (by omega) h
  rw [Text.digitValue?_digitChar hd]
  rfl

theorem addressDigits?_hex (a : Word) : addressDigits? (Text.hex a).toList = some (Text.digits 16 a.toNat) := by
  have hall : (Text.digits 16 a.toNat).all (fun c => (Text.digitValue? c).isSome) = true := by
    simpa using fun c hc => isSome_digitValue?_of_mem_digits hc
  rw [addressDigits?, Text.toList_hex]
  simp [Text.dropStart?, Text.digits_ne_nil, hall]

theorem all_isDecimalDigit_digits (n : Nat) : (Text.digits 10 n).all Text.isDecimalDigit = true := by
  rw [List.all_eq_true]
  intro c hc
  obtain ⟨d, hd, rfl⟩ := Text.exists_of_mem_digits (by omega) hc
  exact Text.isDecimalDigit_digitChar hd

theorem hasValueForm_decimal (n : Int) : hasValueForm (Text.decimal n).toList = true := by
  have hdigits := all_isDecimalDigit_digits n.natAbs
  rw [Text.toList_decimal]
  split
  · simp [hasValueForm, hdigits, Text.digits_ne_nil]
  · have hsign : (Text.digits 10 n.natAbs).head? ≠ some '-' := by
      intro hhead
      exact (Text.not_mem_digits (by omega) (by omega) _).2.1 (List.mem_of_head? hhead)
    simp [hasValueForm, hdigits, hsign, Text.digits_ne_nil]

/-- What a fact reads as when it is observed: the pattern of its value in a full word. -/
def ofFact (f : Fact) : Observed := ⟨f.site, BitVec.ofInt 64 f.signed⟩

theorem readLine_observedWords {tracked : RegisterSet} (h : f.Proper arch tracked) {bits : Word}
    (hbits : arch.normalize bits = 0) :
    readLine arch ([' '].intercalate (Render.observedWords arch bits f)) = .ok (ofFact f) := by
  have hfields : fields? ([' '].intercalate (Render.observedWords arch bits f)) =
      some (Text.digits 16 (f.site.address ||| bits).toNat, (arch.registerName f.site.register).toList,
        (Text.decimal f.signed).toList) := by
    rw [fields?, Text.words_intercalate (by decide) fun w => Render.isWord_of_mem_observedWords h.register]
    simp only [Render.observedWords, addressDigits?_hex]
    simp [(Arch.registerName_plain h.register).2, hasValueForm_decimal]
  obtain ⟨width, hregister⟩ := Arch.register?_registerName h.register
  have haddress := Text.unsignedWord?_digits (show 2 ≤ 16 by omega) (by omega) (f.site.address ||| bits).isLt
  have hvalue : Text.value? (Text.decimal f.signed).toList = some (BitVec.ofInt 64 f.signed) := by
    apply Text.value?_decimal
    rw [Fact.signed, h.bits]
    exact natAbs_signedReading_lt arch.registerBits_pos arch.registerBits_le _
  have hnormal : arch.normalize (f.site.address ||| bits) = f.site.address := by
    rw [Arch.normalize_or, hbits, h.address]
    exact BitVec.or_zero
  rw [readLine, hfields]
  simp only [haddress, hregister, hvalue, BitVec.ofNat_toNat, BitVec.setWidth_eq, hnormal]
  rfl

theorem agrees_ofFact {tracked : RegisterSet} (h : f.Proper arch tracked) : (ofFact f).agrees f = true := by
  have hpos := arch.registerBits_pos
  have hle := arch.registerBits_le
  rw [← h.bits] at hpos hle
  apply decide_eq_true
  exact signedReading_keepLow_ofInt hpos hle f.value

/-- A text of lines that mean something and can be read is read. -/
theorem readAll_eq_ok {text : List Char} {os : List Observed}
    (h : List.Forall₂ (fun line o => (Text.trim line).head? = some '0' ∧ readLine arch line = .ok o)
      (Text.lines text) os) : readAll arch text = .ok os := by
  rw [readAll]
  generalize Text.lines text = ls at h
  generalize (1 : Nat) = number
  induction h generalizing number with
  | nil => rfl
  | @cons line o ls os hline _ ih =>
    obtain ⟨hhead, hread⟩ := hline
    have hnonempty : Text.trim line ≠ [] := by
      intro hnil
      rw [hnil] at hhead
      cases hhead
    rw [List.zipIdx_cons, List.filter_cons_of_pos (by simp [hhead, hnonempty]), List.mapM_cons]
    simp only [hread, ih]
    rfl

/-- A line of observed values starts with the mark of its address. -/
theorem head?_trim_observedWords (bits : Word) :
    (Text.trim ([' '].intercalate (Render.observedWords arch bits f))).head? = some '0' := by
  have hstart : ∃ rest, [' '].intercalate (Render.observedWords arch bits f) = '0' :: rest := by
    rw [Render.observedWords, List.intercalate_cons_cons, Text.toList_hex]
    exact ⟨_, rfl⟩
  obtain ⟨rest, hrest⟩ := hstart
  rw [hrest]
  exact Text.head?_trim (by decide) rest

end Observed

/-! ### Tables -/

theorem FactTable.get?_eq_some_of_mem {t : FactTable} {f : Fact} (h : f ∈ t.facts) : t.get? f.site = some f := by
  obtain ⟨before, after, heq⟩ := List.append_of_mem h
  have hascending := t.ascending
  rw [heq, List.pairwise_append] at hascending
  rw [get?, heq, List.find?_append, List.find?_eq_none.mpr, List.find?_cons_of_pos (by simp)]
  · rfl
  · intro g hg
    have hlt := hascending.2.2 g hg f List.mem_cons_self
    simp only [decide_eq_true_eq]
    intro hsite
    rw [hsite] at hlt
    omega

/-- The facts of a table, observed, agree with the table. -/
theorem Verification.ofObserved_facts {t : FactTable} (h : ∀ f ∈ t.facts, (Observed.ofFact f).agrees f = true) :
    ofObserved t (t.facts.map Observed.ofFact) = ⟨t.facts.map Observed.ofFact, [], []⟩ := by
  have hget {f : Fact} (hf : f ∈ t.facts) : t.get? (Observed.ofFact f).site = some f :=
    FactTable.get?_eq_some_of_mem hf
  rw [ofObserved_eq_filter, Verification.mk.injEq]
  refine ⟨?_, ?_, ?_⟩
  · rw [List.filter_eq_self]
    intro o ho
    obtain ⟨f, hf, rfl⟩ := List.mem_map.mp ho
    simp [hget hf, h f hf]
  · rw [List.filterMap_eq_nil_iff]
    intro o ho
    obtain ⟨f, hf, rfl⟩ := List.mem_map.mp ho
    simp [contradicted?, hget hf, h f hf]
  · rw [List.filter_eq_nil_iff]
    intro o ho
    obtain ⟨f, hf, rfl⟩ := List.mem_map.mp ho
    simp [hget hf]

/-- The relation of a report, read back as observed values with any mode bits in the addresses, gives one
value for each fact, in the order of the facts, and the table confirms them all. -/
theorem Program.relation_confirms_itself (p : Program) (c : Config) (bits : Nat → Word)
    (hbits : ∀ i, p.arch.normalize (bits i) = 0) :
    let t := (p.analyze c).facts
    let os := t.facts.map Observed.ofFact
    Observed.readAll p.arch (Render.observedText bits (t.render p.arch .relation).toList) = .ok os ∧
      Verification.ofObserved t os = ⟨os, [], []⟩ := by
  intro t os
  have hproper {f : Fact} (hf : f ∈ t.facts) : f.Proper p.arch (c.trackedFor p.arch) := proper_of_mem_facts hf
  have hlines := Render.lines_observedText (fun f hf => (hproper hf).register) bits
  refine ⟨Observed.readAll_eq_ok ?_, Verification.ofObserved_facts fun f hf => Observed.agrees_ofFact (hproper hf)⟩
  show List.Forall₂ _ (Text.lines (Render.observedText bits (Render.relation p.arch t.facts).toList)) os
  rw [hlines, List.forall₂_iff_get]
  refine ⟨by simp [os], ?_⟩
  intro i hi hi'
  simp only [os, List.get_eq_getElem, List.getElem_mapIdx, List.getElem_map]
  exact ⟨Observed.head?_trim_observedWords _, Observed.readLine_observedWords (hproper (List.getElem_mem _)) (hbits i)⟩

/-- The constant -1 is a fact, and observed with the mode bit in its address it is confirmed. -/
theorem Program.mixedWidths_relation_confirmed :
    (∀ _ : Nat, Arch.arm32.normalize 1 = 0) ∧
      ∃ os, Observed.readAll .arm32 (Render.observedText (fun _ => 1)
          ((mixedWidths.analyze {}).facts.render .arm32 .relation).toList) = .ok os ∧
        ⟨⟨0x100c, 0⟩, -1⟩ ∈ os ∧ Verification.ofObserved (mixedWidths.analyze {}).facts os = ⟨os, [], []⟩ := by
  have hbits : ∀ _ : Nat, Arch.arm32.normalize 1 = 0 := fun _ => by decide
  have hfact : ⟨⟨0x100c, 0⟩, 0xffffffff, 32⟩ ∈ (mixedWidths.analyze {}).facts.facts := by decide +kernel
  obtain ⟨hread, hconfirmed⟩ := relation_confirms_itself mixedWidths {} (fun _ => 1) hbits
  have hobserved : ⟨⟨0x100c, 0⟩, -1⟩ ∈ (mixedWidths.analyze {}).facts.facts.map Observed.ofFact :=
    List.mem_map.mpr ⟨_, hfact, by decide⟩
  exact ⟨hbits, _, hread, hobserved, hconfirmed⟩

end CallFacts
