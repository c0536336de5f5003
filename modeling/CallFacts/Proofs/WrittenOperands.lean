import CallFacts.Proofs.SpelledOperands

/-!
# Operands that read back as they were written

An operand is written in one way, or in one of a few where a listing may choose: a shift has a name, a
register list has items, an address may have its mark. Operands are joined by a comma and a blank.
-/

namespace CallFacts

/-! ### The syntax of operands -/

/-- A view of one of the registers. -/
abbrev Arch.View (arch : Arch) := { view : RegisterView // view ∈ arch.views }

namespace Arch.View

variable {arch : Arch}

def name (view : arch.View) : List Char := arch.viewName view.1

theorem isName (view : arch.View) : Text.IsName view.name := isName_viewName view.2

theorem isNameOf (view : arch.View) : arch.IsNameOf view.name view.1 := isNameOf_viewName view.2

theorem register?_name (view : arch.View) : arch.register? view.name = some view.1 := view.isNameOf.register?

end Arch.View

/-- One of the names of a kind of shift. -/
structure ShiftName where
  name : String
  kind : ShiftKind
  known : ShiftKind.ofName? name = some kind

/-- An item of a register list. -/
inductive ListItem (arch : Arch) where
  | single (view : arch.View)
  | range (first last : arch.View) (ascending : first.1.register ≤ last.1.register)

namespace ListItem

variable {arch : Arch}

def text : ListItem arch → List Char
  | single view => view.name
  | range first last _ => first.name ++ '-' :: last.name

def registers : ListItem arch → RegisterSet
  | single view => RegisterSet.insert ∅ view.1.register
  | range first last _ => RegisterSet.range first.1.register last.1.register

/-- The first and the last register of an item. -/
def bounds : ListItem arch → Register × Register
  | single view => (view.1.register, view.1.register)
  | range first last _ => (first.1.register, last.1.register)

theorem spellsRange (item : ListItem arch) : Operand.SpellsRange arch item.text item.bounds := by
  cases item with
  | single view => exact .single view.isNameOf
  | range first last ascending => exact .ascending first.isNameOf last.isNameOf ascending

theorem mem_registers (item : ListItem arch) {r : Register} :
    r ∈ item.registers ↔ item.bounds.1 ≤ r ∧ r ≤ item.bounds.2 := by
  cases item with
  | single view => simp [registers, bounds, Fin.le_antisymm_iff, and_comm]
  | range first last ascending => simp [registers, bounds]

end ListItem

/-- An operand as it is written. -/
inductive WrittenOperand (arch : Arch) where
  | register (view : arch.View)
  | writeback (view : arch.View)
  | zero (whole : Bool) (has : arch = .arm64)
  | immediate (value : Word)
  | shift (name : ShiftName) (amount : Fin 256)
  | memory (base : arch.View) (updatesBase : Bool)
  | registerList (items : List (ListItem arch))
  | target (address : Word) (marked : Bool)

namespace WrittenOperand

variable {arch : Arch}

def text : WrittenOperand arch → List Char
  | register view => view.name
  | writeback view => view.name ++ ['!']
  | zero whole _ => (if whole then 'x' else 'w') :: ['z', 'r']
  | immediate value => '#' :: (Text.hex value).toList
  | shift name amount => name.name.toList ++ ' ' :: '#' :: Text.digits 10 amount
  | memory base updatesBase => '[' :: base.name ++ ']' :: if updatesBase then ['!'] else []
  | registerList items => '{' :: [',', ' '].intercalate (items.map ListItem.text) ++ ['}']
  | target address marked => if marked then (Text.hex address).toList else Text.digits 16 address.toNat

/-- What the text stands for. -/
def operand : WrittenOperand arch → Operand
  | register view => .register view.1
  | writeback view => .writeback view.1
  | zero whole _ => .zero (if whole then 64 else 32)
  | immediate value => .immediate value
  | shift name amount => .shift name.kind amount
  | memory base updatesBase => .memory (some base.1) updatesBase
  | registerList items => .registerList ((items.map ListItem.registers).foldl (· ∪ ·) ∅)
  | target address _ => .target address

end WrittenOperand

/-- Operands with a comma and a blank between them. -/
def operandsText {arch : Arch} (os : List (WrittenOperand arch)) : List Char :=
  [',', ' '].intercalate (os.map WrittenOperand.text)

/-! ### All operands -/

namespace WrittenOperand

variable {arch : Arch}

/-- The characters of operands. -/
def chars : List Char := Text.nameChars ++ [' ', '#', ',', '-', '[', ']', '{', '}', '!']

theorem mem_chars_of_isName {w : List Char} (h : Text.IsName w) {c : Char} (hc : c ∈ w) : c ∈ chars :=
  List.mem_append_left _ (h.2 c hc)

theorem mem_chars_of_mark {c : Char} (hc : c ∈ [' ', '#', ',', '-', '[', ']', '{', '}', '!']) : c ∈ chars :=
  List.mem_append_right _ hc

theorem mem_chars_list (items : List (ListItem arch)) :
    ∀ c ∈ [',', ' '].intercalate (items.map ListItem.text), c ∈ chars := by
  refine Text.forall_mem_intercalate (mem_chars_of_mark (by simp)) (mem_chars_of_mark (by simp)) ?_
  simp only [List.mem_map]
  rintro _ ⟨item, -, rfl⟩ c hc
  cases item with
  | single view => exact mem_chars_of_isName view.isName hc
  | range first last _ =>
    rcases List.mem_append.mp hc with hc | hc
    · exact mem_chars_of_isName first.isName hc
    · rcases List.mem_cons.mp hc with rfl | hc
      · exact mem_chars_of_mark (by simp)
      · exact mem_chars_of_isName last.isName hc

theorem isName_zero (whole : Bool) : Text.IsName [if whole then 'x' else 'w', 'z', 'r'] := by
  cases whole <;> decide

theorem isName_target (address : Word) (marked : Bool) :
    Text.IsName (target address marked : WrittenOperand arch).text := by
  cases marked
  · exact Text.isName_digits (by omega) (by omega) _
  · exact Text.isName_hex address

theorem mem_chars (o : WrittenOperand arch) : ∀ c ∈ o.text, c ∈ chars := by
  intro c hc
  cases o with
  | register view => exact mem_chars_of_isName view.isName hc
  | writeback view =>
    rcases List.mem_append.mp hc with hc | hc
    · exact mem_chars_of_isName view.isName hc
    · exact mem_chars_of_mark (by simp [List.mem_singleton.mp hc])
  | zero whole _ => exact mem_chars_of_isName (isName_zero whole) hc
  | immediate value =>
    rcases List.mem_cons.mp hc with rfl | hc
    · exact mem_chars_of_mark (by simp)
    · exact mem_chars_of_isName (Text.isName_hex value) hc
  | shift name amount =>
    simp only [text, List.mem_append, List.mem_cons] at hc
    rcases hc with hc | rfl | rfl | hc
    · exact mem_chars_of_isName (Operand.isName_of_known name.known) hc
    · exact mem_chars_of_mark (by simp)
    · exact mem_chars_of_mark (by simp)
    · exact mem_chars_of_isName (Text.isName_digits (by omega) (by omega) _) hc
  | memory base updatesBase =>
    simp only [text, List.cons_append, List.mem_append, List.mem_cons] at hc
    rcases hc with rfl | hc | rfl | hc
    · exact mem_chars_of_mark (by simp)
    · exact mem_chars_of_isName base.isName hc
    · exact mem_chars_of_mark (by simp)
    · cases updatesBase
      · cases hc
      · exact mem_chars_of_mark (by simp [List.mem_singleton.mp hc])
  | registerList items =>
    simp only [text, List.cons_append, List.mem_append, List.mem_cons, List.not_mem_nil, or_false] at hc
    rcases hc with rfl | hc | rfl
    · exact mem_chars_of_mark (by simp)
    · exact mem_chars_list items c hc
    · exact mem_chars_of_mark (by simp)
  | target address marked => exact mem_chars_of_isName (isName_target address marked) hc

/-- What ends an operand or the operands of a line is in none. -/
theorem not_mem_chars {c : Char} (hc : ['<', ';', '@', '\n', '\r'].contains c = true) : c ∉ chars := by
  have hall : chars.all (fun c => !(['<', ';', '@', '\n', '\r'].contains c)) = true := by decide
  intro hmem
  have hplain := List.all_eq_true.mp hall c hmem
  rw [hc] at hplain
  cases hplain

/-! ### Reading operands back -/

/-- The way in which an operand is written is one of its spellings. -/
theorem spells (o : WrittenOperand arch) : Operand.Spells arch o.text o.operand := by
  cases o with
  | register view => exact .register view.isNameOf
  | writeback view => exact .writeback view.isNameOf
  | zero whole has =>
    cases has
    cases whole
    · exact .zero rfl (by decide)
    · exact .zero rfl (by decide)
  | immediate value => exact .immediate value
  | shift name amount =>
    have hlower := (Operand.isName_of_known name.known).lower_eq
    refine .shift ?_ amount
    rw [hlower, String.ofList_toList]
    exact ShiftKind.mem_names_of_ofName? name.known
  | memory base updatesBase =>
    cases updatesBase
    · exact .memory base.isNameOf
    · exact .updatedMemory base.isNameOf
  | registerList items =>
    have hitems : List.Forall₂ (Operand.SpellsRange arch) (items.map ListItem.text) (items.map ListItem.bounds) := by
      rw [List.forall₂_map_left_iff, List.forall₂_map_right_iff, List.forall₂_same]
      exact fun item _ => item.spellsRange
    refine .registerList hitems fun r => ?_
    simp [RegisterSet.mem_foldl_union, ListItem.mem_registers]
  | target address marked =>
    cases marked
    · exact .target address
    · exact .markedTarget address

/-! ### Lists of operands -/

theorem mem_chars_operandsText (os : List (WrittenOperand arch)) : ∀ c ∈ operandsText os, c ∈ chars := by
  refine Text.forall_mem_intercalate (mem_chars_of_mark (by simp)) (mem_chars_of_mark (by simp)) ?_
  simp only [List.mem_map]
  rintro _ ⟨o, -, rfl⟩
  exact o.mem_chars

theorem trimmed_operandsText (o : WrittenOperand arch) (os : List (WrittenOperand arch)) :
    operandsText (o :: os) ≠ [] ∧ Text.Trimmed (operandsText (o :: os)) := by
  refine Text.trimmed_intercalate (by simp) ?_
  simp only [List.mem_map]
  rintro _ ⟨o, -, rfl⟩
  exact ⟨o.spells.shape.1, o.spells.shape.2.1⟩

/-- Operands are read back from their text. -/
theorem readAll_operandsText (os : List (WrittenOperand arch)) :
    Operand.readAll arch (operandsText os) = .ok (os.map operand) := by
  refine Operand.readAll_of_spells ?_
  rw [List.forall₂_map_left_iff, List.forall₂_map_right_iff, List.forall₂_same]
  exact fun o _ => o.spells

end WrittenOperand

end CallFacts
