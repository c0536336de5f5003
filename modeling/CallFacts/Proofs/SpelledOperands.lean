import CallFacts.Proofs.OperandErrors
import CallFacts.Proofs.ListItems

/-!
# Operands in any of their spellings

A listing may choose between the names of a register, between capitals and small letters, between single registers and
ranges in a list, and whether an address has its mark. Whatever it chooses, no operand is taken for one of another kind,
and operands that are joined by a comma and a blank are read as the operands that they spell.
-/

namespace CallFacts

namespace Text

variable {text : List Char}

/-- A text that is a name in small letters is made of letters and digits. -/
theorem isMadeOf_of_lower (h : IsName (lower text)) : IsMadeOf ('-' :: wordChars) text := by
  refine ⟨fun hnil => h.1 (by rw [hnil]; rfl), fun c hc => ?_⟩
  have hlower : c.toLower ∈ nameChars := h.2 _ (List.mem_map_of_mem hc)
  have hword : c.toLower ∈ wordChars := List.mem_append_left _ (List.mem_cons_of_mem _ hlower)
  exact List.mem_cons_of_mem _ (mem_wordChars_of_toLower hword)

end Text

/-! ### Names of registers -/

namespace Arch

variable {arch : Arch} {name : List Char} {view : RegisterView}

/-- The names of registers besides the names of their views. -/
def aliases : Arch → List (String × RegisterView)
  | arm32 =>
    [("r13", ⟨13, 32⟩), ("r14", ⟨14, 32⟩), ("r15", ⟨15, 32⟩), ("ip", ⟨12, 32⟩), ("fp", ⟨11, 32⟩), ("sb", ⟨9, 32⟩)]
  | arm64 => [("fp", ⟨29, 64⟩), ("lr", ⟨30, 64⟩)]

/-- A name of a view, in any case. -/
def IsNameOf (arch : Arch) (name : List Char) (view : RegisterView) : Prop :=
  (view ∈ arch.views ∧ Text.lower name = arch.viewName view) ∨ (String.ofList (Text.lower name), view) ∈ arch.aliases

theorem isNameOf_viewName (h : view ∈ arch.views) : arch.IsNameOf (arch.viewName view) view :=
  .inl ⟨h, (isName_viewName h).lower_eq⟩

theorem IsNameOf.mem_views (h : arch.IsNameOf name view) : view ∈ arch.views := by
  have hall (arch : Arch) : ∀ entry ∈ arch.aliases, entry.2 ∈ arch.views := by
    cases arch <;> decide +kernel
  rcases h with ⟨h, -⟩ | h
  · exact h
  · exact hall arch _ h

theorem IsNameOf.register? (h : arch.IsNameOf name view) : arch.register? name = some view := by
  have hall (arch : Arch) : ∀ entry ∈ arch.aliases, arch.register? entry.1.toList = some entry.2 := by
    cases arch <;> decide +kernel
  rw [← register?_lower]
  rcases h with ⟨h, hname⟩ | h
  · rw [hname, register?_viewName h]
  · simpa using hall arch _ h

end Arch

/-- The names of a kind of shift. -/
def ShiftKind.names : ShiftKind → List String
  | lsl => ["lsl"]
  | lsr => ["lsr"]
  | asr => ["asr"]
  | ror => ["ror"]
  | rrx => ["rrx"]
  | extend => ["uxtb", "uxth", "uxtw", "uxtx", "sxtb", "sxth", "sxtw", "sxtx"]

theorem ShiftKind.ofName?_of_mem_names {name : String} {kind : ShiftKind} (h : name ∈ kind.names) :
    ofName? name = some kind := by
  have hall (kind : ShiftKind) : ∀ name ∈ kind.names, ofName? name = some kind := by
    cases kind <;> decide
  exact hall kind name h

theorem ShiftKind.mem_names_of_ofName? {name : String} {kind : ShiftKind} (h : ofName? name = some kind) :
    name ∈ kind.names := by
  have hall (kind : ShiftKind) : ∀ name ∈ Operand.shiftNames, ofName? name = some kind → name ∈ kind.names := by
    cases kind <;> decide
  exact hall kind name (Operand.mem_shiftNames h) h

namespace Operand

variable {arch : Arch} {text name : List Char} {view : RegisterView} {operand : Operand}

/-! ### Spellings -/

/-- An item of a register list with the first and the last of its registers. -/
inductive SpellsRange (arch : Arch) : List Char → Register × Register → Prop
  | single {name : List Char} {view : RegisterView} (h : arch.IsNameOf name view) :
    SpellsRange arch name (view.register, view.register)
  | ascending {first last : List Char} {low high : RegisterView} (hlow : arch.IsNameOf first low)
    (hhigh : arch.IsNameOf last high) (hle : low.register ≤ high.register) :
    SpellsRange arch (first ++ '-' :: last) (low.register, high.register)

/-- A text that stands for an operand: names are in any case, numbers in small letters. -/
inductive Spells (arch : Arch) : List Char → Operand → Prop
  | register {name : List Char} {view : RegisterView} (h : arch.IsNameOf name view) : Spells arch name (.register view)
  | writeback {name : List Char} {view : RegisterView} (h : arch.IsNameOf name view) :
    Spells arch (name ++ ['!']) (.writeback view)
  | zero {name : List Char} {bits : Nat} (harch : arch = .arm64)
    (h : (String.ofList (Text.lower name), bits) ∈ [("xzr", 64), ("wzr", 32)]) : Spells arch name (.zero bits)
  | immediate (value : Word) : Spells arch ('#' :: (Text.hex value).toList) (.immediate value)
  | shift {name : List Char} {kind : ShiftKind} (h : String.ofList (Text.lower name) ∈ kind.names) (amount : Fin 256) :
    Spells arch (name ++ ' ' :: '#' :: Text.digits 10 amount) (.shift kind amount)
  | memory {name : List Char} {view : RegisterView} (h : arch.IsNameOf name view) :
    Spells arch ('[' :: name ++ [']']) (.memory (some view) false)
  | updatedMemory {name : List Char} {view : RegisterView} (h : arch.IsNameOf name view) :
    Spells arch ('[' :: name ++ [']', '!']) (.memory (some view) true)
  | registerList {items : List (List Char)} {ranges : List (Register × Register)} {set : RegisterSet}
    (h : List.Forall₂ (SpellsRange arch) items ranges)
    (hset : ∀ r, r ∈ set ↔ ∃ range ∈ ranges, range.1 ≤ r ∧ r ≤ range.2) :
    Spells arch ('{' :: [',', ' '].intercalate items ++ ['}']) (.registerList set)
  | target (address : Word) : Spells arch (Text.digits 16 address.toNat) (.target address)
  | markedTarget (address : Word) : Spells arch (Text.hex address).toList (.target address)

/-- The operands of an architecture that a listing spells: its registers and what is made of them, constants, shifts by
less than 256 and addresses. -/
def IsWritable (arch : Arch) : Operand → Prop
  | .register view => view ∈ arch.views
  | .writeback view => view ∈ arch.views
  | .zero bits => arch = .arm64 ∧ (bits = 32 ∨ bits = 64)
  | .immediate _ => True
  | .shift _ amount => amount < 256
  | .memory base _ => ∃ view ∈ arch.views, base = some view
  | .registerList set => ∀ r ∈ set, r.val < arch.registerCount
  | .target _ => True
  | .other _ => False

/-! ### Which operands have a spelling -/

theorem register_lt_of_mem_views (h : view ∈ arch.views) : view.register.val < arch.registerCount := by
  have hall (arch : Arch) : ∀ view ∈ arch.views, view.register.val < arch.registerCount := by
    cases arch <;> decide +kernel
  exact hall arch view h

theorem SpellsRange.lt_registerCount {item : List Char} {range : Register × Register} (h : SpellsRange arch item range) :
    range.2.val < arch.registerCount := by
  cases h with
  | single h => exact register_lt_of_mem_views h.mem_views
  | ascending _ hhigh _ => exact register_lt_of_mem_views hhigh.mem_views

theorem Spells.isWritable (h : Spells arch text operand) : IsWritable arch operand := by
  cases h with
  | register h => exact h.mem_views
  | writeback h => exact h.mem_views
  | zero harch h =>
    refine ⟨harch, ?_⟩
    simp only [List.mem_cons, Prod.mk.injEq, List.not_mem_nil, or_false] at h
    exact h.symm.imp And.right And.right
  | immediate value => trivial
  | shift h amount => exact amount.isLt
  | memory h => exact ⟨_, h.mem_views, rfl⟩
  | updatedMemory h => exact ⟨_, h.mem_views, rfl⟩
  | registerList h hset =>
    intro r hr
    obtain ⟨range, hrange, -, hle⟩ := (hset r).mp hr
    have hbound := h.flip.imp fun range item hitem => And.intro hitem.lt_registerCount hitem
    exact Nat.lt_of_le_of_lt hle (((List.forall₂_and_left _ _).mp hbound).1 range hrange)
  | target address => trivial
  | markedTarget address => trivial

theorem mem_views {r : Register} (h : r.val < arch.registerCount) :
    (⟨r, arch.registerBits⟩ : RegisterView) ∈ arch.views := by
  have hall (arch : Arch) : ∀ r : Register, r.val < arch.registerCount → ⟨r, arch.registerBits⟩ ∈ arch.views := by
    cases arch <;> decide +kernel
  exact hall arch r h

/-- A list may name its registers one by one. -/
theorem spells_singles {set : RegisterSet} (h : ∀ r ∈ set, r.val < arch.registerCount) :
    ∃ text, Spells arch text (.registerList set) := by
  have hitems : List.Forall₂ (SpellsRange arch) (set.toList.map fun r => arch.viewName ⟨r, arch.registerBits⟩)
      (set.toList.map fun r => (r, r)) := by
    rw [List.forall₂_map_left_iff, List.forall₂_map_right_iff, List.forall₂_same]
    intro r hr
    exact .single (Arch.isNameOf_viewName (mem_views (h r (RegisterSet.mem_toList.mp hr))))
  refine ⟨_, .registerList hitems fun r => ?_⟩
  simp only [List.mem_map, RegisterSet.mem_toList]
  constructor
  · intro hr
    exact ⟨_, ⟨r, hr, rfl⟩, Fin.le_refl r, Fin.le_refl r⟩
  · rintro ⟨_, ⟨q, hq, rfl⟩, hlow, hhigh⟩
    rwa [Fin.le_antisymm hhigh hlow]

theorem exists_spells (h : IsWritable arch operand) : ∃ text, Spells arch text operand := by
  cases operand with
  | register view => exact ⟨_, .register (Arch.isNameOf_viewName h)⟩
  | writeback view => exact ⟨_, .writeback (Arch.isNameOf_viewName h)⟩
  | zero bits =>
    obtain ⟨harch, rfl | rfl⟩ := h
    · exact ⟨"wzr".toList, .zero harch (by decide)⟩
    · exact ⟨"xzr".toList, .zero harch (by decide)⟩
  | immediate value => exact ⟨_, .immediate value⟩
  | shift kind amount =>
    have hlower : ∃ name ∈ kind.names, String.ofList (Text.lower name.toList) = name := by cases kind <;> decide
    obtain ⟨name, hname, heq⟩ := hlower
    rw [← heq] at hname
    exact ⟨_, .shift hname ⟨amount, h⟩⟩
  | memory base updatesBase =>
    obtain ⟨view, hview, rfl⟩ := h
    cases updatesBase
    · exact ⟨_, .memory (Arch.isNameOf_viewName hview)⟩
    · exact ⟨_, .updatedMemory (Arch.isNameOf_viewName hview)⟩
  | registerList set => exact spells_singles h
  | target address => exact ⟨_, .target address⟩
  | other text => exact h.elim

/-! ### Reading one operand -/

/-- The name of a kind of shift, in any case. -/
theorem isName_lower_of_mem_names {kind : ShiftKind} (h : String.ofList (Text.lower name) ∈ kind.names) :
    Text.IsName (Text.lower name) := by
  simpa using isName_of_known (ShiftKind.ofName?_of_mem_names h)

theorem readWord?_writeback (h : arch.register? name = some view) :
    readWord? arch (Text.lower name ++ ['!']) = some (.writeback view) := by
  have hlower : arch.register? (Text.lower name) = some view := (arch.register?_lower name).trans h
  have hword : Text.IsWord (Text.lower name ++ ['!']) := (Arch.isMadeOf_name hlower).isWord.append (by decide)
  have hshift : ShiftKind.ofName? (String.ofList (Text.lower name ++ ['!'])) = none := by
    cases hkind : ShiftKind.ofName? (String.ofList (Text.lower name ++ ['!'])) with
    | none => rfl
    | some kind =>
      have hname := isName_of_known hkind
      rw [String.toList_ofList] at hname
      exact absurd (by simp) (hname.not_mem (show Text.marks.contains '!' = true from rfl))
  rw [readWord?, Text.words_eq_singleton hword]
  simp only [readShift?, hshift, Text.dropEnd?_append, hlower, Option.map_none, Option.bind_some]

theorem readPiece_writeback (h : arch.register? name = some view) :
    readPiece arch (name ++ ['!']) = .ok (.writeback view) := by
  have hmade := Arch.isMadeOf_name h
  refine readPiece_append hmade (by decide) (hmade.isWord.append (by decide)).trimmed ?_
  rw [Text.lower, List.map_append]
  exact readWord?_writeback h

theorem readPiece_zero {bits : Nat} (h : (String.ofList (Text.lower name), bits) ∈ [("xzr", 64), ("wzr", 32)]) :
    Text.IsName (Text.lower name) ∧ readPiece .arm64 name = .ok (.zero bits) := by
  have hall : ∀ entry ∈ [("xzr", 64), ("wzr", 32)],
      Text.IsName entry.1.toList ∧ readWord? .arm64 entry.1.toList = some (.zero entry.2) := by decide +kernel
  obtain ⟨hname, hread⟩ := hall _ h
  simp only [String.toList_ofList] at hname hread
  have hmade := Text.isMadeOf_of_lower hname
  exact ⟨hname, readPiece_of_readWord? hmade hread⟩

theorem readPiece_shift {kind : ShiftKind} (h : String.ofList (Text.lower name) ∈ kind.names) (amount : Fin 256) :
    readPiece arch (name ++ ' ' :: '#' :: Text.digits 10 amount) = .ok (.shift kind amount) := by
  have hmade := Text.isMadeOf_of_lower (isName_lower_of_mem_names h)
  have hdigits := Text.isName_digits (show 2 ≤ 10 by omega) (by omega) amount.val
  have hamount := Text.IsWord.append (w := ['#']) (by decide) hdigits.isWord
  have hsymbol : '<' ∉ ' ' :: '#' :: Text.digits 10 amount := by
    simpa using hdigits.not_mem (show Text.marks.contains '<' = true from rfl)
  have hlower : Text.lower (name ++ ' ' :: '#' :: Text.digits 10 amount) =
      Text.lower name ++ ' ' :: '#' :: Text.lower (Text.digits 10 amount) := by
    rw [Text.lower, List.map_append]
    rfl
  refine readPiece_append hmade hsymbol (hmade.isWord.trimmed.append hmade.1 [' '] hamount.trimmed hamount.1) ?_
  rw [hlower, hdigits.lower_eq]
  exact readWord?_shift (ShiftKind.ofName?_of_mem_names h) amount

theorem readPiece_memory (h : arch.register? name = some view) {after : List Char} (hafter : ∀ c ∈ ['<', ']'], c ∉ after)
    (htrim : Text.Trimmed ('[' :: name ++ ']' :: after)) :
    readPiece arch ('[' :: name ++ ']' :: after) = .ok (.memory (some view) (Text.trim after == ['!'])) := by
  have hmade := Arch.isMadeOf_name h
  have hsymbol : '<' ∉ '[' :: name ++ ']' :: after := by
    simpa using ⟨hmade.not_mem (show '<' ∈ _ by decide), hafter '<' (by simp)⟩
  have hcut := Text.cutLast_append_cons name (hafter ']' (by simp))
  have hbase : Text.trim (name.takeWhile (· != ',')) = name := by
    rw [Text.takeWhile_ne_eq_self hmade.not_mem_comma, hmade.isWord.trimmed.trim_eq]
  rw [readPiece, takeWhile_trim hsymbol htrim, List.cons_append]
  simp only [readMemory?, hcut, Option.map_some, hbase, h]

theorem trimmed_memory (name : List Char) :
    Text.Trimmed ('[' :: name ++ [']']) ∧ Text.Trimmed ('[' :: name ++ [']', '!']) := by
  have hupdated : Text.Trimmed ('[' :: (name ++ [']']) ++ ['!']) := Text.trimmed_of_ends rfl rfl _
  rw [← List.cons_append, List.append_assoc] at hupdated
  exact ⟨Text.trimmed_of_ends rfl rfl name, hupdated⟩

/-! ### Register lists -/

theorem SpellsRange.isMadeOf {item : List Char} {range : Register × Register} (h : SpellsRange arch item range) :
    Text.IsMadeOf ('-' :: Text.wordChars) item := by
  cases h with
  | single h => exact Arch.isMadeOf_name h.register?
  | ascending hlow hhigh _ =>
    obtain ⟨hne, hfirst⟩ := Arch.isMadeOf_name hlow.register?
    obtain ⟨-, hlast⟩ := Arch.isMadeOf_name hhigh.register?
    refine ⟨by simp [hne], ?_⟩
    simpa [or_imp, forall_and] using ⟨by simpa using hfirst, by simpa using hlast⟩

theorem SpellsRange.readListItem? {item : List Char} {range : Register × Register} (h : SpellsRange arch item range) :
    readListItem? arch item = some (RegisterSet.range range.1 range.2) := by
  have htrim := h.isMadeOf.isWord.trimmed.trim_eq
  cases h with
  | @single _ view h =>
    have hread := h.register?
    have hset : RegisterSet.insert ∅ view.register = RegisterSet.range view.register view.register := by
      refine RegisterSet.ext fun r => ?_
      simp [Fin.le_antisymm_iff, and_comm]
    rw [readListItem?_of_no_hyphen (by rw [htrim]; exact (Arch.isMadeOf_name hread).1)
      (by rw [htrim]; exact Arch.hyphen_not_mem_of_register? hread), htrim, hread, Option.map_some, hset]
  | ascending hlow hhigh hle =>
    have hfirst := hlow.register?
    have hlast := hhigh.register?
    rw [readListItem?_of_hyphen htrim (Arch.hyphen_not_mem_of_register? hfirst),
      (Arch.isMadeOf_name hfirst).isWord.trimmed.trim_eq, (Arch.isMadeOf_name hlast).isWord.trimmed.trim_eq, hfirst, hlast,
      Option.bind_some, Option.bind_some, if_pos hle]

section

variable {items : List (List Char)} {ranges : List (Register × Register)} {set : RegisterSet}
  (h : List.Forall₂ (SpellsRange arch) items ranges)

include h

/-- What holds of a comma, a blank and the characters of items holds of all characters between the braces. -/
theorem forall_mem_items {P : Char → Prop} (hcomma : P ',') (hblank : P ' ') (hchars : ∀ c ∈ '-' :: Text.wordChars, P c) :
    ∀ c ∈ [',', ' '].intercalate items, P c := by
  have hmade := h.imp fun item range hitem => And.intro hitem.isMadeOf hitem
  refine Text.forall_mem_intercalate hcomma hblank ?_
  intro item hitem c hc
  exact hchars c ((((List.forall₂_and_left _ _).mp hmade).1 item hitem).2 c hc)

theorem readList?_items (hset : ∀ r, r ∈ set ↔ ∃ range ∈ ranges, range.1 ≤ r ∧ r ≤ range.2) :
    readList? arch ([',', ' '].intercalate items) = some set := by
  have hcomma : ∀ item ∈ items, ',' ∉ item := by
    have hmade := h.imp fun item range hitem => And.intro hitem.isMadeOf.not_mem_comma hitem
    exact ((List.forall₂_and_left _ _).mp hmade).1
  have hread : items.mapM (readListItem? arch) = some (ranges.map fun range => RegisterSet.range range.1 range.2) := by
    rw [mapM_eq_some_iff_forall₂, List.forall₂_map_right_iff]
    exact h.imp fun item range hitem => hitem.readListItem?
  rw [readList?_intercalate hcomma, hread, Option.map_some]
  congr 1
  refine RegisterSet.ext fun r => ?_
  simp [RegisterSet.mem_foldl_union, hset]

end

/-- An operand is read from each of its spellings. -/
theorem Spells.readPiece (h : Spells arch text operand) : readPiece arch text = .ok operand := by
  cases h with
  | register h => exact readPiece_name h.register?
  | writeback h => exact readPiece_writeback h.register?
  | zero harch h =>
    subst harch
    exact (readPiece_zero h).2
  | immediate value => exact readPiece_immediate value
  | shift h amount => exact readPiece_shift h amount
  | memory h => exact readPiece_memory h.register? (by simp) (trimmed_memory _).1
  | updatedMemory h => exact readPiece_memory h.register? (by simp) (trimmed_memory _).2
  | registerList h hset =>
    have hsymbol := forall_mem_items h (P := (· ≠ '<')) (by decide) (by decide) fun c hc heq =>
      (Text.plain_of_mem hc).2.2 (by simp [heq])
    exact readPiece_braces (fun hmem => hsymbol _ hmem rfl) (readList?_items h hset)
  | target address => exact readPiece_target address
  | markedTarget address => exact readPiece_markedTarget address

/-! ### Lists of operands -/

/-- A word without brackets and commas is one operand of a list. -/
theorem shape_of_isWord (hword : Text.IsWord text) (hplain : text.all isPlain = true) :
    text ≠ [] ∧ Text.Trimmed text ∧ IsPiece text :=
  ⟨hword.1, hword.trimmed, isPiece_of_plain hplain⟩

/-- No spelling is empty or has a blank at an end, and no comma cuts it. -/
theorem Spells.shape (h : Spells arch text operand) : text ≠ [] ∧ Text.Trimmed text ∧ IsPiece text := by
  have hmemory {name : List Char} (hname : Text.IsMadeOf ('-' :: Text.wordChars) name) {after : List Char}
      (hafter : after.all isPlain = true) : IsPiece ('[' :: name ++ ']' :: after) :=
    isPiece_of_brackets rfl rfl (not_brackets_of_plain hname.all_isPlain) (isPiece_of_plain hafter)
  cases h with
  | register h =>
    have hmade := Arch.isMadeOf_name h.register?
    exact shape_of_isWord hmade.isWord hmade.all_isPlain
  | writeback h =>
    have hmade := Arch.isMadeOf_name h.register?
    refine shape_of_isWord (hmade.isWord.append (by decide)) ?_
    rw [List.all_append, hmade.all_isPlain]
    rfl
  | zero harch h =>
    have hmade := Text.isMadeOf_of_lower (readPiece_zero h).1
    exact shape_of_isWord hmade.isWord hmade.all_isPlain
  | immediate value =>
    have hname := Text.isName_hex value
    refine shape_of_isWord (Text.IsWord.append (w := ['#']) (by decide) hname.isWord) ?_
    rw [List.all_cons, isPlain_of_isName hname]
    rfl
  | shift h amount =>
    have hmade := Text.isMadeOf_of_lower (isName_lower_of_mem_names h)
    have hdigits := Text.isName_digits (show 2 ≤ 10 by omega) (by omega) amount.val
    have hamount := Text.IsWord.append (w := ['#']) (by decide) hdigits.isWord
    refine ⟨by simp, hmade.isWord.trimmed.append hmade.1 [' '] hamount.trimmed hamount.1, isPiece_of_plain ?_⟩
    rw [List.all_append, hmade.all_isPlain, List.all_cons, List.all_cons, isPlain_of_isName hdigits]
    rfl
  | memory h => exact ⟨by simp, (trimmed_memory _).1, hmemory (Arch.isMadeOf_name h.register?) rfl⟩
  | updatedMemory h => exact ⟨by simp, (trimmed_memory _).2, hmemory (Arch.isMadeOf_name h.register?) rfl⟩
  | registerList h hset =>
    have hinner := forall_mem_items h (P := fun c => isOpening c = false ∧ isClosing c = false) ⟨rfl, rfl⟩ ⟨rfl, rfl⟩
      fun c hc => not_brackets_of_plain (w := [c]) (by simpa using (Text.plain_of_mem hc).2.1) c (List.mem_singleton_self c)
    exact ⟨by simp, Text.trimmed_of_ends rfl rfl _, isPiece_of_brackets rfl rfl hinner (isPiece_of_plain rfl)⟩
  | target address =>
    have hname := Text.isName_digits (show 2 ≤ 16 by omega) (by omega) address.toNat
    exact shape_of_isWord hname.isWord (isPlain_of_isName hname)
  | markedTarget address => exact shape_of_isWord (Text.isName_hex address).isWord (isPlain_of_isName (Text.isName_hex address))

theorem readAll_of_spells {texts : List (List Char)} {operands : List Operand}
    (h : List.Forall₂ (Spells arch) texts operands) : readAll arch ([',', ' '].intercalate texts) = .ok operands := by
  have hshape := h.imp fun text operand htext => And.intro htext.shape htext
  refine readAll_intercalate ((List.forall₂_and_left _ _).mp hshape).1 ?_
  rw [mapM_eq_ok_iff_forall₂]
  exact h.imp fun text operand htext => htext.readPiece

/-- An operand has a spelling if it is made of registers of the architecture, and operands that are joined by a comma and
a blank, each in one of its spellings, are read back as they are. -/
theorem readAll_spelled (arch : Arch) :
    (∀ operand, (∃ text, Spells arch text operand) ↔ IsWritable arch operand) ∧
      ∀ texts operands, List.Forall₂ (Spells arch) texts operands →
        readAll arch ([',', ' '].intercalate texts) = .ok operands := by
  refine ⟨fun operand => ⟨?_, exists_spells⟩, fun _ _ => readAll_of_spells⟩
  rintro ⟨text, htext⟩
  exact htext.isWritable

/-- Each kind of operand that a listing spells, with aliases and capitals. -/
theorem readAll_spelled_row :
    readAll .arm64 "W7, x3!, XZR, #0xffffffffffffffd6, Sxtw #255, [SP], [fp]!, {w1, X3-lr}, 10500, 0xbeef".toList =
      .ok [.register ⟨7, 32⟩, .writeback ⟨3, 64⟩, .zero 64, .immediate (-42), .shift .extend 255,
        .memory (some ⟨31, 64⟩) false, .memory (some ⟨29, 64⟩) true,
        .registerList ((RegisterSet.range 3 30).insert 1), .target 0x10500, .target 0xbeef] := by
  have hname {name : List Char} {view : RegisterView}
      (h : view ∈ Arch.arm64.views ∧ Text.lower name = Arch.arm64.viewName view) : Arch.arm64.IsNameOf name view := .inl h
  have hregister : Spells .arm64 "W7".toList (.register ⟨7, 32⟩) := .register (hname (by decide +kernel))
  have hwriteback : Spells .arm64 ("x3".toList ++ ['!']) (.writeback ⟨3, 64⟩) := .writeback (hname (by decide +kernel))
  have hzero : Spells .arm64 "XZR".toList (.zero 64) := .zero rfl (by decide)
  have hshift : Spells .arm64 ("Sxtw".toList ++ ' ' :: '#' :: Text.digits 10 (255 : Fin 256)) (.shift .extend 255) :=
    .shift (by decide) 255
  have hmemory : Spells .arm64 ('[' :: "SP".toList ++ [']']) (.memory (some ⟨31, 64⟩) false) :=
    .memory (hname (by decide +kernel))
  have hupdated : Spells .arm64 ('[' :: "fp".toList ++ [']', '!']) (.memory (some ⟨29, 64⟩) true) :=
    .updatedMemory (.inr (by decide +kernel))
  have hsingle : SpellsRange .arm64 "w1".toList (1, 1) :=
    @SpellsRange.single _ _ ⟨1, 32⟩ (hname (by decide +kernel))
  have hrange : SpellsRange .arm64 ("X3".toList ++ '-' :: "lr".toList) (3, 30) :=
    @SpellsRange.ascending _ _ _ ⟨3, 64⟩ ⟨30, 64⟩ (hname (by decide +kernel)) (.inr (by decide +kernel)) (by decide)
  have hset : ∀ r, r ∈ (RegisterSet.range 3 30).insert 1 ↔
      ∃ range ∈ [((1 : Register), (1 : Register)), (3, 30)], range.1 ≤ r ∧ r ≤ range.2 := by decide +kernel
  have hlist := Spells.registerList (.cons hsingle (.cons hrange .nil)) hset
  have h := (readAll_spelled .arm64).2 _ _ (.cons hregister (.cons hwriteback (.cons hzero (.cons (.immediate (-42))
    (.cons hshift (.cons hmemory (.cons hupdated (.cons hlist (.cons (.target 0x10500)
      (.cons (.markedTarget 0xbeef) .nil))))))))))
  have htext : "W7, x3!, XZR, #0xffffffffffffffd6, Sxtw #255, [SP], [fp]!, {w1, X3-lr}, 10500, 0xbeef".toList =
      [',', ' '].intercalate ["W7".toList, "x3".toList ++ ['!'], "XZR".toList, '#' :: (Text.hex (-42)).toList,
        "Sxtw".toList ++ ' ' :: '#' :: Text.digits 10 (255 : Fin 256), '[' :: "SP".toList ++ [']'],
        '[' :: "fp".toList ++ [']', '!'],
        '{' :: [',', ' '].intercalate ["w1".toList, "X3".toList ++ '-' :: "lr".toList] ++ ['}'],
        Text.digits 16 (0x10500 : Word).toNat, (Text.hex 0xbeef).toList] := by
    decide +kernel
  rw [htext]
  exact h

end Operand

end CallFacts
