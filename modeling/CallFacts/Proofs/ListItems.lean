import CallFacts.Proofs.RegisterNames
import CallFacts.Proofs.Traversals

/-!
# Items of register lists

An item of a register list is blank, the name of a core register or a range between two of them. A list of such items
has the registers that its items name; with any other item it cannot be read.
-/

namespace CallFacts

/-! ### What trimming keeps -/

namespace Text

variable {c : Char} {text : List Char}

theorem mem_trimStart (hc : isBlank c = false) (h : c ∈ text) : c ∈ trimStart text := by
  rw [← List.takeWhile_append_dropWhile (p := isBlank) (l := text), List.mem_append] at h
  refine h.resolve_left fun hblank => ?_
  rw [List.all_eq_true.mp List.all_takeWhile c hblank] at hc
  cases hc

theorem mem_trim (hc : isBlank c = false) (h : c ∈ text) : c ∈ trim text := by
  have hstart : c ∈ (trimStart text).reverse := List.mem_reverse.mpr (mem_trimStart hc h)
  exact List.mem_reverse.mpr (mem_trimStart hc hstart)

end Text

namespace Arch

theorem register?_nil (arch : Arch) : arch.register? [] = none := by cases arch <;> decide

end Arch

/-! ### Unions -/

theorem RegisterSet.mem_foldl_union {r : Register} {sets : List RegisterSet} {start : RegisterSet} :
    r ∈ sets.foldl (· ∪ ·) start ↔ r ∈ start ∨ ∃ set ∈ sets, r ∈ set := by
  induction sets generalizing start with
  | nil => simp
  | cons set sets ih => simp [ih, or_assoc]

/-! ### Items -/

namespace Operand

variable {arch : Arch} {item inner : List Char} {r : Register} {set : RegisterSet}

/-- An item of a register list names a register: by itself, or as one of a range between two registers. -/
inductive Names (arch : Arch) (item : List Char) (r : Register) : Prop
  | register {view : RegisterView} (h : arch.register? (Text.trim item) = some view) (hr : view.register = r)
  | range {first last : List Char} {low high : RegisterView} (hitem : Text.trim item = first ++ '-' :: last)
      (hlow : arch.register? (Text.trim first) = some low) (hhigh : arch.register? (Text.trim last) = some high)
      (hle : low.register ≤ r ∧ r ≤ high.register)

theorem not_names_of_blank (hblank : Text.trim item = []) : ¬ Names arch item r := by
  intro h
  cases h with
  | register h => simp [hblank, arch.register?_nil] at h
  | range hitem => simp [hblank] at hitem

/-- A single item names its register and no other. -/
theorem names_iff_of_no_hyphen (hitem : '-' ∉ Text.trim item) :
    Names arch item r ↔ ∃ view, arch.register? (Text.trim item) = some view ∧ view.register = r := by
  constructor
  · intro h
    cases h with
    | register h hr => exact ⟨_, h, hr⟩
    | range hrange => simp [hrange] at hitem
  · rintro ⟨view, h, hr⟩
    exact .register h hr

/-- A range names the registers between the two around its first hyphen. -/
theorem names_iff_of_hyphen {first last : List Char} (hitem : Text.trim item = first ++ '-' :: last)
    (hfirst : '-' ∉ first) :
    Names arch item r ↔ ∃ low high, arch.register? (Text.trim first) = some low ∧
      arch.register? (Text.trim last) = some high ∧ low.register ≤ r ∧ r ≤ high.register := by
  constructor
  · intro h
    cases h with
    | register h => exact absurd (by simp [hitem]) (Arch.hyphen_not_mem_of_register? h)
    | @range first' last' low high hitem' hlow hhigh hle =>
      have hfirst' : '-' ∉ first' := fun hmem =>
        Arch.hyphen_not_mem_of_register? hlow (Text.mem_trim (by decide) hmem)
      have hcut := Text.cutFirst_append_cons hfirst last
      rw [← hitem, hitem', Text.cutFirst_append_cons hfirst' last'] at hcut
      cases hcut
      exact ⟨low, high, hlow, hhigh, hle⟩
  · rintro ⟨low, high, hlow, hhigh, hle⟩
    exact .range hitem hlow hhigh hle

/-- An item is blank, has no hyphen, or is cut at its first hyphen. -/
theorem item_cases (item : List Char) : Text.trim item = [] ∨ (Text.trim item ≠ [] ∧ '-' ∉ Text.trim item) ∨
    ∃ first last, Text.trim item = first ++ '-' :: last ∧ '-' ∉ first := by
  by_cases hblank : Text.trim item = []
  · exact .inl hblank
  · by_cases hhyphen : '-' ∈ Text.trim item
    · exact .inr (.inr (List.eq_append_cons_of_mem hhyphen))
    · exact .inr (.inl ⟨hblank, hhyphen⟩)

theorem readListItem?_of_blank (hblank : Text.trim item = []) : readListItem? arch item = some ∅ := by
  simp [readListItem?, hblank]

theorem readListItem?_of_no_hyphen (hne : Text.trim item ≠ []) (hitem : '-' ∉ Text.trim item) :
    readListItem? arch item =
      (arch.register? (Text.trim item)).map fun view => RegisterSet.insert ∅ view.register := by
  simp only [readListItem?, List.isEmpty_iff, if_neg hne, Text.cutFirst_eq_none_iff.mpr hitem]

theorem readListItem?_of_hyphen {first last : List Char} (hitem : Text.trim item = first ++ '-' :: last)
    (hfirst : '-' ∉ first) :
    readListItem? arch item = (arch.register? (Text.trim first)).bind fun low =>
      (arch.register? (Text.trim last)).bind fun high =>
        if low.register ≤ high.register then some (RegisterSet.range low.register high.register) else none := by
  simp [readListItem?, hitem, Text.cutFirst_append_cons hfirst]

/-- An item that is read adds the registers that it names. -/
theorem mem_of_readListItem? (h : readListItem? arch item = some set) : r ∈ set ↔ Names arch item r := by
  rcases item_cases item with hblank | ⟨hne, hitem⟩ | ⟨first, last, hitem, hfirst⟩
  · rw [readListItem?_of_blank hblank] at h
    cases h
    simp [not_names_of_blank hblank]
  · rw [readListItem?_of_no_hyphen hne hitem] at h
    obtain ⟨view, hview, rfl⟩ := Option.map_eq_some_iff.mp h
    rw [names_iff_of_no_hyphen hitem, hview]
    simp [eq_comm]
  · rw [readListItem?_of_hyphen hitem hfirst] at h
    obtain ⟨low, hlow, h⟩ := Option.bind_eq_some_iff.mp h
    obtain ⟨high, hhigh, h⟩ := Option.bind_eq_some_iff.mp h
    obtain rfl := Option.some.inj (Option.ite_none_right_eq_some.mp h).2
    rw [names_iff_of_hyphen hitem hfirst, hlow, hhigh]
    simp

/-- The items that are read are those that are blank or name registers. -/
theorem exists_readListItem?_iff :
    (∃ set, readListItem? arch item = some set) ↔ Text.trim item = [] ∨ ∃ r, Names arch item r := by
  rcases item_cases item with hblank | ⟨hne, hitem⟩ | ⟨first, last, hitem, hfirst⟩
  · exact iff_of_true ⟨∅, readListItem?_of_blank hblank⟩ (.inl hblank)
  · simp only [readListItem?_of_no_hyphen hne hitem, names_iff_of_no_hyphen hitem, hne, false_or]
    cases arch.register? (Text.trim item) <;> simp
  · have hne : Text.trim item ≠ [] := by simp [hitem]
    simp only [readListItem?_of_hyphen hitem hfirst, names_iff_of_hyphen hitem hfirst, hne, false_or]
    constructor
    · rintro ⟨set, h⟩
      obtain ⟨low, hlow, h⟩ := Option.bind_eq_some_iff.mp h
      obtain ⟨high, hhigh, h⟩ := Option.bind_eq_some_iff.mp h
      exact ⟨low.register, low, high, hlow, hhigh, Fin.le_refl _, (Option.ite_none_right_eq_some.mp h).1⟩
    · rintro ⟨r, low, high, hlow, hhigh, hle⟩
      rw [hlow, hhigh, Option.bind_some, Option.bind_some, if_pos (Fin.le_trans hle.1 hle.2)]
      exact ⟨_, rfl⟩

/-! ### Lists -/

/-- Every item of the inside of a list is blank or names registers. -/
def IsReadable (arch : Arch) (inner : List Char) : Prop :=
  ∀ item ∈ inner.splitOn ',', Text.trim item = [] ∨ ∃ r, Names arch item r

/-- A list that is read has the registers that its items name. -/
theorem mem_of_readList? (h : readList? arch inner = some set) :
    r ∈ set ↔ ∃ item ∈ inner.splitOn ',', Names arch item r := by
  obtain ⟨sets, hsets, rfl⟩ := Option.map_eq_some_iff.mp h
  rw [RegisterSet.mem_foldl_union]
  simp only [RegisterSet.not_mem_empty, false_or]
  rw [mapM_eq_some_iff_forall₂] at hsets
  clear h
  generalize inner.splitOn ',' = items at hsets ⊢
  induction hsets with
  | nil => simp
  | cons hitem _ ih => simp [mem_of_readListItem? hitem, ih]

theorem exists_readList?_iff : (∃ set, readList? arch inner = some set) ↔ IsReadable arch inner := by
  simp only [readList?, Option.map_eq_some_iff, IsReadable, ← exists_readListItem?_iff, ← exists_mapM_iff]
  constructor
  · rintro ⟨_, sets, hsets, -⟩
    exact ⟨sets, hsets⟩
  · rintro ⟨sets, hsets⟩
    exact ⟨_, sets, hsets, rfl⟩

end Operand

end CallFacts
