import CallFacts.Proofs.Brackets
import CallFacts.Proofs.Traversals

/-!
# Operand texts that are refused

A text whose brackets are not balanced is refused as a whole. Every other text is cut into pieces, and the first piece
that cannot be read decides: one in which nothing stands, or one that opens a bracket at its start and never closes one
of this kind. If there is none, each piece gives one operand.
-/

namespace CallFacts

namespace Operand

variable {arch : Arch} {text piece : List Char} {pieces : List (List Char)} {e : OperandError}

/-! ### One piece -/

/-- What is read of a piece: all ahead of a symbol's name, without the blanks around it. -/
def headOf (piece : List Char) : List Char := Text.trim (piece.takeWhile (· != '<'))

/-- A piece cannot be read: it is empty, or the bracket at its start is closed by none of its kind. -/
inductive Refused (piece : List Char) : OperandError → Prop
  | empty (h : headOf piece = []) : Refused piece .empty
  | memory {rest : List Char} (h : headOf piece = '[' :: rest) (hclosing : ']' ∉ rest) :
    Refused piece (.unbalanced (String.ofList ('[' :: rest)))
  | list {rest : List Char} (h : headOf piece = '{' :: rest) (hclosing : '}' ∉ rest) :
    Refused piece (.unbalanced (String.ofList ('{' :: rest)))

theorem readMemory?_eq_none_iff {rest : List Char} : readMemory? arch rest = none ↔ ']' ∉ rest := by
  rw [readMemory?, Option.map_eq_none_iff, Text.cutLast_eq_none_iff]

/-- A piece is refused for its brackets or as empty, and for nothing else. -/
theorem readPiece_eq_error_iff : readPiece arch piece = .error e ↔ Refused piece e := by
  constructor
  · intro h
    simp only [readPiece] at h
    split at h
    · next hhead =>
      cases h
      exact .empty hhead
    · next rest hhead =>
      split at h
      · cases h
      · next hread =>
        cases h
        rw [hhead]
        exact .memory hhead (readMemory?_eq_none_iff.mp hread)
    · next rest hhead =>
      split at h
      · cases h
      · next hread =>
        cases h
        rw [hhead]
        exact .list hhead (Text.cutLast_eq_none_iff.mp hread)
    · cases h
    · cases h
  · intro h
    cases h with
    | empty hhead => simp only [readPiece, show Text.trim (piece.takeWhile (· != '<')) = [] from hhead]
    | memory hhead hclosing =>
      simp only [readPiece, show Text.trim (piece.takeWhile (· != '<')) = _ from hhead,
        readMemory?_eq_none_iff.mpr hclosing]
    | list hhead hclosing =>
      simp only [readPiece, show Text.trim (piece.takeWhile (· != '<')) = _ from hhead,
        Text.cutLast_eq_none_iff.mpr hclosing]

theorem exists_readPiece_iff : (∃ operand, readPiece arch piece = .ok operand) ↔ ∀ e, ¬ Refused piece e := by
  simp only [← @readPiece_eq_error_iff arch]
  cases readPiece arch piece <;> simp

/-! ### All pieces -/

theorem readAll_of_blank (h : Text.trim text = []) : readAll arch text = .ok [] := by
  simp [readAll, h]

theorem readAll_of_unbalanced (h : ¬ IsBalanced (Text.trim text)) :
    readAll arch text = .error (.unbalanced (String.ofList (Text.trim text))) := by
  have hne : Text.trim text ≠ [] := by
    rintro hempty
    rw [hempty, ← split?_eq_none_iff] at h
    cases h
  simp [readAll, hne, split?_eq_none_iff.mpr h]

theorem readAll_of_isCut (hne : Text.trim text ≠ []) (h : IsCut (Text.trim text) pieces) :
    readAll arch text = pieces.mapM (readPiece arch) := by
  simp [readAll, hne, split?_eq_some_iff.mpr h]

/-- What becomes of a text. -/
inductive Outcome (arch : Arch) (text : List Char) : Except OperandError (List Operand) → Prop
  | blank (h : Text.trim text = []) : Outcome arch text (.ok [])
  | unbalanced (h : ¬ IsBalanced (Text.trim text)) :
    Outcome arch text (.error (.unbalanced (String.ofList (Text.trim text))))
  /-- The first piece that cannot be read decides. -/
  | refused {before after : List (List Char)} {p : List Char} {e : OperandError} (hne : Text.trim text ≠ [])
    (hcut : IsCut (Text.trim text) (before ++ p :: after)) (hbefore : ∀ q ∈ before, ∀ e', ¬ Refused q e')
    (hpiece : Refused p e) : Outcome arch text (.error e)
  /-- Each piece gives one operand. -/
  | accepted {ps : List (List Char)} {operands : List Operand} (hne : Text.trim text ≠ [])
    (hcut : IsCut (Text.trim text) ps) (hpieces : ∀ p ∈ ps, ∀ e, ¬ Refused p e)
    (hoperands : List.Forall₂ (fun p o => readPiece arch p = .ok o) ps operands) : Outcome arch text (.ok operands)

theorem outcome_readAll (arch : Arch) (text : List Char) : Outcome arch text (readAll arch text) := by
  by_cases hne : Text.trim text = []
  · rw [readAll_of_blank hne]
    exact .blank hne
  by_cases hbalanced : IsBalanced (Text.trim text)
  · obtain ⟨pieces, hcut⟩ := exists_isCut_iff.mpr hbalanced
    rw [readAll_of_isCut hne hcut]
    cases hread : pieces.mapM (readPiece arch) with
    | error e =>
      obtain ⟨before, piece, after, rfl, hbefore, hpiece⟩ := mapM_eq_error_iff.mp hread
      exact .refused hne hcut (fun p hp => exists_readPiece_iff.mp (hbefore p hp)) (readPiece_eq_error_iff.mp hpiece)
    | ok operands =>
      have hoperands := mapM_eq_ok_iff_forall₂.mp hread
      have hpieces : ∀ p ∈ pieces, ∀ e', ¬ Refused p e' := by
        have hboth := hoperands.imp fun p o ho => And.intro (exists_readPiece_iff.mp ⟨o, ho⟩) ho
        exact ((List.forall₂_and_left _ _).mp hboth).1
      exact .accepted hne hcut hpieces hoperands
  · rw [readAll_of_unbalanced hbalanced]
    exact .unbalanced hbalanced

/-- The outcome of a text is settled by its brackets, its commas and the starts of its pieces. A text with as many
closing as opening brackets may still have a piece, or be one, in which a bracket is closed by the other kind only. -/
theorem readAll_eq_iff {result : Except OperandError (List Operand)} :
    readAll arch text = result ↔ Outcome arch text result := by
  constructor
  · rintro rfl
    exact outcome_readAll arch text
  · intro h
    cases h with
    | blank h => exact readAll_of_blank h
    | unbalanced h => exact readAll_of_unbalanced h
    | refused hne hcut hbefore hpiece =>
      rw [readAll_of_isCut hne hcut, mapM_eq_error_iff]
      exact ⟨_, _, _, rfl, fun p hp => exists_readPiece_iff.mpr (hbefore p hp), readPiece_eq_error_iff.mpr hpiece⟩
    | accepted hne hcut _ hoperands => rw [readAll_of_isCut hne hcut, mapM_eq_ok_iff_forall₂.mpr hoperands]

end Operand

end CallFacts
