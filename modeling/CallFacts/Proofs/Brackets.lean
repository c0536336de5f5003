import CallFacts.Operand.Reader
import Mathlib.Data.Nat.PSub

/-!
# Commas outside brackets

An operand text is cut at the commas outside all brackets. A text is balanced if none of its beginnings closes more
brackets than it opens and all are closed at its end; it is whole if besides this every comma stands inside a bracket.
A text can be cut exactly if it is balanced, and its pieces are the whole texts that make it up when they are joined by
commas. The two kinds of bracket count alike.
-/

namespace CallFacts.Operand

variable {c : Char} {depth depth' : Nat} {text w piece first : List Char} {pieces rest : List (List Char)}

/-! ### Balanced and whole texts -/

def openings (text : List Char) : Nat := text.countP isOpening

def closings (text : List Char) : Nat := text.countP isClosing

/-- Of a text inside `depth` brackets, no beginning closes more brackets than are open there, and at its end all are
closed. -/
structure BalancedFrom (depth : Nat) (text : List Char) : Prop where
  covered : ∀ start, start <+: text → closings start ≤ depth + openings start
  settled : closings text = depth + openings text

/-- No beginning closes more brackets than it opens, and the text closes as many as it opens. -/
def IsBalanced (text : List Char) : Prop :=
  (∀ start, start <+: text → closings start ≤ openings start) ∧ closings text = openings text

/-- Of a balanced text inside `depth` brackets, every comma is inside one too. -/
structure WholeFrom (depth : Nat) (text : List Char) : Prop extends BalancedFrom depth text where
  enclosed : ∀ before after, text = before ++ ',' :: after → closings before < depth + openings before

/-- A balanced text whose commas are all inside brackets. -/
def IsWhole (text : List Char) : Prop :=
  IsBalanced text ∧ ∀ before after, text = before ++ ',' :: after → closings before < openings before

/-- The pieces of a text between its commas outside all brackets: joined by commas they are the text, and each of them
closes the brackets that it opens and has no comma outside them. -/
def IsCut (text : List Char) (pieces : List (List Char)) : Prop :=
  pieces ≠ [] ∧ [','].intercalate pieces = text ∧ ∀ piece ∈ pieces, IsWhole piece

theorem balancedFrom_zero_iff : BalancedFrom 0 text ↔ IsBalanced text := by
  constructor
  · rintro ⟨covered, settled⟩
    simp only [Nat.zero_add] at covered settled
    exact ⟨covered, settled⟩
  · rintro ⟨covered, settled⟩
    exact ⟨by simpa using covered, by simpa using settled⟩

theorem wholeFrom_zero_iff : WholeFrom 0 text ↔ IsWhole text := by
  constructor
  · rintro ⟨balanced, enclosed⟩
    simp only [Nat.zero_add] at enclosed
    exact ⟨balancedFrom_zero_iff.mp balanced, enclosed⟩
  · rintro ⟨balanced, enclosed⟩
    exact ⟨balancedFrom_zero_iff.mpr balanced, by simpa using enclosed⟩

/-- Neither a bracket nor a comma. -/
def isPlain (c : Char) : Bool := !isOpening c && !isClosing c && c != ','

/-! ### One character -/

/-- The depth behind a character. A closing bracket outside all brackets leaves none. -/
def depthAfter? (depth : Nat) (c : Char) : Option Nat :=
  if isOpening c then some (depth + 1) else if isClosing c then depth.ppred else some depth

theorem isClosing_of_isOpening (h : isOpening c = true) : isClosing c = false := by
  simp only [isOpening, Bool.or_eq_true, beq_iff_eq] at h
  rcases h with rfl | rfl <;> rfl

theorem depthAfter?_of_plain (h : isPlain c = true) (depth : Nat) : depthAfter? depth c = some depth := by
  simp only [isPlain, Bool.and_eq_true, Bool.not_eq_true'] at h
  simp [depthAfter?, h.1]

/-- A character changes the depth as it changes the counts. -/
theorem counts_of_depthAfter? (h : depthAfter? depth c = some depth') (text : List Char) :
    closings (c :: text) + openings text + depth' = closings text + openings (c :: text) + depth := by
  simp only [closings, openings, List.countP_cons]
  rw [depthAfter?] at h
  split at h
  · next hopening =>
    cases h
    simp only [hopening, isClosing_of_isOpening hopening, Bool.false_eq_true, if_false, if_true]
    omega
  · next hopening =>
    split at h
    · next hclosing =>
      have hdepth : depth'.succ = depth := Nat.ppred_eq_some.mp h
      simp only [hopening, hclosing, Bool.false_eq_true, if_false, if_true]
      omega
    · next hclosing =>
      cases h
      simp only [hopening, hclosing, Bool.false_eq_true, if_false]
      omega

/-- Without a depth behind it, a character closes a bracket that is not open. -/
theorem counts_of_depthAfter?_none (h : depthAfter? depth c = none) : depth + openings [c] < closings [c] := by
  rw [depthAfter?] at h
  split at h
  · cases h
  · next hopening =>
    split at h
    · next hclosing =>
      have hdepth : depth = 0 := Nat.ppred_eq_none.mp h
      simp [openings, closings, hopening, hclosing, hdepth]
    · cases h

theorem split?_cons_eq (depth : Nat) (c : Char) (text : List Char) :
    split? depth (c :: text) =
      if c = ',' ∧ depth = 0 then (split? 0 text).map ([] :: ·)
      else (depthAfter? depth c).bind fun depth' => (split? depth' text).map (List.modifyHead (c :: ·)) := by
  have hcomma (hbracket : isOpening c = true ∨ isClosing c = true) : ¬ (c = ',' ∧ depth = 0) := by
    rintro ⟨rfl, -⟩
    rcases hbracket with hbracket | hbracket <;> cases hbracket
  by_cases hopening : isOpening c = true
  · rw [if_neg (hcomma (.inl hopening))]
    cases depth <;> simp [split?, depthAfter?, hopening]
  · by_cases hclosing : isClosing c = true
    · rw [if_neg (hcomma (.inr hclosing))]
      cases depth <;> simp [split?, depthAfter?, hopening, hclosing]
    · cases depth <;> simp [split?, depthAfter?, hopening, hclosing]

theorem balancedFrom_nil_iff : BalancedFrom depth [] ↔ depth = 0 := by
  constructor
  · rintro ⟨-, settled⟩
    simpa [closings, openings] using settled.symm
  · rintro rfl
    exact ⟨fun start hstart => by simp [List.prefix_nil.mp hstart, closings, openings], rfl⟩

theorem balancedFrom_cons_iff :
    BalancedFrom depth (c :: text) ↔ ∃ depth', depthAfter? depth c = some depth' ∧ BalancedFrom depth' text := by
  constructor
  · rintro ⟨covered, settled⟩
    cases hdepth : depthAfter? depth c with
    | none =>
      have hfirst := covered [c] (by simp)
      have hclosed := counts_of_depthAfter?_none hdepth
      omega
    | some depth' =>
      refine ⟨depth', rfl, fun start hstart => ?_, ?_⟩
      · have hmore := covered (c :: start) (List.prefix_cons_inj c |>.mpr hstart)
        have hcounts := counts_of_depthAfter? hdepth start
        omega
      · have hcounts := counts_of_depthAfter? hdepth text
        omega
  · rintro ⟨depth', hdepth, covered, settled⟩
    refine ⟨fun start hstart => ?_, ?_⟩
    · rcases List.prefix_cons_iff.mp hstart with rfl | ⟨rest, rfl, hrest⟩
      · simp [closings]
      · have hless := covered rest hrest
        have hcounts := counts_of_depthAfter? hdepth rest
        omega
    · have hcounts := counts_of_depthAfter? hdepth text
      omega

theorem wholeFrom_nil_iff : WholeFrom depth [] ↔ depth = 0 := by
  constructor
  · rintro ⟨balanced, -⟩
    exact balancedFrom_nil_iff.mp balanced
  · intro hdepth
    exact ⟨balancedFrom_nil_iff.mpr hdepth, by simp⟩

/-- A text is whole if its first character is no comma outside brackets and the rest is whole where that leaves off. -/
theorem wholeFrom_cons_iff :
    WholeFrom depth (c :: text) ↔
      ¬ (c = ',' ∧ depth = 0) ∧ ∃ depth', depthAfter? depth c = some depth' ∧ WholeFrom depth' text := by
  constructor
  · rintro ⟨balanced, enclosed⟩
    obtain ⟨depth', hdepth, hrest⟩ := balancedFrom_cons_iff.mp balanced
    refine ⟨?_, depth', hdepth, hrest, fun before after htext => ?_⟩
    · rintro ⟨rfl, rfl⟩
      have hfirst := enclosed [] text rfl
      simp [closings, openings] at hfirst
    · have hmore := enclosed (c :: before) after (by rw [htext, List.cons_append])
      have hcounts := counts_of_depthAfter? hdepth before
      omega
  · rintro ⟨hcomma, depth', hdepth, balanced, enclosed⟩
    refine ⟨balancedFrom_cons_iff.mpr ⟨depth', hdepth, balanced⟩, fun before after htext => ?_⟩
    rcases List.cons_eq_append_iff.mp htext with ⟨rfl, hfirst⟩ | ⟨rest, rfl, hrest⟩
    · have hc : c = ',' := (List.cons.inj hfirst).1.symm
      have hinside : depth ≠ 0 := fun hzero => hcomma ⟨hc, hzero⟩
      simpa [closings, openings] using Nat.pos_of_ne_zero hinside
    · have hless := enclosed rest after hrest
      have hcounts := counts_of_depthAfter? hdepth rest
      omega

/-! ### Cutting -/

/-- A text that no cut goes through. -/
def IsPiece (w : List Char) : Prop :=
  ∀ rest, split? 0 (w ++ rest) = (split? 0 rest).map (List.modifyHead (w ++ ·))

/-- What is put before a text stays before its first piece. -/
theorem modifyHead_append (u w : List Char) (pieces : List (List Char)) :
    (pieces.modifyHead (w ++ ·)).modifyHead (u ++ ·) = pieces.modifyHead (u ++ w ++ ·) := by
  rw [List.modifyHead_modifyHead]
  congr 1
  funext text
  simp

theorem IsPiece.append (h : IsPiece w) (h' : IsPiece text) : IsPiece (w ++ text) := by
  intro rest
  rw [List.append_assoc, h, h', Option.map_map]
  congr 1
  funext pieces
  exact modifyHead_append w text pieces

/-- Exactly the balanced texts can be cut. -/
theorem isSome_split?_iff : (split? depth text).isSome = true ↔ BalancedFrom depth text := by
  induction text generalizing depth with
  | nil =>
    rw [balancedFrom_nil_iff]
    cases depth <;> simp [split?]
  | cons c text ih =>
    rw [split?_cons_eq, balancedFrom_cons_iff]
    split
    · next hcomma =>
      obtain ⟨rfl, rfl⟩ := hcomma
      rw [Option.isSome_map, ih]
      exact ⟨fun h => ⟨0, rfl, h⟩, fun ⟨_, hdepth, h⟩ => Option.some.inj hdepth ▸ h⟩
    · cases depthAfter? depth c with
      | none => simp
      | some depth' => simp [ih]

/-- A whole text stays together in front of every rest. -/
theorem split?_append_of_wholeFrom (h : WholeFrom depth w) (rest : List Char) :
    split? depth (w ++ rest) = (split? 0 rest).map (List.modifyHead (w ++ ·)) := by
  induction w generalizing depth with
  | nil =>
    rw [wholeFrom_nil_iff.mp h, List.nil_append]
    cases split? 0 rest with
    | none => rfl
    | some pieces => cases pieces <;> rfl
  | cons c w ih =>
    obtain ⟨hcomma, depth', hdepth, hrest⟩ := wholeFrom_cons_iff.mp h
    rw [List.cons_append, split?_cons_eq, if_neg hcomma, hdepth, Option.bind_some, ih hrest, Option.map_map]
    congr 1
    funext pieces
    exact modifyHead_append [c] w pieces

theorem isPiece_of_isWhole (h : IsWhole w) : IsPiece w :=
  split?_append_of_wholeFrom (wholeFrom_zero_iff.mpr h)

/-- The pieces that a text inside brackets is cut into: the first closes these brackets, the others are whole. -/
theorem whole_of_split? (h : split? depth text = some pieces) : ∃ piece rest, pieces = piece :: rest ∧
    [','].intercalate pieces = text ∧ WholeFrom depth piece ∧ ∀ p ∈ rest, IsWhole p := by
  induction text generalizing depth pieces with
  | nil =>
    cases depth with
    | zero =>
      cases h
      exact ⟨[], [], rfl, rfl, wholeFrom_nil_iff.mpr rfl, by simp⟩
    | succ outer => cases h
  | cons c text ih =>
    rw [split?_cons_eq] at h
    split at h
    · next hcomma =>
      obtain ⟨rfl, rfl⟩ := hcomma
      obtain ⟨pieces, hpieces, rfl⟩ := Option.map_eq_some_iff.mp h
      obtain ⟨piece, rest, rfl, rfl, hpiece, hrest⟩ := ih hpieces
      refine ⟨[], piece :: rest, rfl, by simp, wholeFrom_nil_iff.mpr rfl, ?_⟩
      exact List.forall_mem_cons.mpr ⟨wholeFrom_zero_iff.mp hpiece, hrest⟩
    · next hcomma =>
      obtain ⟨depth', hdepth, h⟩ := Option.bind_eq_some_iff.mp h
      obtain ⟨pieces, hpieces, rfl⟩ := Option.map_eq_some_iff.mp h
      obtain ⟨piece, rest, rfl, rfl, hpiece, hrest⟩ := ih hpieces
      refine ⟨c :: piece, rest, rfl, ?_, wholeFrom_cons_iff.mpr ⟨hcomma, depth', hdepth, hpiece⟩, hrest⟩
      cases rest <;> simp

theorem split?_of_isCut (h : IsCut text pieces) : split? 0 text = some pieces := by
  obtain ⟨hne, rfl, hwhole⟩ := h
  induction pieces with
  | nil => exact absurd rfl hne
  | cons piece rest ih =>
    have hpiece := isPiece_of_isWhole (hwhole piece List.mem_cons_self)
    cases rest with
    | nil => simpa [split?] using hpiece []
    | cons next rest =>
      have hrest := ih (by simp) fun p hp => hwhole p (List.mem_cons_of_mem _ hp)
      rw [List.intercalate_cons_cons, List.append_assoc, hpiece, List.singleton_append, split?_cons_eq,
        if_pos ⟨rfl, rfl⟩, hrest]
      simp

/-- The pieces of a text are the whole texts that make it up. -/
theorem split?_eq_some_iff : split? 0 text = some pieces ↔ IsCut text pieces := by
  constructor
  · intro h
    obtain ⟨piece, rest, rfl, htext, hpiece, hrest⟩ := whole_of_split? h
    exact ⟨by simp, htext, List.forall_mem_cons.mpr ⟨wholeFrom_zero_iff.mp hpiece, hrest⟩⟩
  · exact split?_of_isCut

theorem split?_eq_none_iff : split? 0 text = none ↔ ¬ IsBalanced text := by
  rw [← balancedFrom_zero_iff, ← isSome_split?_iff, Option.not_isSome_iff_eq_none]

theorem exists_isCut_iff : (∃ pieces, IsCut text pieces) ↔ IsBalanced text := by
  simp only [← split?_eq_some_iff]
  rw [← Option.isSome_iff_exists, isSome_split?_iff, balancedFrom_zero_iff]

/-- A text is its own only piece exactly if it is whole. -/
theorem isCut_singleton_iff : IsCut text [text] ↔ IsWhole text := by
  simp [IsCut]

/-! ### Plain characters -/

theorem wholeFrom_plain_append (hplain : w.all isPlain = true) :
    WholeFrom depth (w ++ text) ↔ WholeFrom depth text := by
  induction w with
  | nil => rfl
  | cons c w ih =>
    rw [List.all_cons, Bool.and_eq_true] at hplain
    have hcomma : ¬ (c = ',' ∧ depth = 0) := by
      rintro ⟨rfl, -⟩
      cases hplain.1
    rw [List.cons_append, wholeFrom_cons_iff, depthAfter?_of_plain hplain.1, ← ih hplain.2]
    simp [hcomma]

theorem wholeFrom_append_plain (hplain : w.all isPlain = true) :
    WholeFrom depth (text ++ w) ↔ WholeFrom depth text := by
  induction text generalizing depth with
  | nil =>
    have hempty := @wholeFrom_plain_append depth [] w hplain
    rwa [List.append_nil] at hempty
  | cons c text ih =>
    rw [List.cons_append, wholeFrom_cons_iff, wholeFrom_cons_iff]
    simp only [ih]

theorem isWhole_of_plain (hplain : w.all isPlain = true) : IsWhole w := by
  have hempty := @wholeFrom_append_plain 0 [] w hplain
  exact wholeFrom_zero_iff.mp (hempty.mpr (wholeFrom_nil_iff.mpr rfl))

/-- Plain characters on either side of a text do not matter to its brackets and commas. -/
theorem isWhole_between_plain {u v : List Char} (hu : u.all isPlain = true) (hv : v.all isPlain = true) :
    IsWhole (u ++ (text ++ v)) ↔ IsWhole text := by
  rw [← wholeFrom_zero_iff, wholeFrom_plain_append hu, wholeFrom_append_plain hv, wholeFrom_zero_iff]

/-- Inside brackets commas do not matter either. -/
theorem wholeFrom_inside_append (hinner : ∀ c ∈ w, isOpening c = false ∧ isClosing c = false) :
    WholeFrom (depth + 1) (w ++ text) ↔ WholeFrom (depth + 1) text := by
  induction w with
  | nil => rfl
  | cons c w ih =>
    obtain ⟨hc, hrest⟩ := List.forall_mem_cons.mp hinner
    rw [List.cons_append, wholeFrom_cons_iff, depthAfter?, hc.1, hc.2, ← ih hrest]
    simp

theorem isWhole_brackets {opening closing : Char} (hopening : isOpening opening = true)
    (hclosing : isClosing closing = true) (hinner : ∀ c ∈ w, isOpening c = false ∧ isClosing c = false) :
    IsWhole (opening :: w ++ [closing]) := by
  have hopens : depthAfter? 0 opening = some 1 := by simp [depthAfter?, hopening]
  have hcloses : depthAfter? 1 closing = some 0 := by
    have hnot : isOpening closing = false := by
      by_contra hopens
      rw [isClosing_of_isOpening (by simpa using hopens)] at hclosing
      cases hclosing
    simp [depthAfter?, hnot, hclosing]
  have hcomma : ¬ (opening = ',' ∧ 0 = 0) := by
    rintro ⟨rfl, -⟩
    cases hopening
  rw [← wholeFrom_zero_iff, List.cons_append, wholeFrom_cons_iff]
  refine ⟨hcomma, 1, hopens, (wholeFrom_inside_append hinner).mpr ?_⟩
  rw [wholeFrom_cons_iff]
  exact ⟨by simp, 0, hcloses, wholeFrom_nil_iff.mpr rfl⟩

/-! ### Texts one after the other -/

theorem isPlain_of_isBlank (h : Text.isBlank c = true) : isPlain c = true := by
  have hne : ∀ d ∈ ['[', '{', ']', '}', ','], c ≠ d := by
    rintro d hd rfl
    have hall : (['[', '{', ']', '}', ','].all fun d => !Text.isBlank d) = true := by decide
    have hplain := List.all_eq_true.mp hall _ hd
    rw [h] at hplain
    cases hplain
  simp only [List.forall_mem_cons, List.not_mem_nil, false_implies, implies_true, and_true] at hne
  simp [isPlain, isOpening, isClosing, hne]

theorem balancedFrom_append_iff (h : BalancedFrom depth w) : BalancedFrom depth (w ++ text) ↔ IsBalanced text := by
  induction w generalizing depth with
  | nil => rw [balancedFrom_nil_iff.mp h, List.nil_append, balancedFrom_zero_iff]
  | cons c w ih =>
    obtain ⟨depth', hdepth, hrest⟩ := balancedFrom_cons_iff.mp h
    rw [List.cons_append, balancedFrom_cons_iff, hdepth, ← ih hrest]
    simp

theorem wholeFrom_append (h : WholeFrom depth w) (h' : IsWhole text) : WholeFrom depth (w ++ text) := by
  induction w generalizing depth with
  | nil =>
    rw [wholeFrom_nil_iff.mp h]
    exact wholeFrom_zero_iff.mpr h'
  | cons c w ih =>
    obtain ⟨hcomma, depth', hdepth, hrest⟩ := wholeFrom_cons_iff.mp h
    exact wholeFrom_cons_iff.mpr ⟨hcomma, depth', hdepth, ih hrest⟩

theorem IsWhole.append (h : IsWhole w) (h' : IsWhole text) : IsWhole (w ++ text) :=
  wholeFrom_zero_iff.mp (wholeFrom_append (wholeFrom_zero_iff.mpr h) h')

/-- The last piece of one text and the first of the next are one piece. -/
theorem IsCut.append {init : List (List Char)} (h : IsCut w (init ++ [piece])) (h' : IsCut text (first :: rest)) :
    IsCut (w ++ text) (init ++ (piece ++ first) :: rest) := by
  obtain ⟨-, rfl, hw⟩ := h
  obtain ⟨-, rfl, hrest⟩ := h'
  refine ⟨by simp, ?_, ?_⟩
  · clear hw
    induction init with
    | nil => cases rest <;> simp
    | cons p init ih =>
      obtain ⟨q, ps, hps⟩ := List.exists_cons_of_ne_nil (show init ++ [piece] ≠ [] by simp)
      obtain ⟨q', ps', hps'⟩ := List.exists_cons_of_ne_nil (show init ++ (piece ++ first) :: rest ≠ [] by simp)
      rw [List.cons_append, List.cons_append, hps, hps', List.intercalate_cons_cons, List.intercalate_cons_cons,
        ← hps, ← hps', ih]
      simp
  · simp only [List.forall_mem_append, List.forall_mem_cons, List.not_mem_nil, false_implies, implies_true,
      and_true] at hw hrest ⊢
    exact ⟨hw.1, hw.2.append hrest.1, hrest.2⟩

end CallFacts.Operand
