import CallFacts.Operand.Reader
import CallFacts.Proofs.SingleWrites
import Mathlib.Data.List.Basic

/-!
# Operands behind a constant

A disassembler may write a constant in two parts, the second rotating the first, so an operand behind a constant changes
its meaning. An addition or subtraction with such an operand, and a move of a constant, leaves its destination unknown.
The operations that do not look at what follows the operands that they use keep the value of those.
-/

namespace CallFacts

namespace Operand

variable {dst : Operand} {operands : List Operand}

/-- Some operand follows a constant. -/
def Trails (operands : List Operand) : Prop :=
  ∃ front value next rest, operands = front ++ .immediate value :: next :: rest

theorem not_trails_singleton (o : Operand) : ¬ Trails [o] := by
  rintro ⟨front, value, next, rest, h⟩
  have hlength := congrArg List.length h
  simp at hlength
  omega

/-- What trails does not depend on the operands ahead of the constant. -/
theorem trails_cons_iff (hdst : ∀ value, dst ≠ .immediate value) : Trails (dst :: operands) ↔ Trails operands := by
  constructor
  · rintro ⟨front, value, next, rest, h⟩
    cases front with
    | nil => exact absurd (List.cons.inj h).1 (hdst value)
    | cons o front => exact ⟨front, value, next, rest, (List.cons.inj h).2⟩
  · rintro ⟨front, value, next, rest, rfl⟩
    exact ⟨dst :: front, value, next, rest, rfl⟩

end Operand

namespace Effect

/-- The effect leaves no value in what it writes. -/
def IsUnknown (e : Effect) : Prop := (∃ r, e = .clobber r) ∨ ∃ set, e = .unmodeled set

theorem isUnknown_clobber (r : Register) : (clobber r).IsUnknown := .inl ⟨r, rfl⟩

theorem not_isUnknown_immediate (r : Register) (value : Word) : ¬ (immediate r value).IsUnknown := by
  rintro (⟨_, h⟩ | ⟨_, h⟩) <;> cases h

theorem not_isUnknown_affine (dst src : Register) (multiplier offset : Word) (bits : Nat) :
    ¬ (affine dst src multiplier offset bits).IsUnknown := by
  rintro (⟨_, h⟩ | ⟨_, h⟩) <;> cases h

end Effect

namespace Arm32

variable {dst : Register} {sources : List Operand} {op : Operation} {f : Word → Word}

/-! ### Operands that are not looked at -/

/-- The operations that keep a value although they do not look at what follows the operands they use, by the operands
after the destination. -/
inductive Overlooks : Operation → List Operand → Prop
  | move {src : RegisterView} {amount : Nat} {rest : List Operand} (hsrc : src.register ≠ 15) :
    Overlooks .move (.register src :: .shift .lsl amount :: rest)
  | moveNot {value : Word} {rest : List Operand} : Overlooks .moveNot (.immediate value :: rest)
  | moveWide {value : Word} {rest : List Operand} : Overlooks .moveWide (.immediate value :: rest)
  | reverseSubtract {src : RegisterView} {value : Word} {rest : List Operand} (hsrc : src.register ≠ 15) :
    Overlooks .reverseSubtract (.register src :: .immediate value :: rest)

theorem isProgramCounter_iff {r : Register} : isProgramCounter r = true ↔ r = 15 := by
  rw [isProgramCounter, beq_iff_eq, Fin.ext_iff]
  rfl

theorem not_isUnknown_shiftLeftEffect (dst src : Register) (amount : Nat) :
    ¬ (shiftLeftEffect dst src amount).IsUnknown := by
  rw [shiftLeftEffect]
  split
  · exact Effect.not_isUnknown_immediate _ _
  · exact Effect.not_isUnknown_affine _ _ _ _ _

/-- A value that is kept unless the source is the program counter. -/
theorem isUnknown_unless_iff {e : Effect} {src : Register} (he : ¬ e.IsUnknown) :
    (if isProgramCounter src then .clobber dst else e).IsUnknown ↔ ¬ src ≠ 15 := by
  by_cases hsrc : src = 15
  · rw [if_pos (isProgramCounter_iff.mpr hsrc)]
    exact iff_of_true (Effect.isUnknown_clobber dst) (not_not_intro hsrc)
  · rw [if_neg (mt isProgramCounter_iff.mp hsrc)]
    exact iff_of_false he (not_not_intro hsrc)

theorem isUnknown_moveEffect_iff (htrails : Operand.Trails sources) :
    (moveEffect dst sources).IsUnknown ↔ ¬ Overlooks .move sources := by
  rw [moveEffect.eq_def]
  split
  · exact absurd htrails (Operand.not_trails_singleton _)
  · exact absurd htrails (Operand.not_trails_singleton _)
  · rw [isUnknown_unless_iff (not_isUnknown_shiftLeftEffect _ _ _)]
    refine not_congr ⟨.move, fun h => ?_⟩
    cases h with
    | move hsrc => exact hsrc
  · next hother =>
    refine iff_of_true (Effect.isUnknown_clobber _) fun h => ?_
    cases h with
    | move => exact hother _ _ _ rfl

/-- An addition looks at all its operands. -/
theorem isUnknown_addEffect (htrails : Operand.Trails sources) : (addEffect dst f sources).IsUnknown := by
  rw [addEffect.eq_def]
  split
  · next src value =>
    rw [Operand.trails_cons_iff (by simp)] at htrails
    exact absurd htrails (Operand.not_trails_singleton _)
  · exact absurd htrails (Operand.not_trails_singleton _)
  · exact Effect.isUnknown_clobber _

theorem isUnknown_reverseSubtractEffect_iff :
    (reverseSubtractEffect dst sources).IsUnknown ↔ ¬ Overlooks .reverseSubtract sources := by
  rw [reverseSubtractEffect.eq_def]
  split
  · rw [isUnknown_unless_iff (Effect.not_isUnknown_affine _ _ _ _ _)]
    refine not_congr ⟨.reverseSubtract, fun h => ?_⟩
    cases h with
    | reverseSubtract hsrc => exact hsrc
  · next hother =>
    refine iff_of_true (Effect.isUnknown_clobber _) fun h => ?_
    cases h with
    | reverseSubtract => exact hother _ _ _ rfl

/-- A constant is kept whatever follows it. -/
theorem isUnknown_constantEffect_iff (hop : op = .moveNot ∨ op = .moveWide) :
    (constantEffect dst f sources).IsUnknown ↔ ¬ Overlooks op sources := by
  rw [constantEffect.eq_def]
  split
  · refine iff_of_false (Effect.not_isUnknown_immediate _ _) (not_not_intro ?_)
    rcases hop with rfl | rfl
    · exact .moveNot
    · exact .moveWide
  · next hother =>
    refine iff_of_true (Effect.isUnknown_clobber _) fun h => ?_
    rcases hop with rfl | rfl
    · cases h with
      | moveNot => exact hother _ _ rfl
    · cases h with
      | moveWide => exact hother _ _ rfl

/-! ### Instructions -/

/-- The operations that compute with a constant, by their names without an `s`. -/
def constantOperations : List (String × Operation) :=
  [("mov", .move), ("mvn", .moveNot), ("movw", .moveWide), ("add", .add), ("sub", .subtract), ("rsb", .reverseSubtract)]

theorem not_overlooks_of_add (hop : op = .add ∨ op = .subtract) : ¬ Overlooks op sources := by
  intro h
  cases h <;> simp at hop

theorem exists_singleEffect? {name : String} (hname : (name, op) ∈ constantOperations) :
    ∃ effect, singleEffect? op = some effect := by
  have hall : ∀ entry ∈ constantOperations, (singleEffect? entry.2).isSome := by decide
  exact Option.isSome_iff_exists.mp (hall _ hname)

/-- The effect leaves no value in the destination unless the operation overlooks what trails. -/
theorem isUnknown_iff {name : String} {effect : Register → List Operand → Effect}
    (hname : (name, op) ∈ constantOperations) (heffect : singleEffect? op = some effect)
    (htrails : Operand.Trails sources) : (effect dst sources).IsUnknown ↔ ¬ Overlooks op sources := by
  simp only [constantOperations, List.mem_cons, Prod.mk.injEq, List.not_mem_nil, or_false] at hname
  rcases hname with ⟨-, rfl⟩ | ⟨-, rfl⟩ | ⟨-, rfl⟩ | ⟨-, rfl⟩ | ⟨-, rfl⟩ | ⟨-, rfl⟩ <;> cases heffect
  · exact isUnknown_moveEffect_iff htrails
  · exact isUnknown_constantEffect_iff (.inl rfl)
  · exact isUnknown_constantEffect_iff (.inr rfl)
  · exact iff_of_true (isUnknown_addEffect htrails) (not_overlooks_of_add (.inl rfl))
  · exact iff_of_true (isUnknown_addEffect htrails) (not_overlooks_of_add (.inr rfl))
  · exact isUnknown_reverseSubtractEffect_iff

/-- The instruction keeps a value although an operand follows that it does not look at: its mnemonic is known and has
no condition, and it has a destination. -/
def KeepsValue (op : Operation) (flag suffix : String) (operands : List Operand) : Prop :=
  ¬ (op = .moveWide ∧ flag = "s") ∧ suffix ∉ conditions ∧
    ∃ dst sources, operands = dst :: sources ∧ dst.register?.isSome ∧ Overlooks op sources

/-- Every effect leaves its destinations unknown, and the first operand is among them if it is a register. -/
def LosesDestination (i : Instruction) (operands : List Operand) : Prop :=
  (∀ e ∈ i.effects, e.IsUnknown) ∧
    ∀ view, operands.head?.bind Operand.register? = some view → view.register ∈ i.written

end Arm32

theorem Decoded.head?_register? (d : Decoded) : d.operands.head?.bind Operand.register? = d.register? 0 := by
  rw [register?, List.head?_eq_getElem?]

theorem Decoded.first_mem_possiblyWritten {d : Decoded} {view : RegisterView}
    (h : d.operands.head?.bind Operand.register? = some view) : view.register ∈ d.possiblyWritten := by
  have hleading : view.register ∈ d.leadingRegisters := by
    cases hd : d.operands with
    | nil => simp [hd] at h
    | cons dst sources =>
      rw [hd, List.head?_cons, Option.bind_some] at h
      cases dst <;> simp_all [Operand.register?, leadingRegisters]
  rw [possiblyWritten, withWriteback]
  split <;> simp [hleading]

namespace Arm32

variable {d : Decoded}

theorem losesDestination_unmodeled (d : Decoded) :
    LosesDestination ⟨d.address, d.size, d.mnemonic, [.unmodeled d.possiblyWritten]⟩ d.operands := by
  refine ⟨fun e he => .inr ⟨_, List.mem_singleton.mp he⟩, fun view hview => ?_⟩
  exact Instruction.mem_written.mpr ⟨_, List.mem_cons_self, Decoded.first_mem_possiblyWritten hview⟩

theorem operation?_of_constantOperations : ∀ entry ∈ constantOperations, ∀ flag ∈ ["", "s"],
    ¬ (entry.2 = .moveWide ∧ flag = "s") → operation? (entry.1 ++ flag).toList = some entry.2 := by
  decide +kernel

/-- There is no `movw` that sets the flags. -/
theorem classify_movws : ∀ suffix ∈ "" :: "al" :: conditions, classify ("movw" ++ "s" ++ suffix).toList = .ok none := by
  decide +kernel

/-- One effect on the destination leaves it unknown under a condition, and otherwise if the effect does. -/
theorem losesDestination_iff_of_effect {e : Effect} {conditional : Bool} {view : RegisterView}
    (hdst : d.register? 0 = some view) (he : operationEffects? d op = some [e])
    (hwritten : e.written = RegisterSet.insert ∅ view.register) :
    LosesDestination (instructionOf d op conditional) d.operands ↔ conditional = true ∨ e.IsUnknown := by
  have hcovers : view.register ∈ (instructionOf d op conditional).written := by
    rw [written_of_operationEffects? he, writtenBy, Effect.mem_foldl_written]
    exact .inr ⟨e, List.mem_cons_self, by simp [hwritten]⟩
  have hview : ∀ view', d.operands.head?.bind Operand.register? = some view' →
      view'.register ∈ (instructionOf d op conditional).written := by
    rw [Decoded.head?_register?, hdst]
    rintro _ ⟨⟩
    exact hcovers
  have hlast : (∀ e' ∈ effectsOf d op conditional, e'.IsUnknown) ↔ conditional = true ∨ e.IsUnknown := by
    cases conditional with
    | true =>
      refine iff_of_true ?_ (.inl rfl)
      exact (clobbers_or_unmodeled (.inl rfl)).elim (fun h e' he' => .inl (h e' he')) fun h e' he' =>
        .inr ⟨_, List.mem_singleton.mp (h.2 ▸ h.1 ▸ he')⟩
    | false => simp [effectsOf, he]
  exact (and_iff_left hview).trans hlast

theorem losesDestination_instructionOf {name : String} {conditional : Bool}
    (hname : (name, op) ∈ constantOperations) (htrails : Operand.Trails d.operands) :
    LosesDestination (instructionOf d op conditional) d.operands ↔
      ¬ (conditional = false ∧
        ∃ dst sources, d.operands = dst :: sources ∧ dst.register?.isSome ∧ Overlooks op sources) := by
  obtain ⟨effect, heffect⟩ := exists_singleEffect? hname
  cases hdst : d.register? 0 with
  | none =>
    have hunmodeled : instructionOf d op conditional =
        ⟨d.address, d.size, d.mnemonic, [.unmodeled d.possiblyWritten]⟩ := by
      rw [instructionOf, effectsOf, operationEffects?_of_single heffect, hdst]
      rfl
    rw [hunmodeled]
    refine iff_of_true (losesDestination_unmodeled d) ?_
    rintro ⟨-, dst, sources, hd, hregister, -⟩
    rw [← Decoded.head?_register?, hd, List.head?_cons, Option.bind_some] at hdst
    simp [hdst] at hregister
  | some view =>
    obtain ⟨dst, sources, hd⟩ : ∃ dst sources, d.operands = dst :: sources := by
      cases hd : d.operands with
      | nil => simp [Decoded.register?, hd] at hdst
      | cons dst sources => exact ⟨dst, sources, rfl⟩
    have hregister : dst.register? = some view := by
      rwa [← Decoded.head?_register?, hd, List.head?_cons, Option.bind_some] at hdst
    have hnot : ∀ value, dst ≠ .immediate value := by
      rintro value rfl
      cases hregister
    rw [hd, Operand.trails_cons_iff hnot] at htrails
    have he : operationEffects? d op = some [effect view.register sources] := by
      rw [operationEffects?_of_single heffect, hdst, hd]
      rfl
    rw [losesDestination_iff_of_effect hdst he (written_of_single _ _ heffect), isUnknown_iff hname heffect htrails, hd]
    cases conditional with
    | true => simp
    | false => simp [hregister]

/-- An instruction with an operand behind its constant leaves the destination unknown, unless it is one that keeps a
value without looking at that operand. -/
theorem lift_trailing {name flag suffix : String} {operands : List Operand} (hname : (name, op) ∈ constantOperations)
    (hflag : flag = "" ∨ flag = "s") (hsuffix : suffix = "" ∨ suffix = "al" ∨ suffix ∈ conditions)
    (htrails : Operand.Trails operands) (address : Word) (size : Nat) :
    ∃ i, Semantics.lift Arch.arm32.semantics ⟨address, size, name ++ flag ++ suffix, operands⟩ = .ok i ∧
      (LosesDestination i operands ↔ ¬ KeepsValue op flag suffix operands) := by
  by_cases hunknown : op = .moveWide ∧ flag = "s"
  · have hmovw : name = "movw" := by
      simpa [constantOperations, hunknown.1] using hname
    obtain ⟨hwide, rfl⟩ := hunknown
    subst hmovw
    refine ⟨_, lift_of_unknown (classify_movws suffix (by simpa using hsuffix)), ?_⟩
    exact iff_of_true (losesDestination_unmodeled _) fun h => h.1 ⟨hwide, rfl⟩
  · have hop : operation? (name ++ flag).toList = some op :=
      operation?_of_constantOperations _ hname flag (by simpa using hflag) hunknown
    have hkept : op ≠ .moveFloating ∧ op ≠ .noWrite := by
      have hall : ∀ entry ∈ constantOperations, entry.2 ≠ .moveFloating ∧ entry.2 ≠ .noWrite := by decide
      exact hall _ hname
    have hclass := classify_append_suffix hop hkept hsuffix
    rw [← String.toList_append] at hclass
    refine ⟨_, lift_of_classify (d := ⟨address, size, name ++ flag ++ suffix, operands⟩) hclass, ?_⟩
    refine (losesDestination_instructionOf (d := ⟨address, size, name ++ flag ++ suffix, operands⟩) hname htrails).trans ?_
    rw [KeepsValue, and_iff_right hunknown, decide_eq_false_iff_not]

/-- `subs r0, r1, #1, 8` leaves `r0` unknown, since a subtraction looks at all its operands. -/
theorem subs_loses_destination : ("sub", .subtract) ∈ constantOperations ∧
    Operand.Trails [.register ⟨0, 32⟩, .register ⟨1, 32⟩, .immediate 1, .target 8] ∧
    ∃ i, Semantics.lift Arch.arm32.semantics ⟨0x1000, 4, "sub" ++ "s" ++ "",
        [.register ⟨0, 32⟩, .register ⟨1, 32⟩, .immediate 1, .target 8]⟩ = .ok i ∧
      LosesDestination i [.register ⟨0, 32⟩, .register ⟨1, 32⟩, .immediate 1, .target 8] := by
  have hname : ("sub", .subtract) ∈ constantOperations := by decide
  have htrails : Operand.Trails [.register ⟨0, 32⟩, .register ⟨1, 32⟩, .immediate 1, .target 8] :=
    ⟨[.register ⟨0, 32⟩, .register ⟨1, 32⟩], 1, .target 8, [], rfl⟩
  have hflag : "s" = "" ∨ "s" = "s" := .inr rfl
  have hsuffix : "" = "" ∨ "" = "al" ∨ "" ∈ conditions := .inl rfl
  obtain ⟨i, hi, hloses⟩ := lift_trailing hname hflag hsuffix htrails 0x1000 4
  refine ⟨hname, htrails, i, hi, hloses.mpr ?_⟩
  rintro ⟨-, -, dst, sources, -, -, hoverlooks⟩
  exact not_overlooks_of_add (.inr rfl) hoverlooks

/-- `mvn r0, #1, 2` stands for the complement of one rotated by two bits, and `r0` is given that of one. -/
theorem mvn_keeps_value :
    Operand.readAll .arm32 "r0, #1, 2".toList = .ok [.register ⟨0, 32⟩, .immediate 1, .target 2] ∧
      Operand.Trails [.register ⟨0, 32⟩, .immediate 1, .target 2] ∧
      ∃ i, Semantics.lift Arch.arm32.semantics
          ⟨0x1000, 4, "mvn", [.register ⟨0, 32⟩, .immediate 1, .target 2]⟩ = .ok i ∧
        i.effects = [.immediate 0 0xfffffffe] ∧ ¬ LosesDestination i [.register ⟨0, 32⟩, .immediate 1, .target 2] := by
  have hclass : classify "mvn".toList = .ok (some (.moveNot, false)) := by decide +kernel
  refine ⟨by decide +kernel, ⟨[.register ⟨0, 32⟩], 1, .target 2, [], rfl⟩, _,
    lift_of_classify (d := ⟨0x1000, 4, "mvn", [.register ⟨0, 32⟩, .immediate 1, .target 2]⟩) hclass, by decide, ?_⟩
  rintro ⟨hunknown, -⟩
  exact Effect.not_isUnknown_immediate 0 0xfffffffe (hunknown _ (by decide))

end Arm32

end CallFacts
