import CallFacts.Proofs.Destinations

/-!
# The program counter as a source

The program counter of 32-bit ARM holds the place of the instruction, so it is no ordinary source. An instruction whose
value depends on it leaves its destination unknown, with two exceptions: a left shift by a constant and an extension
read the program counter like any other register.
-/

namespace CallFacts

namespace Effect

@[simp]
theorem source?_immediate (r : Register) (w : Word) : (immediate r w).source? = none := rfl

@[simp]
theorem source?_clobber (r : Register) : (clobber r).source? = none := rfl

theorem IsUnknown.source? {e : Effect} (h : e.IsUnknown) : e.source? = none := by
  obtain ⟨r, rfl⟩ | ⟨set, rfl⟩ := h
  · rfl
  · rfl

end Effect

namespace Arm32

variable {d : Decoded} {op : Operation} {conditional : Bool} {dst src : Register} {sources rest : List Operand}
  {view : RegisterView} {e : Effect} {f : Word → Word} {effect : Register → List Operand → Effect}

/-! ### Operands that depend on the program counter -/

/-- The value of an operation depends on the program counter, by its destination and the operands behind it: the
program counter is among the registers that come first there, or the base of a memory reference that does, or it is
the destination and combined with a constant. -/
inductive Takes (dst : Register) : Operation → List Operand → Prop
  | source {op : Operation} {front rest : List Operand} {view : RegisterView}
    (hfront : ∀ o ∈ front, o.register?.isSome) (hcounter : view.register = 15) :
    Takes dst op (front ++ .register view :: rest)
  | address {op : Operation} {view : RegisterView} {marked : Bool} {rest : List Operand}
    (hcounter : view.register = 15) : Takes dst op (.memory (some view) marked :: rest)
  | itself {op : Operation} {value : Word} (hop : op ∉ [.move, .moveNot, .moveWide]) (hcounter : dst = 15) :
    Takes dst op [.immediate value]

/-- A left shift by a constant that leaves nothing of its source. -/
def ShiftsOut (op : Operation) (sources : List Operand) : Prop :=
  op = .shiftLeft ∧ ∃ amount : Word, 32 ≤ amount.toNat ∧ amount.toNat < 256 ∧
    (sources = [.immediate amount] ∨ ∃ o rest, sources = o :: .immediate amount :: rest)

/-- The operations that read the program counter like any other register. -/
inductive Follows (dst : Register) : Operation → List Operand → Prop
  | shifted {view : RegisterView} {amount : Word} {rest : List Operand} (hcounter : view.register = 15)
    (hamount : amount.toNat < 32) : Follows dst .shiftLeft (.register view :: .immediate amount :: rest)
  | shiftedItself {amount : Word} (hcounter : dst = 15) (hamount : amount.toNat < 32) :
    Follows dst .shiftLeft [.immediate amount]
  | extended {source : Nat} {signed : Bool} {view : RegisterView} (hcounter : view.register = 15) :
    Follows dst (.extend source signed) [.register view]

/-- The instruction writes a register and its value depends on the program counter. -/
def TakesCounter (d : Decoded) : Prop :=
  ∃ view, d.register? 0 = some view ∧ ∀ op conditional, Means d.mnemonic.toList op conditional →
    op ∉ sparing ∧ Takes view.register op d.operands.tail ∧ ¬ ShiftsOut op d.operands.tail

/-- The instruction executes under no condition and reads the program counter. -/
def FollowsCounter (d : Decoded) : Prop :=
  ∃ op view, Means d.mnemonic.toList op false ∧ d.register? 0 = some view ∧
    Follows view.register op d.operands.tail

/-! ### What single effects read -/

theorem source?_shiftLeftEffect (dst src : Register) (amount : Nat) :
    (shiftLeftEffect dst src amount).source? = if 32 ≤ amount then none else some src := by
  rw [shiftLeftEffect, show registerBits = 32 from rfl]
  split <;> rfl

/-- An effect that is taken only if its source is not the program counter. -/
theorem source?_unless (he : e.source? = none ∨ e.source? = some src) :
    (if isProgramCounter src then .clobber dst else e).source? ≠ some 15 := by
  by_cases hsrc : src = 15
  · rw [if_pos (isProgramCounter_iff.mpr hsrc)]
    simp
  · rw [if_neg (mt isProgramCounter_iff.mp hsrc)]
    rcases he with he | he
    · simp [he]
    · simpa [he] using hsrc

theorem source?_moveEffect : (moveEffect dst sources).source? ≠ some 15 := by
  rw [moveEffect.eq_def]
  split
  · simp
  · exact source?_unless (.inr rfl)
  · refine source?_unless ?_
    rw [source?_shiftLeftEffect]
    split
    · exact .inl rfl
    · exact .inr rfl
  · simp

theorem source?_constantEffect : (constantEffect dst f sources).source? ≠ some 15 := by
  rw [constantEffect.eq_def]
  split
  · simp
  · simp

theorem source?_addEffect : (addEffect dst f sources).source? ≠ some 15 := by
  rw [addEffect.eq_def]
  split
  · exact source?_unless (.inr rfl)
  · exact source?_unless (.inr rfl)
  · simp

theorem source?_reverseSubtractEffect : (reverseSubtractEffect dst sources).source? ≠ some 15 := by
  rw [reverseSubtractEffect.eq_def]
  split
  · exact source?_unless (.inr rfl)
  · simp

theorem source?_addressEffect : (addressEffect dst sources).source? ≠ some 15 := by
  rw [addressEffect.eq_def]
  split
  · simp
  · simp

/-- No other operation but a shift and an extension reads the program counter. -/
theorem not_follows (hshift : op ≠ .shiftLeft) (hextend : ∀ source signed, op ≠ .extend source signed) :
    ¬ Follows dst op sources := by
  rintro (- | - | -)
  · exact hshift rfl
  · exact hshift rfl
  · exact hextend _ _ rfl

/-- A shift reads its source if its amount is below the width. -/
theorem source?_shiftLeftEffect_iff {amount : Word} :
    (if amount.toNat < 256 then shiftLeftEffect dst src amount.toNat else .clobber dst).source? = some 15 ↔
      src = 15 ∧ amount.toNat < 32 := by
  by_cases hamount : amount.toNat < 32
  · rw [if_pos (by omega), source?_shiftLeftEffect, if_neg (Nat.not_le.mpr hamount)]
    simp [hamount]
  · refine iff_of_false ?_ fun h => hamount h.2
    split
    · rw [source?_shiftLeftEffect, if_pos (Nat.not_lt.mp hamount)]
      simp
    · simp

theorem source?_shiftEffect_iff : (shiftEffect dst sources).source? = some 15 ↔ Follows dst .shiftLeft sources := by
  rw [shiftEffect.eq_def]
  split
  · rw [source?_shiftLeftEffect_iff]
    constructor
    · rintro ⟨hcounter, hamount⟩
      exact .shifted hcounter hamount
    · rintro (⟨hcounter, hamount⟩ | -)
      exact ⟨hcounter, hamount⟩
  · rw [source?_shiftLeftEffect_iff]
    constructor
    · rintro ⟨hcounter, hamount⟩
      exact .shiftedItself hcounter hamount
    · rintro (- | ⟨hcounter, hamount⟩)
      exact ⟨hcounter, hamount⟩
  · next hregister hitself =>
    refine iff_of_false (by simp) ?_
    rintro (- | -)
    · exact hregister _ _ _ rfl
    · exact hitself _ rfl

theorem source?_extendEffect_iff {source : Nat} {signed : Bool} :
    (extendEffect dst source signed sources).source? = some 15 ↔ Follows dst (.extend source signed) sources := by
  rw [extendEffect.eq_def]
  split
  · constructor
    · intro h
      exact .extended (Option.some.inj h)
    · rintro (- | - | hcounter)
      exact congrArg some hcounter
  · next hother =>
    refine iff_of_false (by simp) ?_
    rintro (- | - | -)
    exact hother _ rfl

/-- A single effect reads the program counter exactly for the shifts and extensions of it. -/
theorem source?_iff_follows (h : singleEffect? op = some effect) :
    (effect dst sources).source? = some 15 ↔ Follows dst op sources := by
  cases op <;> cases h
  case shiftLeft => exact source?_shiftEffect_iff
  case extend => exact source?_extendEffect_iff
  case move => exact iff_of_false source?_moveEffect (not_follows (by simp) (by simp))
  case moveNot => exact iff_of_false source?_constantEffect (not_follows (by simp) (by simp))
  case moveWide => exact iff_of_false source?_constantEffect (not_follows (by simp) (by simp))
  case add => exact iff_of_false source?_addEffect (not_follows (by simp) (by simp))
  case subtract => exact iff_of_false source?_addEffect (not_follows (by simp) (by simp))
  case reverseSubtract => exact iff_of_false source?_reverseSubtractEffect (not_follows (by simp) (by simp))
  case addressOf => exact iff_of_false source?_addressEffect (not_follows (by simp) (by simp))

/-! ### What single effects leave unknown -/

theorem isUnknown_if_counter (hsrc : src = 15) : (if isProgramCounter src then .clobber dst else e).IsUnknown := by
  rw [if_pos (isProgramCounter_iff.mpr hsrc)]
  exact Effect.isUnknown_clobber dst

/-- Two registers are not combined. -/
theorem isUnknown_of_registers {o o' : Operand} (h : singleEffect? op = some effect) (ho : o.register?.isSome)
    (ho' : o'.register?.isSome) : (effect dst (o :: o' :: rest)).IsUnknown := by
  cases op <;> cases h <;> cases o <;> cases ho <;> cases o' <;> cases ho'
  all_goals exact Effect.isUnknown_clobber dst

theorem isUnknown_of_address {base : Option RegisterView} {marked : Bool} (h : singleEffect? op = some effect) :
    (effect dst (.memory base marked :: rest)).IsUnknown := by
  cases op <;> cases h
  all_goals exact Effect.isUnknown_clobber dst

/-- An operation that takes the program counter first and does not read it leaves nothing known. -/
theorem isUnknown_of_counter (h : singleEffect? op = some effect) (hcounter : view.register = 15)
    (hkept : ¬ Follows dst op (.register view :: rest)) (hout : ¬ ShiftsOut op (.register view :: rest)) :
    (effect dst (.register view :: rest)).IsUnknown := by
  cases op <;> cases h
  case move =>
    rw [moveEffect.eq_def]
    split
    · next heq => cases heq
    · next heq =>
      cases heq
      exact isUnknown_if_counter hcounter
    · next heq =>
      cases heq
      exact isUnknown_if_counter hcounter
    · exact Effect.isUnknown_clobber dst
  case moveNot | moveWide | addressOf => exact Effect.isUnknown_clobber dst
  case add | subtract =>
    dsimp only
    rw [addEffect.eq_def]
    split
    · next heq =>
      cases heq
      exact isUnknown_if_counter hcounter
    · next heq => cases heq
    · exact Effect.isUnknown_clobber dst
  case reverseSubtract =>
    rw [reverseSubtractEffect.eq_def]
    split
    · next heq =>
      cases heq
      exact isUnknown_if_counter hcounter
    · exact Effect.isUnknown_clobber dst
  case shiftLeft =>
    rw [shiftEffect.eq_def]
    split
    · next amount _ heq =>
      cases heq
      split
      · next hsmall =>
        have hamount : ¬ amount.toNat < 32 := fun hamount => hkept (.shifted hcounter hamount)
        exact absurd ⟨rfl, amount, Nat.not_lt.mp hamount, hsmall, .inr ⟨_, _, rfl⟩⟩ hout
      · exact Effect.isUnknown_clobber dst
    · next heq => cases heq
    · exact Effect.isUnknown_clobber dst
  case extend source signed =>
    dsimp only
    rw [extendEffect.eq_def]
    split
    · next heq =>
      cases heq
      exact absurd (.extended hcounter) hkept
    · exact Effect.isUnknown_clobber dst

/-- The same for an operation that combines the program counter with a constant and leaves the result there. -/
theorem isUnknown_of_itself {value : Word} (h : singleEffect? op = some effect) (hcounter : dst = 15)
    (hop : op ∉ [.move, .moveNot, .moveWide]) (hkept : ¬ Follows dst op [.immediate value])
    (hout : ¬ ShiftsOut op [.immediate value]) : (effect dst [.immediate value]).IsUnknown := by
  cases op <;> cases h
  case move | moveNot | moveWide => exact absurd (by decide) hop
  case add | subtract => exact isUnknown_if_counter hcounter
  case reverseSubtract | addressOf | extend => exact Effect.isUnknown_clobber dst
  case shiftLeft =>
    rw [shiftEffect.eq_def]
    dsimp only
    split
    · next hsmall =>
      have hamount : ¬ value.toNat < 32 := fun hamount => hkept (.shiftedItself hcounter hamount)
      exact absurd ⟨rfl, value, Nat.not_lt.mp hamount, hsmall, .inl rfl⟩ hout
    · exact Effect.isUnknown_clobber dst

theorem isUnknown_of_takes (h : singleEffect? op = some effect) (htakes : Takes dst op sources)
    (hkept : ¬ Follows dst op sources) (hout : ¬ ShiftsOut op sources) : (effect dst sources).IsUnknown := by
  -- Two registers in front are not combined, so a counter behind a register leaves nothing to be followed.
  cases htakes with
  | @source front rest view hfront hcounter =>
    match front with
    | [] => exact isUnknown_of_counter h hcounter hkept hout
    | [o] => exact isUnknown_of_registers h (hfront o List.mem_cons_self) rfl
    | o :: o' :: _ =>
      exact isUnknown_of_registers h (hfront o List.mem_cons_self) (hfront o' (List.mem_cons_of_mem _ List.mem_cons_self))
  | address => exact isUnknown_of_address h
  | itself hop hcounter => exact isUnknown_of_itself h hcounter hop hkept hout

/-! ### Instructions -/

theorem operation_ne_of_single (h : singleEffect? op = some effect) : op ≠ .moveFloating ∧ op ≠ .noWrite := by
  constructor
  · rintro rfl
    cases h
  · rintro rfl
    cases h

/-- A mnemonic that names an operation with one destination says whether it is conditional. -/
theorem Means.condition_unique {m : List Char} {conditional' : Bool} (h : Means m op conditional)
    (h' : Means m op conditional') (hsingle : singleEffect? op = some effect) : conditional = conditional' := by
  obtain ⟨seen, hclass, hseen⟩ := h.exists_classify
  obtain ⟨seen', hclass', hseen'⟩ := h'.exists_classify
  have hplain := not_or.mpr (operation_ne_of_single hsingle)
  rw [hclass] at hclass'
  cases hclass'
  exact (hseen.resolve_right hplain).symm.trans (hseen'.resolve_right hplain)

theorem not_follows_of_not_single (h : singleEffect? op = none) : ¬ Follows dst op sources := by
  rintro (- | - | -)
  · cases h
  · cases h
  · cases h

/-- What an operation without a single effect writes is unknown. -/
theorem isUnknown_of_not_single (h : singleEffect? op = none) (he : e ∈ effectsOf d op conditional) :
    e.IsUnknown := by
  cases heffects : operationEffects? d op with
  | none =>
    rw [effectsOf, heffects] at he
    exact .inr ⟨_, List.mem_singleton.mp he⟩
  | some effects =>
    simp only [effectsOf, heffects] at he
    cases conditional with
    | true => exact .inl (clobber_of_mem_clobberAll e he)
    | false => exact .inl (clobbers_of_not_single h heffects e he)

/-- An instruction reads the program counter if its operation does and it is not conditional. -/
theorem exists_source?_iff (hmeans : Means d.mnemonic.toList op conditional) :
    (∃ e ∈ effectsOf d op conditional, e.source? = some 15) ↔ FollowsCounter d := by
  have hfollows : FollowsCounter d ↔ Means d.mnemonic.toList op false ∧
      ∃ view, d.register? 0 = some view ∧ Follows view.register op d.operands.tail := by
    constructor
    · rintro ⟨op', view, hmeans', hview, hfollows⟩
      obtain rfl := hmeans.unique hmeans'
      exact ⟨hmeans', view, hview, hfollows⟩
    · rintro ⟨hmeans', view, hview, hfollows⟩
      exact ⟨op, view, hmeans', hview, hfollows⟩
  rw [hfollows]
  cases hsingle : singleEffect? op with
  | none =>
    refine iff_of_false ?_ ?_
    · rintro ⟨e, he, hsource⟩
      rw [(isUnknown_of_not_single hsingle he).source?] at hsource
      cases hsource
    · rintro ⟨-, view, -, hfollows⟩
      exact not_follows_of_not_single hsingle hfollows
  | some effect =>
    rw [effectsOf, operationEffects?_of_single hsingle]
    cases hview : d.register? 0 with
    | none => simp [Effect.source?]
    | some view =>
      cases conditional with
      | true =>
        refine iff_of_false ?_ fun h => absurd (hmeans.condition_unique h.1 hsingle) Bool.noConfusion
        rintro ⟨e, he, hsource⟩
        obtain ⟨r, rfl⟩ := clobber_of_mem_clobberAll e he
        cases hsource
      | false => simp [hmeans, source?_iff_follows hsingle]

/-- An instruction that takes the program counter and does not read it leaves its destination unknown. -/
theorem losesDestination_of_takes (hview : d.register? 0 = some view) (hop : op ∉ sparing)
    (htakes : Takes view.register op d.operands.tail) (hout : ¬ ShiftsOut op d.operands.tail)
    (hkept : ¬ (conditional = false ∧ Follows view.register op d.operands.tail)) :
    LosesDestination (instructionOf d op conditional) d.operands := by
  cases hsingle : singleEffect? op with
  | none =>
    refine ⟨fun e he => isUnknown_of_not_single hsingle he, fun view' hview' => ?_⟩
    rw [Decoded.head?_register?] at hview'
    exact mem_written_of_covers (covers_first hview' hop)
  | some effect =>
    have heffects : operationEffects? d op = some [effect view.register d.operands.tail] := by
      rw [operationEffects?_of_single hsingle, hview]
      rfl
    rw [losesDestination_iff_of_effect hview heffects (written_of_single _ _ hsingle)]
    cases conditional with
    | true => exact .inl rfl
    | false => exact .inr (isUnknown_of_takes hsingle htakes (fun h => hkept ⟨rfl, h⟩) hout)

/-- An effect reads the program counter exactly if the instruction is a left shift of it by a constant or an extension
of it; every other instruction whose value depends on it leaves its destination unknown. -/
theorem lift_counter (d : Decoded) (h : ¬ Arch.arm32.CannotLift d.mnemonic.toList) :
    ∃ i, Semantics.lift Arch.arm32.semantics d = .ok i ∧
      ((∃ e ∈ i.effects, e.source? = some 15) ↔ FollowsCounter d) ∧
      (TakesCounter d → ¬ FollowsCounter d → LosesDestination i d.operands) := by
  rcases lift_cases fun hsplits => h ⟨rfl, hsplits⟩ with ⟨op, conditional, hmeans, hlift⟩ | ⟨hunknown, hlift⟩
  · refine ⟨_, hlift, exists_source?_iff hmeans, ?_⟩
    rintro ⟨view, hview, htakes⟩ hkept
    obtain ⟨hop, htakes, hout⟩ := htakes op conditional hmeans
    refine losesDestination_of_takes hview hop htakes hout ?_
    rintro ⟨rfl, hfollows⟩
    exact hkept ⟨op, view, hmeans, hview, hfollows⟩
  · refine ⟨_, hlift, ?_, fun _ _ => losesDestination_unmodeled d⟩
    refine iff_of_false ?_ ?_
    · rintro ⟨e, he, hsource⟩
      rw [List.mem_singleton.mp he] at hsource
      cases hsource
    · rintro ⟨op, view, hmeans, -⟩
      exact hunknown op false hmeans

/-- `add r0, pc, #4`. -/
def addCounter : Decoded := ⟨0x1000, 4, "add", [.register ⟨0, 32⟩, .register ⟨15, 32⟩, .immediate 4]⟩

/-- The sum of the program counter and a constant is unknown. -/
theorem addCounter_loses_destination : ¬ Arch.arm32.CannotLift addCounter.mnemonic.toList ∧ TakesCounter addCounter ∧
    ∃ i, Semantics.lift Arch.arm32.semantics addCounter = .ok i ∧ (∀ e ∈ i.effects, e.source? ≠ some 15) ∧
      LosesDestination i addCounter.operands := by
  have hknown : operation? addCounter.mnemonic.toList = some .add := by decide
  have hmeans : Means addCounter.mnemonic.toList .add false := ⟨_, [], (List.append_nil _).symm, hknown, .inl rfl⟩
  have hlift : ¬ Arch.arm32.CannotLift addCounter.mnemonic.toList := by
    rintro ⟨-, hnone, -⟩
    rw [hknown] at hnone
    cases hnone
  have htakes : TakesCounter addCounter := by
    refine ⟨_, rfl, fun op conditional hmeans' => ?_⟩
    obtain rfl := hmeans.unique hmeans'
    refine ⟨by decide, Takes.source (fun o ho => absurd ho List.not_mem_nil) rfl, ?_⟩
    rintro ⟨hshift, -⟩
    cases hshift
  have hkept : ¬ FollowsCounter addCounter := by
    rintro ⟨op, view, hmeans', -, hfollows⟩
    obtain rfl := hmeans.unique hmeans'
    have hadd : ¬ Follows view.register .add addCounter.operands.tail := not_follows (by simp) (by simp)
    exact hadd hfollows
  obtain ⟨i, hi, hsource, hloses⟩ := lift_counter addCounter hlift
  exact ⟨hlift, htakes, i, hi, fun e he heq => hkept (hsource.mp ⟨e, he, heq⟩), hloses htakes hkept⟩

/-- `lsl r0, pc, #3` and `uxtb r0, pc` are given a value computed from the program counter. -/
theorem shift_and_extension_follow_counter :
    Operand.readAll .arm32 "r0, pc, #3".toList = .ok [.register ⟨0, 32⟩, .register ⟨15, 32⟩, .immediate 3] ∧
      Semantics.lift Arch.arm32.semantics
          ⟨0x1000, 4, "lsl", [.register ⟨0, 32⟩, .register ⟨15, 32⟩, .immediate 3]⟩ =
        .ok ⟨0x1000, 4, "lsl", [.affine 0 15 8 0 32]⟩ ∧
      Operand.readAll .arm32 "r0, pc".toList = .ok [.register ⟨0, 32⟩, .register ⟨15, 32⟩] ∧
      Semantics.lift Arch.arm32.semantics ⟨0x1000, 4, "uxtb", [.register ⟨0, 32⟩, .register ⟨15, 32⟩]⟩ =
        .ok ⟨0x1000, 4, "uxtb", [.extend 0 15 8 32 false]⟩ ∧
      ¬ ∀ (d : Decoded) (i : Instruction), Semantics.lift Arch.arm32.semantics d = .ok i →
        ∀ e ∈ i.effects, e.source? ≠ some 15 := by
  have hshift : Semantics.lift Arch.arm32.semantics
      ⟨0x1000, 4, "lsl", [.register ⟨0, 32⟩, .register ⟨15, 32⟩, .immediate 3]⟩ =
        .ok ⟨0x1000, 4, "lsl", [.affine 0 15 8 0 32]⟩ := by decide
  refine ⟨by decide, hshift, by decide, by decide, fun hnever => ?_⟩
  exact hnever _ _ hshift _ List.mem_cons_self rfl

end Arm32

end CallFacts
