import CallFacts.Proofs.Conditional

/-!
# Operations with one destination

Some operations of 32-bit ARM have a destination, their first operand, and one effect, which writes it and nothing
else whatever operands follow. All that the other operations write is unknown.
-/

namespace CallFacts.Arm32

variable {op : Operation} {d : Decoded} {effect : Register → List Operand → Effect}

/-! ### Effects -/

/-- The effect of an operation that has one destination, by the destination and the operands after it. -/
def singleEffect? : Operation → Option (Register → List Operand → Effect)
  | .move => some moveEffect
  | .moveNot => some fun dst => constantEffect dst fun value => Word.keepLow registerBits (~~~value)
  | .moveWide => some fun dst => constantEffect dst (Word.keepLow 16)
  | .add => some fun dst => addEffect dst id
  | .subtract => some fun dst => addEffect dst (- ·)
  | .reverseSubtract => some reverseSubtractEffect
  | .shiftLeft => some shiftEffect
  | .addressOf => some addressEffect
  | .extend source signed => some fun dst => extendEffect dst source signed
  | .moveFloating | .coprocessorRead | .compute | .longMultiply | .load | .store | .exclusiveStore | .push | .pop
  | .call | .supervisorCall | .noWrite => none

/-- Without a destination such an operation is not understood. -/
theorem operationEffects?_of_single (h : singleEffect? op = some effect) :
    operationEffects? d op = (d.register? 0).map fun view => [effect view.register d.operands.tail] := by
  cases op <;> cases h <;> rfl

theorem clobber_of_mem_clobberFirst (d : Decoded) : ∀ e ∈ d.clobberFirst, ∃ r, e = .clobber r := by
  intro e he
  obtain ⟨view, -, rfl⟩ := List.mem_map.mp he
  exact ⟨_, rfl⟩

theorem clobber_of_mem_storeEffects (d : Decoded) : ∀ e ∈ d.storeEffects, ∃ r, e = .clobber r := by
  intro e he
  obtain ⟨r, -, rfl⟩ := List.mem_map.mp he
  exact ⟨r, rfl⟩

/-- What any other operation writes is unknown. -/
theorem clobbers_of_not_single {effects : List Effect} (h : singleEffect? op = none)
    (heffects : operationEffects? d op = some effects) : ∀ e ∈ effects, ∃ r, e = .clobber r := by
  intro e he
  cases op <;> cases h <;> cases heffects
  case moveFloating => exact clobber_of_mem_clobberAll e he
  case coprocessorRead => exact clobber_of_mem_clobberAll e he
  case compute => exact clobber_of_mem_clobberFirst d e he
  case longMultiply =>
    obtain ⟨view, -, rfl⟩ := List.mem_map.mp he
    exact ⟨_, rfl⟩
  case load => exact clobber_of_mem_clobberAll e he
  case store => exact clobber_of_mem_storeEffects d e he
  case exclusiveStore =>
    exact (List.mem_append.mp he).elim (clobber_of_mem_clobberFirst d e) (clobber_of_mem_storeEffects d e)
  case push => exact ⟨_, List.mem_singleton.mp he⟩
  case pop =>
    rcases List.mem_append.mp he with he | he
    · exact clobber_of_mem_clobberAll e he
    · exact ⟨_, List.mem_singleton.mp he⟩
  case call => exact ⟨_, List.mem_singleton.mp he⟩
  case supervisorCall => exact ⟨_, List.mem_singleton.mp he⟩
  case noWrite => cases he

/-! ### Destinations -/

variable (dst : Register) (sources : List Operand)

theorem written_shiftLeftEffect (src : Register) (amount : Nat) :
    (shiftLeftEffect dst src amount).written = RegisterSet.insert ∅ dst := by
  rw [shiftLeftEffect]
  split <;> rfl

theorem written_moveEffect : (moveEffect dst sources).written = RegisterSet.insert ∅ dst := by
  rw [moveEffect.eq_def]
  split
  · rfl
  · split <;> rfl
  · split
    · rfl
    · exact written_shiftLeftEffect _ _ _
  · rfl

theorem written_constantEffect (f : Word → Word) :
    (constantEffect dst f sources).written = RegisterSet.insert ∅ dst := by
  rw [constantEffect.eq_def]
  split <;> rfl

theorem written_addEffect (f : Word → Word) : (addEffect dst f sources).written = RegisterSet.insert ∅ dst := by
  rw [addEffect.eq_def]
  split
  · split <;> rfl
  · split <;> rfl
  · rfl

theorem written_reverseSubtractEffect :
    (reverseSubtractEffect dst sources).written = RegisterSet.insert ∅ dst := by
  rw [reverseSubtractEffect.eq_def]
  split
  · split <;> rfl
  · rfl

theorem written_shiftEffect : (shiftEffect dst sources).written = RegisterSet.insert ∅ dst := by
  rw [shiftEffect.eq_def]
  split
  · split
    · exact written_shiftLeftEffect _ _ _
    · rfl
  · split
    · exact written_shiftLeftEffect _ _ _
    · rfl
  · rfl

theorem written_addressEffect : (addressEffect dst sources).written = RegisterSet.insert ∅ dst := by
  rw [addressEffect.eq_def]
  split <;> rfl

theorem written_extendEffect (source : Nat) (signed : Bool) :
    (extendEffect dst source signed sources).written = RegisterSet.insert ∅ dst := by
  rw [extendEffect.eq_def]
  split <;> rfl

/-- The effect writes the destination and nothing else. -/
theorem written_of_single (h : singleEffect? op = some effect) :
    (effect dst sources).written = RegisterSet.insert ∅ dst := by
  cases op <;> cases h
  case move => exact written_moveEffect dst sources
  case moveNot => exact written_constantEffect dst sources _
  case moveWide => exact written_constantEffect dst sources _
  case add => exact written_addEffect dst sources _
  case subtract => exact written_addEffect dst sources _
  case reverseSubtract => exact written_reverseSubtractEffect dst sources
  case shiftLeft => exact written_shiftEffect dst sources
  case addressOf => exact written_addressEffect dst sources
  case extend source signed => exact written_extendEffect dst sources source signed

end CallFacts.Arm32
