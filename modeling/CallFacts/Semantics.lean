import CallFacts.Decoded

/-!
# Instruction semantics

A model says what an instruction does to the registers, or passes it on. Models are asked in order,
and an instruction that all pass on becomes a single unmodeled effect.
-/

namespace CallFacts

/-- Why an instruction cannot be lifted at all: its condition would be the last two bytes of the
mnemonic, and they begin inside a character. -/
inductive LiftError where
  | conditionSplitsCharacter (mnemonic : String)
deriving DecidableEq, Repr

def LiftError.message : LiftError → String
  | conditionSplitsCharacter mnemonic => "the condition of `" ++ mnemonic ++ "` begins inside a character"

/-- The effects of an instruction, or none to pass it on to the next model. -/
abbrev Model := Decoded → Except LiftError (Option (List Effect))

namespace Semantics

/-- The answer of the first model that does not pass. -/
def firstAnswer : List Model → Model
  | [], _ => .ok none
  | model :: rest, d => do
    match ← model d with
    | some effects => return some effects
    | none => firstAnswer rest d

/-- The instruction with the effects that the models give it. -/
def lift (models : List Model) (d : Decoded) : Except LiftError Instruction := do
  let answer ← firstAnswer models d
  return ⟨d.address, d.size, d.mnemonic, answer.getD [.unmodeled d.possiblyWritten]⟩

end Semantics

end CallFacts
