import CallFacts.Register

/-!
# Register effects

What an instruction does to registers, as a closed list of cases. All effects of one instruction
read the registers as they were before it.
-/

namespace CallFacts

/-- One write of an instruction. Multipliers and offsets are in two's complement. -/
inductive Effect where
  /-- `dst` receives a constant. -/
  | immediate (dst : Register) (value : Word)
  /-- `dst` receives the content of `src`. -/
  | copy (dst src : Register)
  /-- `dst` receives the low `source` bits of `src`, extended to `target` bits. -/
  | extend (dst src : Register) (source target : Nat) (signed : Bool)
  /-- `dst` receives `src * multiplier + offset`, wrapped to `bits`. -/
  | affine (dst src : Register) (multiplier offset : Word) (bits : Nat)
  /-- `dst` receives an unknown value. -/
  | clobber (dst : Register)
  /-- The instruction is not understood; it may write any of these registers. -/
  | unmodeled (written : RegisterSet)
deriving DecidableEq, Repr

namespace Effect

/-- `dst` receives `src + offset`, wrapped to `bits`. -/
def offset (dst src : Register) (amount : Word) (bits : Nat) : Effect := affine dst src 1 amount bits

def written : Effect → RegisterSet
  | immediate dst _ | copy dst _ | extend dst _ _ _ _ | affine dst _ _ _ _ | clobber dst =>
    RegisterSet.insert ∅ dst
  | unmodeled written => written

/-- Whether the effect stands for an instruction that is not understood. -/
def isUnmodeled : Effect → Bool
  | unmodeled _ => true
  | _ => false

end Effect

/-- An instruction with its effects. -/
structure Instruction where
  address : Word
  size : Nat
  mnemonic : String
  effects : List Effect
deriving DecidableEq, Repr

namespace Instruction

def written (i : Instruction) : RegisterSet := i.effects.foldl (fun s e => s ∪ e.written) ∅

def hasDecodeGap (i : Instruction) : Bool := i.effects.any Effect.isUnmodeled

end Instruction

end CallFacts
