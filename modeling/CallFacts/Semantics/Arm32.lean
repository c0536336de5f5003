import CallFacts.Semantics

/-!
# Semantics of 32-bit ARM

A mnemonic names an operation, perhaps with a flag-setting `s`, perhaps followed by a condition.
Constants, copies, additions of constants, left shifts and extensions keep their values; every other
write is unknown, and so is every write of a conditional instruction.
-/

namespace CallFacts.Arm32

/-- What a mnemonic without its condition does. -/
inductive Operation where
  | move
  | moveNot
  | moveWide
  | add
  | subtract
  | reverseSubtract
  | shiftLeft
  | addressOf
  | extend (source : Nat) (signed : Bool)
  /-- A move between core and floating-point registers; it writes its leading core registers. -/
  | moveFloating
  /-- A read of coprocessor registers; the core registers follow other operands. -/
  | coprocessorRead
  /-- A computation whose result is not followed. -/
  | compute
  | longMultiply
  | load
  | store
  /-- A store whose first operand receives a status. -/
  | exclusiveStore
  | push
  | pop
  | call
  | supervisorCall
  | noWrite
deriving DecidableEq, Repr

/-- The condition suffixes, without the one that means always. -/
def conditions : List String :=
  ["eq", "ne", "cs", "hs", "cc", "lo", "mi", "pl", "vs", "vc", "hi", "ls", "ge", "lt", "gt", "le"]

/-- The mnemonics that may carry an `s` to set the flags. -/
def flagSetting : List String :=
  ["mov", "mvn", "add", "sub", "rsb", "rsc", "adc", "sbc", "and", "orr", "eor", "bic", "orn", "lsl", "lsr",
    "asr", "ror", "rrx", "mul", "mla", "umull", "smull"]

/-- The computations whose result is not followed. -/
def computations : List String :=
  ["adc", "sbc", "rsc", "and", "orr", "eor", "bic", "orn", "lsr", "asr", "ror", "rrx", "mul", "mla", "mls",
    "sdiv", "udiv", "clz", "rev", "rev16", "revsh", "rbit", "bfi", "bfc", "ubfx", "sbfx", "uxtab", "uxtah",
    "sxtab", "sxtah", "qadd", "qsub", "usat", "ssat", "sel", "mrs", "vmrs", "movt"]

/-- The multiplications with two destinations. -/
def longMultiplies : List String := ["umull", "smull", "umlal", "smlal", "umaal", "smlald"]

def loads : List String :=
  ["ldr", "ldrb", "ldrh", "ldrsb", "ldrsh", "ldrd", "ldrex", "ldrexb", "ldrexh", "ldrexd", "ldrt", "ldm",
    "ldmia", "ldmfd", "ldmdb", "ldmea", "ldmib", "ldmda"]

def stores : List String :=
  ["str", "strb", "strh", "strd", "strt", "stm", "stmia", "stmea", "stmdb", "stmfd", "stmib", "stmda", "vstr"]

/-- The stores whose first operand receives a status. -/
def exclusiveStores : List String := ["strex", "strexb", "strexh", "strexd"]

/-- The instructions that write no core register. -/
def noWrites : List String :=
  ["cmp", "cmn", "tst", "teq", "b", "bx", "cbz", "cbnz", "nop", "it", "ite", "itt", "itet", "dmb", "dsb",
    "isb", "pld", "bkpt"]

/-- The mnemonic without a flag-setting `s`. -/
def dropFlagSetting (mnemonic : List Char) : List Char :=
  match Text.dropEnd? ['s'] mnemonic with
  | some base => if String.ofList base ∈ flagSetting then base else mnemonic
  | none => mnemonic

/-- The operation of a mnemonic without its condition and without a flag-setting `s`. -/
def plainOperation? (mnemonic : List Char) : Option Operation :=
  let name := String.ofList mnemonic
  if name ∈ ["mov", "cpy"] then some .move
  else if name = "mvn" then some .moveNot
  else if name = "movw" then some .moveWide
  else if name ∈ ["add", "addw"] then some .add
  else if name ∈ ["sub", "subw"] then some .subtract
  else if name = "rsb" then some .reverseSubtract
  else if name = "lsl" then some .shiftLeft
  else if name = "adr" then some .addressOf
  else if name = "uxtb" then some (.extend 8 false)
  else if name = "uxth" then some (.extend 16 false)
  else if name = "sxtb" then some (.extend 8 true)
  else if name = "sxth" then some (.extend 16 true)
  else if name ∈ ["mrc", "mrc2", "mrrc", "mrrc2"] then some .coprocessorRead
  -- A data type may follow a dot.
  else if name = "vmov" ∨ "vmov.".toList.isPrefixOf mnemonic then some .moveFloating
  else if name ∈ ["push", "vpush"] then some .push
  else if name ∈ ["pop", "vpop"] then some .pop
  else if "vcmp".toList.isPrefixOf mnemonic then some .noWrite
  else if name ∈ ["bl", "blx"] then some .call
  else if name ∈ ["svc", "swi"] then some .supervisorCall
  else if name ∈ longMultiplies then some .longMultiply
  else if name ∈ computations then some .compute
  else if name ∈ loads then some .load
  else if name ∈ stores then some .store
  else if name ∈ exclusiveStores then some .exclusiveStore
  else if name ∈ noWrites then some .noWrite
  else none

/-- The operation of a mnemonic without its condition. -/
def operation? (mnemonic : List Char) : Option Operation := plainOperation? (dropFlagSetting mnemonic)

/-- The operation of a mnemonic and whether it executes under a condition. A mnemonic that is an
operation as it stands has no condition; else its last two bytes may be one. -/
def classify (mnemonic : List Char) : Except LiftError (Option (Operation × Bool)) :=
  match operation? mnemonic with
  | some op => .ok (some (op, false))
  | none =>
    if Text.byteSize mnemonic ≤ 2 then .ok none
    else
      match Text.cutBytesFromEnd? 2 mnemonic with
      | none => .error (.conditionSplitsCharacter (String.ofList mnemonic))
      | some (head, suffix) =>
        let condition := String.ofList suffix
        -- The suffix that means always takes nothing away from the operation.
        if condition = "al" then .ok ((operation? head).map fun op => (op, false))
        else if condition ∈ conditions then .ok ((operation? head).map fun op => (op, true))
        else .ok none

/-- The program counter is no ordinary source: its content is the place of the instruction. -/
def isProgramCounter (r : Register) : Bool := r.val == 15

def stackPointer : Register := 13

def registerBits : Nat := Arch.arm32.registerBits

/-- `src` shifted left by a constant. -/
def shiftLeftEffect (dst src : Register) (amount : Nat) : Effect :=
  if registerBits ≤ amount then .immediate dst 0 else .affine dst src (BitVec.twoPow 64 amount) 0 registerBits

/-! ### Single writes, by the operands after the destination -/

/-- A move of a constant, a register, or a register shifted left. -/
def moveEffect (dst : Register) : List Operand → Effect
  | [.immediate value] => .immediate dst (Word.keepLow registerBits value)
  | [.register src] => if isProgramCounter src.register then .clobber dst else .copy dst src.register
  -- Of the shifts only this one is followed; the others leave the destination unknown.
  | .register src :: .shift .lsl amount :: _ =>
    if isProgramCounter src.register then .clobber dst else shiftLeftEffect dst src.register amount
  | _ => .clobber dst

/-- An addition of a function of the constant, with or without a source of its own. -/
def addEffect (dst : Register) (f : Word → Word) : List Operand → Effect
  | [.register src, .immediate value] =>
    if isProgramCounter src.register then .clobber dst
    else .affine dst src.register 1 (f value) registerBits
  | [.immediate value] =>
    if isProgramCounter dst then .clobber dst else .affine dst dst 1 (f value) registerBits
  | _ => .clobber dst

def reverseSubtractEffect (dst : Register) : List Operand → Effect
  | .register src :: .immediate value :: _ =>
    if isProgramCounter src.register then .clobber dst else .affine dst src.register (-1) value registerBits
  | _ => .clobber dst

/-- A left shift by a constant, with or without a source of its own. -/
def shiftEffect (dst : Register) : List Operand → Effect
  | .register src :: .immediate amount :: _ =>
    if amount.toNat < 256 then shiftLeftEffect dst src.register amount.toNat else .clobber dst
  | [.immediate amount] =>
    if amount.toNat < 256 then shiftLeftEffect dst dst amount.toNat else .clobber dst
  | _ => .clobber dst

def constantEffect (dst : Register) (f : Word → Word) : List Operand → Effect
  | .immediate value :: _ => .immediate dst (f value)
  | _ => .clobber dst

def addressEffect (dst : Register) : List Operand → Effect
  | .target address :: _ => .immediate dst (address &&& Arch.arm32.valueMask)
  | _ => .clobber dst

/-- An extension of a register without a rotation. -/
def extendEffect (dst : Register) (source : Nat) (signed : Bool) : List Operand → Effect
  | [.register src] => .extend dst src.register source registerBits signed
  | _ => .clobber dst

/-! ### Operations -/

/-- The effects of an operation that executes. An operation with one destination passes when its
first operand is no register. -/
def operationEffects? (d : Decoded) (op : Operation) : Option (List Effect) :=
  let one (effect : Register → List Operand → Effect) : Option (List Effect) :=
    (d.register? 0).map fun view => [effect view.register d.operands.tail]
  match op with
  | .move => one moveEffect
  | .moveNot => one fun dst => constantEffect dst fun value => Word.keepLow registerBits (~~~value)
  | .moveWide => one fun dst => constantEffect dst (Word.keepLow 16)
  | .add => one fun dst => addEffect dst id
  | .subtract => one fun dst => addEffect dst (- ·)
  | .reverseSubtract => one reverseSubtractEffect
  | .shiftLeft => one shiftEffect
  | .addressOf => one addressEffect
  | .extend source signed => one fun dst => extendEffect dst source signed
  | .moveFloating => some (Decoded.clobberAll d.leadingRegisters)
  | .coprocessorRead => some (Decoded.clobberAll d.registerOperands)
  | .compute => some d.clobberFirst
  | .longMultiply =>
    some ((d.register? 0).toList ++ (d.register? 1).toList |>.map fun view => .clobber view.register)
  | .load => some d.loadEffects
  | .store => some d.storeEffects
  | .exclusiveStore => some (d.clobberFirst ++ d.storeEffects)
  | .push => some [.clobber stackPointer]
  -- The list of a pop may hold the stack pointer; it is unknown either way.
  | .pop => some (d.loadEffects ++ [.clobber stackPointer])
  | .call => some [.clobber Arch.arm32.linkRegister]
  | .supervisorCall => some [.clobber 0]
  | .noWrite => some []

def writtenBy (effects : List Effect) : RegisterSet := effects.foldl (fun s e => s ∪ e.written) ∅

/-- The model of 32-bit ARM. An instruction that is skipped leaves the old values, so a conditional
one makes unknown all that it may write. -/
def model : Model := fun d => do
  match ← classify d.mnemonic.toList with
  | none => return none
  | some (op, conditional) =>
    return (operationEffects? d op).map fun effects =>
      if conditional then Decoded.clobberAll (writtenBy effects) else effects

end CallFacts.Arm32
