import CallFacts.Arch

/-!
# Instruction operands

The operands of a disassembled instruction, as far as they matter to register contents.
-/

namespace CallFacts

/-- A shift or extension of the operand before it. -/
inductive ShiftKind where
  | lsl
  | lsr
  | asr
  | ror
  | rrx
  | extend
deriving DecidableEq, Repr

/-- The shift of a lower-case name; all register extensions count as one. -/
def ShiftKind.ofName? : String → Option ShiftKind
  | "lsl" => some lsl
  | "lsr" => some lsr
  | "asr" => some asr
  | "ror" => some ror
  | "rrx" => some rrx
  | "uxtb" | "uxth" | "uxtw" | "uxtx" | "sxtb" | "sxth" | "sxtw" | "sxtx" => some extend
  | _ => none

/-- One operand. -/
inductive Operand where
  /-- A core register. -/
  | register (view : RegisterView)
  /-- A core register that is written back, as in `r4!`. -/
  | writeback (view : RegisterView)
  /-- The register that reads zero, at a width. -/
  | zero (bits : Nat)
  /-- A constant in two's complement. -/
  | immediate (value : Word)
  | shift (kind : ShiftKind) (amount : Nat)
  /-- A memory reference, with its base if that is a core register. -/
  | memory (base : Option RegisterView) (updatesBase : Bool)
  | registerList (registers : RegisterSet)
  /-- A bare code or data address. -/
  | target (address : Word)
  /-- Any other text. -/
  | other (text : String)
deriving DecidableEq, Repr

def Operand.register? : Operand → Option RegisterView
  | register view | writeback view => some view
  | _ => none

/-- Why an operand text is refused. -/
inductive OperandError where
  | empty
  | unbalanced (text : String)
deriving DecidableEq, Repr

def OperandError.message : OperandError → String
  | empty => "empty operand"
  | unbalanced text => "unbalanced brackets in `" ++ text ++ "`"

end CallFacts
