import CallFacts.Effect
import CallFacts.Operand
import CallFacts.Text.Cut

/-!
# Decoded instructions

An instruction as a disassembler shows it, and which registers its operands let it write when
nothing more is known about it, when it loads and when it stores.
-/

namespace CallFacts

/-- A disassembled instruction. The mnemonic is in lower case and has no width qualifier. -/
structure Decoded where
  address : Word
  size : Nat
  mnemonic : String
  operands : List Operand
deriving DecidableEq, Repr

namespace Decoded

/-- The mnemonic in lower case without one width qualifier `.w` or `.n` at its end. -/
def normalizeMnemonic (mnemonic : List Char) : List Char :=
  let name := Text.lower mnemonic
  match Text.dropEnd? ['.', 'w'] name with
  | some base => base
  | none => (Text.dropEnd? ['.', 'n'] name).getD name

def ofText (address : Word) (size : Nat) (mnemonic : List Char) (operands : List Operand) : Decoded :=
  ⟨address, size, String.ofList (normalizeMnemonic mnemonic), operands⟩

/-- The address and mnemonic, as in `0x10400: mov`. -/
def text (d : Decoded) : String := Text.hex d.address ++ ": " ++ d.mnemonic

/-- The register view of an operand, if it is a register. -/
def register? (d : Decoded) (i : Nat) : Option RegisterView := (d.operands[i]?).bind Operand.register?

/-- The register operands ahead of the first operand of another kind; the zero register counts as
one but is no member. -/
def leadingRegisters (d : Decoded) : RegisterSet :=
  let registers := d.operands.takeWhile fun
    | .register _ | .writeback _ | .zero _ => true
    | _ => false
  RegisterSet.ofList (registers.filterMap fun o => o.register?.map RegisterView.register)

def registerOperands (d : Decoded) : RegisterSet :=
  RegisterSet.ofList (d.operands.filterMap fun o => o.register?.map RegisterView.register)

def listedRegisters (operands : List Operand) : RegisterSet :=
  operands.foldl (fun s o => match o with
    | .registerList registers => s ∪ registers
    | _ => s) ∅

/-- The base of the first operand that is written back: a register with writeback, or a memory
reference that updates its base or is followed by another operand. -/
def writebackBase? : List Operand → Option Register
  | [] => none
  | .writeback view :: _ => some view.register
  | .memory base updatesBase :: rest =>
    if updatesBase || !rest.isEmpty then base.map RegisterView.register else writebackBase? rest
  | _ :: rest => writebackBase? rest

def withWriteback (d : Decoded) (s : RegisterSet) : RegisterSet :=
  match writebackBase? d.operands with
  | some base => s.insert base
  | none => s

/-- What an instruction that is not understood may write: its leading registers, its register lists
and a base that is written back. -/
def possiblyWritten (d : Decoded) : RegisterSet :=
  d.withWriteback (d.leadingRegisters ∪ listedRegisters d.operands)

/-- What a load fills: the plain registers and register lists ahead of the memory reference. -/
def loadedRegisters (d : Decoded) : RegisterSet :=
  let destinations := d.operands.takeWhile fun
    | .memory _ _ => false
    | _ => true
  RegisterSet.ofList (destinations.filterMap fun
    | .register view => some view.register
    | _ => none) ∪ listedRegisters destinations

/-- An unknown value for every register of a set, in ascending order. -/
def clobberAll (s : RegisterSet) : List Effect := s.toList.map Effect.clobber

/-- An unknown value for the first operand, if it is a register. -/
def clobberFirst (d : Decoded) : List Effect :=
  (d.register? 0).toList.map fun view => Effect.clobber view.register

/-- A load changes the registers it fills and a base that is written back. -/
def loadEffects (d : Decoded) : List Effect := clobberAll (d.withWriteback d.loadedRegisters)

/-- A store changes only a base that is written back. -/
def storeEffects (d : Decoded) : List Effect := (writebackBase? d.operands).toList.map Effect.clobber

end Decoded

end CallFacts
