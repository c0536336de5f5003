import CallFacts.Register

/-!
# Architectures

The two instruction sets, their register files, and the registers a call may change. Register names
are read in either case; a numbered register is a letter and a number without a leading zero.
-/

namespace CallFacts

/-- An instruction set. -/
inductive Arch where
  | arm32
  | arm64
deriving DecidableEq, Repr

/-- A register seen at a width: `w3` is the low 32 bits of register 3. -/
structure RegisterView where
  register : Register
  bits : Nat
deriving DecidableEq, Repr

namespace Arch

def name : Arch → String
  | arm32 => "arm32"
  | arm64 => "arm64"

/-- The architecture of a name or alias, in any case. -/
def ofName? (text : String) : Option Arch :=
  match String.ofList (Text.lower text.toList) with
  | "arm32" | "arm" | "armv7" | "thumb" => some arm32
  | "arm64" | "aarch64" => some arm64
  | _ => none

def registerCount : Arch → Nat
  | arm32 => 16
  | arm64 => 32

def registerBits : Arch → Nat
  | arm32 => 32
  | arm64 => 64

theorem registerBits_le (arch : Arch) : arch.registerBits ≤ 64 := by
  cases arch <;> decide

/-- The address bits that only tell the instruction encoding. -/
def modeBits : Arch → Word
  | arm32 => 1#64
  | arm64 => 0#64

/-- An address without its mode bits. -/
def normalize (arch : Arch) (address : Word) : Word := address &&& ~~~arch.modeBits

def valueMask (arch : Arch) : Word := Word.mask arch.registerBits

/-- The register that receives the return address of a call. -/
def linkRegister : Arch → Register
  | arm32 => 14
  | arm64 => 30

/-- The argument and scratch registers. -/
def defaultTracked : Arch → RegisterSet
  | arm32 => (RegisterSet.below 4).insert 12
  | arm64 => RegisterSet.below 19

/-- The registers that a callee may change. -/
def callerSaved (arch : Arch) : RegisterSet := arch.defaultTracked.insert arch.linkRegister

/-! ### Register names -/

def registerNames : Arch → List String
  | arm32 =>
    ["r0", "r1", "r2", "r3", "r4", "r5", "r6", "r7", "r8", "r9", "r10", "r11", "r12", "sp", "lr", "pc"]
  | arm64 =>
    ["x0", "x1", "x2", "x3", "x4", "x5", "x6", "x7", "x8", "x9", "x10", "x11", "x12", "x13", "x14",
      "x15", "x16", "x17", "x18", "x19", "x20", "x21", "x22", "x23", "x24", "x25", "x26", "x27", "x28",
      "x29", "x30", "sp"]

/-- The name of a register; a question mark outside the register file. -/
def registerName (arch : Arch) (r : Register) : String := (arch.registerNames[r.val]?).getD "?"

/-- The number after a letter, below a limit and without a leading zero. -/
def numbered? (letter : Char) (limit : Nat) : List Char → Option Register
  | [] => none
  | c :: number =>
    if c = letter ∧ ¬ (1 < number.length ∧ number.head? = some '0') then
      match Text.byte? number with
      | some n => if n < limit then Register.ofIndex? n else none
      | none => none
    else none

/-- The register view that a lower-case name stands for. -/
def lowerRegister? : Arch → List Char → Option RegisterView
  | arm32, name =>
    let register? : Option Register :=
      match String.ofList name with
      | "sp" => some 13
      | "lr" => some 14
      | "pc" => some 15
      | "ip" => some 12
      | "fp" => some 11
      | "sb" => some 9
      | _ => numbered? 'r' 16 name
    register?.map fun r => ⟨r, 32⟩
  | arm64, name =>
    match String.ofList name with
    | "sp" => some ⟨31, 64⟩
    | "wsp" => some ⟨31, 32⟩
    | "fp" => some ⟨29, 64⟩
    | "lr" => some ⟨30, 64⟩
    | _ =>
      match numbered? 'x' 31 name with
      | some r => some ⟨r, 64⟩
      | none => (numbered? 'w' 31 name).map fun r => ⟨r, 32⟩

/-- The register view that a name in any case stands for. -/
def register? (arch : Arch) (name : List Char) : Option RegisterView :=
  arch.lowerRegister? (Text.lower name)

/-- Whether a name in any case is that of a register that always reads zero. -/
def isZeroRegister : Arch → List Char → Bool
  | arm32, _ => false
  | arm64, name => Text.lower name == "xzr".toList || Text.lower name == "wzr".toList

end Arch

end CallFacts
