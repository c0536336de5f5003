import CallFacts.Semantics

/-!
# Semantics of 64-bit ARM

A write through a 32-bit view clears the upper half of the register, so results are cut to the view's
width. A write to the zero register is discarded.
-/

namespace CallFacts.Arm64

/-- The computations whose result is not followed. -/
def computations : List String :=
  ["and", "ands", "eor", "eon", "bic", "bics", "orn", "mul", "madd", "msub", "mneg", "udiv", "sdiv", "lsr",
    "asr", "ror", "mvn", "adc", "adcs", "sbc", "sbcs", "ngc", "ubfx", "sbfx", "ubfiz", "sbfiz", "bfi", "bfxil",
    "extr", "clz", "cls", "rev", "rev16", "rev32", "rbit", "umulh", "smulh", "umaddl", "smaddl", "csel",
    "csinc", "csinv", "csneg", "movk", "cset", "csetm", "cinc", "cinv", "cneg", "mrs"]

def loads : List String :=
  ["ldr", "ldrb", "ldrh", "ldrsb", "ldrsh", "ldrsw", "ldur", "ldurb", "ldurh", "ldursw", "ldp", "ldpsw", "ldxr",
    "ldaxr", "ldar", "ldnp"]

def stores : List String :=
  ["str", "strb", "strh", "stur", "sturb", "sturh", "stp", "stnp", "stlr", "stlrb"]

/-- The stores whose first operand receives a status. -/
def exclusiveStores : List String := ["stxr", "stlxr", "stxp", "stlxp"]

/-- The instructions that write no core register. -/
def noWrites : List String :=
  ["cmp", "cmn", "tst", "ccmp", "ccmn", "b", "br", "ret", "cbz", "cbnz", "tbz", "tbnz", "nop", "dmb", "dsb",
    "isb", "prfm", "hint"]

def isStackPointer (r : Register) : Bool := r.val == 31

/-- The amount of a left shift at the head of the operands: zero if there is none, nothing if the
first operand is anything but a left shift below 64. -/
def leftShift? : List Operand → Option Nat
  | [] => some 0
  | .shift .lsl amount :: _ => if amount < 64 then some amount else none
  | _ => none

/-- A move between registers; unless both are seen whole, 32 bits move. -/
def copyEffect (dst src : RegisterView) : Effect :=
  if dst.bits = 64 ∧ src.bits = 64 then .copy dst.register src.register
  else .offset dst.register src.register 0 32

/-! ### Single writes, by the operands after the destination -/

def moveEffect (dst : RegisterView) : List Operand → Effect
  | [.immediate value] => .immediate dst.register (Word.keepLow dst.bits value)
  -- The zero register reads as zero through both views.
  | [.zero _] => .immediate dst.register 0
  | [.register src] => copyEffect dst src
  | _ => .clobber dst.register

def moveWideEffect (dst : RegisterView) (f : Word → Word) : List Operand → Effect
  | .immediate value :: rest =>
    match leftShift? rest with
    | some amount => .immediate dst.register (Word.keepLow dst.bits (f (value <<< amount)))
    | none => .clobber dst.register
  | _ => .clobber dst.register

def addEffect (dst : RegisterView) (f : Word → Word) : List Operand → Effect
  | .register src :: .immediate value :: rest =>
    match leftShift? rest with
    | some amount => .offset dst.register src.register (f (value <<< amount)) dst.bits
    | none => .clobber dst.register
  | _ => .clobber dst.register

/-- A disjunction with zero, which moves a constant or a register. -/
def orEffect (dst : RegisterView) : List Operand → Effect
  | [.zero _, .immediate value] => .immediate dst.register (Word.keepLow dst.bits value)
  | [.zero _, .register src] => copyEffect dst src
  | _ => .clobber dst.register

/-- A left shift by a constant below the view's width. -/
def shiftEffect (dst : RegisterView) : List Operand → Effect
  | .register src :: .immediate amount :: _ =>
    if amount.toNat < dst.bits then
      .affine dst.register src.register (BitVec.twoPow 64 amount.toNat) 0 dst.bits
    else .clobber dst.register
  | _ => .clobber dst.register

/-- A negation; the stack pointer is no source. -/
def negateEffect (dst : RegisterView) : List Operand → Effect
  | [.register src] =>
    if isStackPointer src.register then .clobber dst.register
    else .affine dst.register src.register (-1) 0 dst.bits
  | _ => .clobber dst.register

/-- An extension of the low bits of a register to the view's width. -/
def extendEffect (dst : RegisterView) (source : Nat) (signed : Bool) : List Operand → Effect
  | [.register src] => .extend dst.register src.register source dst.bits signed
  | _ => .clobber dst.register

def addressEffect (dst : RegisterView) : List Operand → Effect
  | .target address :: _ => .immediate dst.register address
  | _ => .clobber dst.register

/-! ### Instructions -/

/-- The effect of an instruction with one destination, by the operands after it. -/
def writeEffect? (mnemonic : String) (dst : RegisterView) (sources : List Operand) : Option Effect :=
  match mnemonic with
  | "mov" => some (moveEffect dst sources)
  | "movz" => some (moveWideEffect dst id sources)
  | "movn" => some (moveWideEffect dst (~~~ ·) sources)
  | "add" | "adds" => some (addEffect dst id sources)
  | "sub" | "subs" => some (addEffect dst (- ·) sources)
  | "orr" => some (orEffect dst sources)
  | "lsl" => some (shiftEffect dst sources)
  | "neg" | "negs" => some (negateEffect dst sources)
  | "uxtb" => some (extendEffect dst 8 false sources)
  | "uxth" => some (extendEffect dst 16 false sources)
  | "uxtw" => some (extendEffect dst 32 false sources)
  | "sxtb" => some (extendEffect dst 8 true sources)
  | "sxth" => some (extendEffect dst 16 true sources)
  | "sxtw" => some (extendEffect dst 32 true sources)
  | "adr" | "adrp" => some (addressEffect dst sources)
  | _ => if mnemonic ∈ computations then some (.clobber dst.register) else none

/-- The effects of an instruction by its destination; one that discards its result must still be
known. -/
def destinationEffects? (d : Decoded) : Option (List Effect) :=
  match d.operands with
  | .register view :: sources | .writeback view :: sources =>
    (writeEffect? d.mnemonic view sources).map fun effect => [effect]
  | .zero _ :: sources => (writeEffect? d.mnemonic ⟨0, 64⟩ sources).map fun _ => []
  | _ => none

/-- The effects of an instruction, none if it is not known. -/
def effects? (d : Decoded) : Option (List Effect) :=
  if "b.".toList.isPrefixOf d.mnemonic.toList || d.mnemonic ∈ noWrites then some []
  else if d.mnemonic ∈ loads then some d.loadEffects
  else if d.mnemonic ∈ stores then some d.storeEffects
  else if d.mnemonic ∈ exclusiveStores then some (d.clobberFirst ++ d.storeEffects)
  else if d.mnemonic ∈ ["bl", "blr"] then some [.clobber Arch.arm64.linkRegister]
  else if d.mnemonic = "svc" then some [.clobber 0]
  else destinationEffects? d

def model : Model := fun d => .ok (effects? d)

end CallFacts.Arm64
