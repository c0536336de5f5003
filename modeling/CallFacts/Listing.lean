import CallFacts.Listing.Line
import CallFacts.Operand.Reader
import CallFacts.Program
import CallFacts.Semantics.Standard

/-!
# Listings

A listing is the text of a program: functions with the registers known at their entry, blocks, lifted
instructions and edges between block labels. Labels are shared by all functions and may be used
before they are defined. A label that no block defines stands for a block that does not exist.
-/

namespace CallFacts.Listing

/-- What can be wrong with a line. -/
inductive Problem where
  | unrecognized (text : String)
  | missingArch
  | unknownArch (name : String)
  | archMismatch (expected found : Arch)
  | blockOutsideFunction
  | instructionOutsideBlock
  | duplicateBlock (label : String)
  | emptyFunction (name : String)
  | duplicateEntry (function : String)
  | unknownRegister (name : String)
  | badValue (text : String)
  | unknownEdgeKind (name : String)
  | badOperands (error : OperandError)
deriving DecidableEq, Repr

def Problem.message : Problem → String
  | unrecognized text => "unrecognized line `" ++ text ++ "`"
  | missingArch => "listing does not start with an `arch` directive"
  | unknownArch name => "unknown architecture: " ++ name
  | archMismatch expected found => "listing is for " ++ found.name ++ ", expected " ++ expected.name
  | blockOutsideFunction => "`block` before any `function`"
  | instructionOutsideBlock => "instruction before any `block`"
  | duplicateBlock label => "block `" ++ label ++ "` defined twice"
  | emptyFunction name => "function `" ++ name ++ "` has no blocks"
  | duplicateEntry function => "function `" ++ function ++ "` has two entry blocks"
  | unknownRegister name => "unknown register `" ++ name ++ "`"
  | badValue text => "bad value `" ++ text ++ "`"
  | unknownEdgeKind name => "unknown edge kind: " ++ name
  | badOperands error => "bad operands: " ++ error.message

/-- Why a listing is no program: a line is refused, or an instruction cannot be lifted. -/
inductive Error where
  | refused (line : Nat) (problem : Problem)
  | unliftable (line : Nat) (error : LiftError)
deriving DecidableEq, Repr

def Error.message : Error → String
  | refused line problem => "line " ++ Text.decimal line ++ ": " ++ problem.message
  | unliftable line error => "line " ++ Text.decimal line ++ ": " ++ error.message

/-- Whether the error is that an instruction cannot be lifted, and not that the text is no program. -/
def Error.isAbort : Error → Bool
  | refused _ _ => false
  | unliftable _ _ => true

/-- A function whose blocks are being read. -/
structure OpenFunction where
  line : Nat
  name : String
  entry : Option BlockId
  blocks : List BlockId
  entryValues : List (Register × Word)

/-- The function with its entry first; it is the flagged block or else the first one. -/
def OpenFunction.close (f : OpenFunction) : Except Error Function :=
  match f.blocks with
  | [] => .error (.refused f.line (.emptyFunction f.name))
  | first :: _ =>
    .ok { (Function.ofEntry f.name (f.entry.getD first)).addBlocks f.blocks with entryValues := f.entryValues }

/-- An edge between labels. -/
structure LabelledEdge where
  source : String
  target : String
  kind : EdgeKind

/-- The part of a program that the lines read so far make up. -/
structure Builder where
  program : Program
  /-- The labels of the blocks, in their order. -/
  labels : List String
  function : Option OpenFunction
  /-- The block that instructions go to. -/
  block : Option BlockId
  edges : List LabelledEdge

namespace Builder

def new (arch : Arch) : Builder := ⟨.empty arch, [], none, none, []⟩

/-- The builder with its open function, if there is one, closed. -/
def closeFunction (b : Builder) : Except Error Builder :=
  match b.function with
  | none => .ok b
  | some f => do
    let closed ← f.close
    return { b with program := b.program.addFunction closed, function := none }

def openFunction (b : Builder) (line : Nat) (name : String) (values : List (Register × Word)) :
    Except Error Builder := do
  let b ← b.closeFunction
  return { b with function := some ⟨line, name, none, [], values⟩, block := none }

def openBlock (b : Builder) (label : String) (isEntry : Bool) : Except Problem Builder :=
  match b.function with
  | none => .error .blockOutsideFunction
  | some f =>
    if label ∈ b.labels then .error (.duplicateBlock label)
    else if isEntry ∧ f.entry.isSome then .error (.duplicateEntry f.name)
    else
      let id := b.program.nextBlock
      .ok { b with
        -- The first instruction will give the block its address.
        program := b.program.addBlock ⟨0, []⟩
        labels := b.labels ++ [label]
        function := some { f with
          entry := if isEntry then some id else f.entry
          blocks := f.blocks ++ [id] }
        block := some id }

/-- The register and the value of an assignment, cut to the register width. -/
def assignment (arch : Arch) (word : List Char) : Except Problem (Register × Word) :=
  match Text.cutFirst '=' word with
  | none => .error (.badValue (String.ofList word))
  | some (name, text) =>
    match arch.register? name, Text.value? text with
    -- With both sides wrong, the register is what is reported.
    | none, _ => .error (.unknownRegister (String.ofList name))
    | some _, none => .error (.badValue (String.ofList text))
    | some view, some value => .ok (view.register, value &&& arch.valueMask)

/-- The instruction that the parts of a line describe. A comment in the operands starts with a
semicolon or an at sign. -/
def decode (arch : Arch) (address : List Char) (size : Option (List Char)) (mnemonic operands : List Char) :
    Except Problem Decoded :=
  match Text.unsignedWord? 16 address, size with
  | none, _ => .error (.badValue (String.ofList address))
  | some address, size => do
    let size ← match size with
      -- An instruction without a size has the length of a word.
      | none => .ok 4
      | some digits =>
        match Text.byte? digits with
        | some n => .ok n
        | none => .error (.badValue (String.ofList digits))
    match Operand.readAll arch (operands.takeWhile fun c => c != ';' && c != '@') with
    | .ok operands => return .ofText address size mnemonic operands
    | .error error => .error (.badOperands error)

/-- A block with one more instruction; the first one gives it its address. -/
def appendTo (block : Block) (i : Instruction) : Block :=
  let block := if block.instructions.isEmpty then { block with address := i.address } else block
  block.push i

/-- The builder with one more instruction in the current block. -/
def appendInstruction (b : Builder) (id : BlockId) (i : Instruction) : Builder :=
  { b with program := { b.program with
      blocks := b.program.blocks.modify id.index fun block => appendTo block i } }

def instruction (b : Builder) (models : List Model) (line : Nat) (address : List Char) (size : Option (List Char))
    (mnemonic operands : List Char) : Except Error Builder :=
  match b.block with
  | none => .error (.refused line .instructionOutsideBlock)
  | some id => do
    let decoded ← (decode b.program.arch address size mnemonic operands).mapError (.refused line)
    let lifted ← (Semantics.lift models decoded).mapError (.unliftable line)
    return b.appendInstruction id lifted

def step (models : List Model) (b : Builder) (line : Nat) (text : List Char) : Except Error Builder :=
  match Line.read? text with
  | none => .error (.refused line (.unrecognized (String.ofList (Text.trim text))))
  | some (.arch name) =>
    match Arch.ofName? name with
    | none => .error (.refused line (.unknownArch name))
    | some found =>
      if found = b.program.arch then .ok b
      else .error (.refused line (.archMismatch b.program.arch found))
  | some (.function name assignments) => do
    let values ← (assignments.mapM (assignment b.program.arch)).mapError (.refused line)
    b.openFunction line name values
  | some (.block label isEntry) => (b.openBlock label isEntry).mapError (.refused line)
  | some (.edge source target kind) =>
    match EdgeKind.ofName? kind with
    | none => .error (.refused line (.unknownEdgeKind kind))
    | some kind => .ok { b with edges := b.edges ++ [⟨source, target, kind⟩] }
  | some (.instruction address size mnemonic operands) => b.instruction models line address size mnemonic operands

/-- The position of a label among those known, where a new label is put at the end. -/
def resolve (known : List String) (label : String) : List String × BlockId :=
  match known.idxOf? label with
  | some i => (known, ⟨i⟩)
  | none => (known ++ [label], ⟨known.length⟩)

/-- The edges between blocks. A label that no block defines stands for a block after the last one,
in order of first use. -/
def resolveEdges : List String → List LabelledEdge → List Edge
  | _, [] => []
  | known, e :: rest =>
    let (known, source) := resolve known e.source
    let (known, target) := resolve known e.target
    ⟨source, target, e.kind⟩ :: resolveEdges known rest

def finish (b : Builder) : Except Error Program := do
  let b ← b.closeFunction
  return { b.program with edges := resolveEdges b.labels b.edges }

end Builder

/-- The program of a listing whose instructions are lifted by the given models. -/
def readWith (arch : Arch) (models : List Model) (text : List Char) : Except Error Program := do
  let b ← (numberedLines text).foldlM (fun b (line, content) => b.step models line content) (Builder.new arch)
  b.finish

def read (arch : Arch) (text : List Char) : Except Error Program := readWith arch arch.semantics text

/-- The architecture that the first line of a listing names. -/
def detectArch (text : List Char) : Except Error Arch :=
  match numberedLines text with
  | [] => .error (.refused 1 .missingArch)
  | (line, content) :: _ =>
    match Line.read? content with
    | some (.arch name) =>
      match Arch.ofName? name with
      | some arch => .ok arch
      | none => .error (.refused line (.unknownArch name))
    | _ => .error (.refused line .missingArch)

end CallFacts.Listing
