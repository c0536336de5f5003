import CallFacts.Arch
import CallFacts.Effect

/-!
# Programs

A program is an array of basic blocks, a list of edges between them and a list of functions, each a
selection of blocks. Nothing here demands that an edge or a function names existing blocks; the
analysis of a function checks what it needs.
-/

namespace CallFacts

/-- A block, by its position in the program. Positions are not bounded here; a 32-bit identifier would give all blocks
from position `2 ^ 32 - 1` on the same one. -/
structure BlockId where
  index : Nat
deriving DecidableEq, Repr

/-- The text of a block identifier, as in `b3`. -/
def BlockId.text (b : BlockId) : String := "b" ++ Text.decimal b.index

/-- A straight-line run of instructions. -/
structure Block where
  address : Word
  instructions : List Instruction
deriving DecidableEq, Repr

def Block.push (b : Block) (i : Instruction) : Block := { b with instructions := b.instructions ++ [i] }

/-- How control passes along an edge. -/
inductive EdgeKind where
  | fallthrough
  | branch
  | call
  | ret
deriving DecidableEq, Repr

namespace EdgeKind

def name : EdgeKind → String
  | fallthrough => "fallthrough"
  | branch => "branch"
  | call => "call"
  | ret => "return"

/-- The edge kind of a name or alias, in any case. -/
def ofName? (text : String) : Option EdgeKind :=
  match String.ofList (Text.lower text.toList) with
  | "fallthrough" | "fall" => some fallthrough
  | "branch" | "jump" => some branch
  | "call" => some call
  | "return" | "ret" => some ret
  | _ => none

/-- Whether control stays in the function, so that register contents flow along the edge. -/
def isIntraprocedural : EdgeKind → Bool
  | fallthrough | branch => true
  | call | ret => false

end EdgeKind

/-- An edge between two blocks. -/
structure Edge where
  source : BlockId
  target : BlockId
  kind : EdgeKind
deriving DecidableEq, Repr

/-- A function: its entry block, its members in order, and the registers with a known content at its
entry. -/
structure Function where
  name : String
  entry : BlockId
  blocks : List BlockId
  entryValues : List (Register × Word)
deriving DecidableEq, Repr

namespace Function

def ofEntry (name : String) (entry : BlockId) : Function := ⟨name, entry, [entry], []⟩

/-- The function with one more member, unless it has it already. -/
def addBlock (f : Function) (b : BlockId) : Function :=
  if b ∈ f.blocks then f else { f with blocks := f.blocks ++ [b] }

/-- The function with those of the blocks that it does not have yet. -/
def addBlocks (f : Function) (bs : List BlockId) : Function := bs.foldl addBlock f

end Function

/-- A program for one architecture. -/
structure Program where
  arch : Arch
  blocks : Array Block
  edges : List Edge
  functions : List Function
deriving DecidableEq, Repr

namespace Program

/-- The program without blocks, edges and functions. -/
def empty (arch : Arch) : Program := ⟨arch, #[], [], []⟩

def block? (p : Program) (b : BlockId) : Option Block := p.blocks[b.index]?

def contains (p : Program) (b : BlockId) : Bool := b.index < p.blocks.size

/-- The instructions of a block, none if it does not exist. -/
def instructions (p : Program) (b : BlockId) : List Instruction :=
  match p.block? b with
  | some block => block.instructions
  | none => []

def nextBlock (p : Program) : BlockId := ⟨p.blocks.size⟩

def addBlock (p : Program) (b : Block) : Program := { p with blocks := p.blocks.push b }

/-- The program with one more instruction at the end of a block. -/
def pushInstruction (p : Program) (b : BlockId) (i : Instruction) : Program :=
  { p with blocks := p.blocks.modify b.index fun block => block.push i }

def addEdge (p : Program) (e : Edge) : Program := { p with edges := p.edges ++ [e] }

def addFunction (p : Program) (f : Function) : Program := { p with functions := p.functions ++ [f] }

/-- The first function of a name. -/
def function? (p : Program) (name : String) : Option Function := p.functions.find? fun f => f.name == name

def instructionCount (p : Program) : Nat :=
  p.blocks.toList.foldl (fun count b => count + b.instructions.length) 0

end Program

end CallFacts
