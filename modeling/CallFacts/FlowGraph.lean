import CallFacts.Program

/-!
# The flow graph of a function

The members of a function under local positions, with the edges along which register contents flow.
A graph exists only for a function whose members and neighbours all exist; `Fault` lists what can be
wrong, in the order in which it is looked for.
-/

namespace CallFacts

/-- The edges that touch each block, taken from a program at one time. -/
structure EdgeIndex where
  outgoing : Array (List Edge)
  incoming : Array (List Edge)

namespace EdgeIndex

/-- The edges of a program by the block they leave and the block they enter. -/
def ofProgram (p : Program) : EdgeIndex where
  outgoing := Array.ofFn fun i : Fin p.blocks.size => p.edges.filter fun e => e.source = ⟨i.val⟩
  incoming := Array.ofFn fun i : Fin p.blocks.size => p.edges.filter fun e => e.target = ⟨i.val⟩

/-- The edges that leave a block, in program order; none for a block that is not indexed. -/
def leaving (ix : EdgeIndex) (b : BlockId) : List Edge := (ix.outgoing[b.index]?).getD []

/-- The edges that enter a block, in program order; none for a block that is not indexed. -/
def entering (ix : EdgeIndex) (b : BlockId) : List Edge := (ix.incoming[b.index]?).getD []

theorem leaving_ofProgram (p : Program) (b : BlockId) :
    (ofProgram p).leaving b = if p.contains b then p.edges.filter fun e => e.source = b else [] := by
  by_cases h : b.index < p.blocks.size <;> simp [leaving, ofProgram, Program.contains, h]

theorem entering_ofProgram (p : Program) (b : BlockId) :
    (ofProgram p).entering b = if p.contains b then p.edges.filter fun e => e.target = b else [] := by
  by_cases h : b.index < p.blocks.size <;> simp [entering, ofProgram, Program.contains, h]

end EdgeIndex

/-- A way on from a block inside its function. -/
structure Successor (n : Nat) where
  target : Fin n
  /-- Control comes back from a call here, so the call policy applies. -/
  afterCall : Bool
deriving DecidableEq, Repr

/-- The members of a function and the ways between them. -/
structure FlowGraph where
  members : Array BlockId
  entry : Fin members.size
  successors : Vector (List (Successor members.size)) members.size
  /-- Whether a call leaves the block. -/
  callSites : Vector Bool members.size

namespace FlowGraph

/-- What keeps a function from having a flow graph. -/
inductive Fault where
  | missingMember (b : BlockId)
  | missingEntry (b : BlockId)
  | foreignEntry (b : BlockId)
  | missingSource (e : Edge)
  | missingTarget (e : Edge)
deriving DecidableEq, Repr

def Fault.message : Fault → String
  | missingMember b => "member " ++ b.text ++ " does not exist"
  | missingEntry b => "entry " ++ b.text ++ " does not exist"
  | foreignEntry b => "entry " ++ b.text ++ " is not a member"
  | missingSource e => e.kind.name ++ " edge into " ++ e.target.text ++ " from missing " ++ e.source.text
  | missingTarget e => e.kind.name ++ " edge from " ++ e.source.text ++ " to missing " ++ e.target.text

/-- A list without its repetitions, in order of first occurrence. -/
def distinct : List BlockId → List BlockId
  | [] => []
  | b :: bs => b :: (distinct bs).filter (· ≠ b)

def isCallSite (ix : EdgeIndex) (b : BlockId) : Bool := (ix.leaving b).any fun e => e.kind == .call

/-- The ways on from a block to members: one for each fallthrough and branch edge, in program order.
Coming back from a call is falling through from a call site. -/
def successorsOf (ix : EdgeIndex) (members : Array BlockId) (b : BlockId) : List (Successor members.size) :=
  (ix.leaving b).filterMap fun e =>
    if e.kind.isIntraprocedural then
      (members.finIdxOf? e.target).map fun target => ⟨target, isCallSite ix b && e.kind == .fallthrough⟩
    else none

def ofMembers (ix : EdgeIndex) (members : Array BlockId) (entry : Fin members.size) : FlowGraph where
  members := members
  entry := entry
  successors := Vector.ofFn fun i => successorsOf ix members members[i]
  callSites := Vector.ofFn fun i => isCallSite ix members[i]

/-- The first edge into a member from a block that does not exist. -/
def missingSource? (p : Program) (ix : EdgeIndex) (members : Array BlockId) : Option Edge :=
  (members.toList.flatMap ix.entering).find? fun e => !p.contains e.source

/-- The first edge from a member to a block that does not exist. -/
def missingTarget? (p : Program) (ix : EdgeIndex) (members : Array BlockId) : Option Edge :=
  (members.toList.flatMap ix.leaving).find? fun e => !p.contains e.target

/-- The flow graph of a function. -/
def build (p : Program) (ix : EdgeIndex) (f : Function) : Except Fault FlowGraph :=
  match f.blocks.find? fun b => !p.contains b with
  | some b => .error (.missingMember b)
  | none =>
    if p.contains f.entry then
      let members := (distinct f.blocks).toArray
      match members.finIdxOf? f.entry with
      | none => .error (.foreignEntry f.entry)
      | some entry =>
        match missingSource? p ix members, missingTarget? p ix members with
        -- Edges into members are looked at before edges from them.
        | some e, _ => .error (.missingSource e)
        | none, some e => .error (.missingTarget e)
        | none, none => .ok (ofMembers ix members entry)
    else .error (.missingEntry f.entry)

def member (g : FlowGraph) (i : Fin g.members.size) : BlockId := g.members[i]

def local? (g : FlowGraph) (b : BlockId) : Option (Fin g.members.size) := g.members.finIdxOf? b

end FlowGraph

end CallFacts
