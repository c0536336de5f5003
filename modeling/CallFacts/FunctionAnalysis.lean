import CallFacts.Config
import CallFacts.Diagnostic
import CallFacts.Fixpoint

/-!
# The analysis of one function

The function's flow graph is solved from its entry values; then the blocks are gone through in member
order for what is known before each observed instruction and for what deserves a warning.
-/

namespace CallFacts

/-- What is known just before an instruction: the registers that have been written. -/
structure Observation where
  /-- The address of the instruction, with its mode bits. -/
  address : Word
  values : List (Register × Value)
deriving DecidableEq, Repr

/-- The result for a function whose register states are stable. -/
structure FunctionAnalysis where
  function : String
  graph : FlowGraph
  run : Run graph.members.size
  observations : List Observation
  diagnostics : List Diagnostic

namespace FunctionAnalysis

/-- The visits of a run in order, each with the entry state of its block. -/
def historyOf (g : FlowGraph) (run : Run g.members.size) : List (BlockId × State) :=
  run.trail.reverse.map fun (i, s) => (g.member i, s)

/-- A function that could not be analyzed, with the visits made up to then. -/
structure Failure where
  error : AnalysisError
  history : List (BlockId × State)

/-- The state at the entry of a function. Of two values for one register the later counts. -/
def initialState (arch : Arch) (tracked : RegisterSet) (f : Function) : State :=
  f.entryValues.foldl (fun s (r, value) => s.set r (.ofWord value arch.registerBits)) (State.new tracked)

/-- The flow problem of a function, in a build where the limit wraps. -/
def problem (p : Program) (c : Config) (f : Function) (g : FlowGraph) : Dataflow g.members.size :=
  let tracked := c.trackedFor p.arch
  { start := g.entry
    initial := initialState p.arch tracked f
    transfer := fun i s => s.applyAll p.arch.registerBits (p.instructions (g.member i))
    successors := fun i => g.successors.get i
    clobbered := c.callPolicy.clobbered p.arch tracked
    limit := c.visitLimit tracked }

/-- Whether the last instruction of a member is observed. -/
def isObserved (c : Config) (g : FlowGraph) (i : Fin g.members.size) : Bool :=
  match c.observe with
  | .callSites => g.callSites.get i
  | .blockExits => true

/-- What is known before the last instruction of a block with a given entry state. -/
def observeBlock? (registerBits : Nat) (entry : State) (is : List Instruction) : Option Observation :=
  is.getLast?.map fun last => ⟨last.address, (entry.applyAll registerBits is.dropLast).toList⟩

def observationsOf (p : Program) (c : Config) (g : FlowGraph) (run : Run g.members.size) : List Observation :=
  (List.finRange g.members.size).filterMap fun i =>
    match run.entries.get i with
    | some entry =>
      if isObserved c g i then observeBlock? p.arch.registerBits entry (p.instructions (g.member i))
      else none
    | none => none

/-- The warnings about the instructions of a block that are not understood. -/
def gapsOf (is : List Instruction) : List Finding :=
  (is.filter Instruction.hasDecodeGap).map fun i => .decodeGap i.address i.mnemonic

/-- The address of a block, zero if it does not exist. -/
def addressOf (p : Program) (b : BlockId) : Word :=
  match p.block? b with
  | some block => block.address
  | none => 0

/-- The warnings of a stable run, in member order: a block that is not reached, or its instructions
that are not understood. -/
def findingsOf (p : Program) (g : FlowGraph) (run : Run g.members.size) : List Finding :=
  (List.finRange g.members.size).flatMap fun i =>
    match run.entries.get i with
    | some _ => gapsOf (p.instructions (g.member i))
    | none => [.unreachable (g.member i) (addressOf p (g.member i))]

/-- Analyzes a function with a flow graph, where a block may be visited as often as the limit says. -/
def analyzeGraph (p : Program) (c : Config) (f : Function) (g : FlowGraph) (limit : Nat) :
    Except Failure FunctionAnalysis :=
  match { problem p c f g with limit }.solve with
  | .stable run =>
    .ok
      { function := f.name
        graph := g
        run
        observations := observationsOf p c g run
        diagnostics := (findingsOf p g run).map fun finding => ⟨f.name, finding⟩ }
  | .exhausted run i =>
    -- The visit that would have gone beyond the limit is counted but not made.
    .error ⟨.diverged f.name (g.member i) (run.visits.get i + 1) limit, historyOf g run⟩

/-- Analyzes a function of a program, in a build where the limit wraps. The edges may have been indexed at an
earlier time. -/
def analyze (p : Program) (ix : EdgeIndex) (c : Config) (f : Function) : Except Failure FunctionAnalysis :=
  match FlowGraph.build p ix f with
  | .error fault => .error ⟨.malformed f.name fault, []⟩
  | .ok g => analyzeGraph p c f g (c.visitLimit (c.trackedFor p.arch))

/-- Analyzes a function of a program in a build of either kind, unless the build stops. A function without a flow graph
is refused before its limit is computed. -/
def analyzeIn (overflow : Overflow) (p : Program) (ix : EdgeIndex) (c : Config) (f : Function) :
    Option (Except Failure FunctionAnalysis) :=
  match FlowGraph.build p ix f with
  | .error fault => some (.error ⟨.malformed f.name fault, []⟩)
  | .ok g => (c.visitLimit? overflow (c.trackedFor p.arch)).map (analyzeGraph p c f g)

/-- The limit that wraps is the one of the flow problem. -/
theorem analyzeGraph_visitLimit (p : Program) (c : Config) (f : Function) (g : FlowGraph) :
    analyzeGraph p c f g (c.visitLimit (c.trackedFor p.arch)) =
      match (problem p c f g).solve with
      | .stable run =>
        .ok ⟨f.name, g, run, observationsOf p c g run, (findingsOf p g run).map fun finding => ⟨f.name, finding⟩⟩
      | .exhausted run i =>
        .error ⟨.diverged f.name (g.member i) (run.visits.get i + 1) (problem p c f g).limit, historyOf g run⟩ :=
  rfl

/-- The visits in order, each with the entry state of its block. -/
def history (a : FunctionAnalysis) : List (BlockId × State) := historyOf a.graph a.run

def visits (a : FunctionAnalysis) : Nat := a.run.trail.length

def blockCount (a : FunctionAnalysis) : Nat := a.graph.members.size

/-- The entry state of a block, unless it is no member or not reached. -/
def entryState? (a : FunctionAnalysis) (b : BlockId) : Option State :=
  (a.graph.local? b).bind fun i => a.run.entries.get i

/-- The exit state of a block, unless it is no member or not reached. -/
def exitState? (a : FunctionAnalysis) (b : BlockId) : Option State :=
  (a.graph.local? b).bind fun i => a.run.exits.get i

def isReachable (a : FunctionAnalysis) (b : BlockId) : Bool := (a.entryState? b).isSome

end FunctionAnalysis

end CallFacts
