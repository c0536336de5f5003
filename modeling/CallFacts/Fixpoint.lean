import CallFacts.FlowGraph
import CallFacts.State

/-!
# The least register states of a flow graph

States flow from a start node along the ways between nodes; a node's entry state is the join of all
that arrives. Nodes whose entry state has changed wait in a queue, each at most once, and are visited
first come, first served. A node visited more often than the limit stops the run. The run ends
because a visit uses up one of the visits that are left.
-/

namespace CallFacts

/-- A forward flow problem over `n` nodes. -/
structure Dataflow (n : Nat) where
  start : Fin n
  initial : State
  /-- The state at the end of a node, from the state at its entry. -/
  transfer : Fin n → State → State
  successors : Fin n → List (Successor n)
  /-- The registers that are unknown after a call. -/
  clobbered : RegisterSet
  /-- How often a node may be visited. -/
  limit : Nat

/-- The entry states found so far and the nodes to be visited. -/
structure Frontier (n : Nat) where
  queue : List (Fin n)
  entries : Vector (Option State) n

namespace Frontier

/-- The queue with a node at its end, unless it waits already. -/
def enqueue {n : Nat} (queue : List (Fin n)) (i : Fin n) : List (Fin n) :=
  if i ∈ queue then queue else queue ++ [i]

/-- The frontier after a state has arrived at a node. -/
def arrive {n : Nat} (fr : Frontier n) (i : Fin n) (s : State) : Frontier n :=
  match fr.entries.get i with
  | none => ⟨enqueue fr.queue i, fr.entries.set i (some s)⟩
  | some old =>
    -- A visit is due only if the entry state has risen.
    let (joined, changed) := old.absorb s
    if changed then ⟨enqueue fr.queue i, fr.entries.set i (some joined)⟩ else fr

end Frontier

/-- A run of the iteration: its frontier, the last exit state of each node, how often each has been
visited, and the visits so far with their entry states, latest first. -/
structure Run (n : Nat) extends Frontier n where
  exits : Vector (Option State) n
  visits : Vector Nat n
  trail : List (Fin n × State)

namespace Dataflow

variable {n : Nat}

/-- What arrives along a way on from a node with a given exit state. -/
def carry (p : Dataflow n) (way : Successor n) (exit : State) : State :=
  if way.afterCall then exit.clobber p.clobbered else exit

/-- The frontier after the exit state of a node has gone out along its ways. -/
def send (p : Dataflow n) (ways : List (Successor n)) (exit : State) (fr : Frontier n) : Frontier n :=
  ways.foldl (fun fr way => fr.arrive way.target (p.carry way exit)) fr

/-- The run before the first visit. -/
def begin (p : Dataflow n) : Run n where
  queue := [p.start]
  entries := (Vector.replicate n none).set p.start (some p.initial)
  exits := Vector.replicate n none
  visits := Vector.replicate n 0
  trail := []

/-- The run after a visit of a node, where `rest` are the nodes that wait behind it. -/
def visit (p : Dataflow n) (run : Run n) (i : Fin n) (rest : List (Fin n)) : Run n :=
  let visits := run.visits.set i (run.visits.get i + 1)
  match run.entries.get i with
  -- Nothing has arrived, so nothing goes out; a node comes into the queue only with an entry state.
  | none => { run with queue := rest, visits }
  | some s =>
    let exit := p.transfer i s
    -- The node has left the queue, so a way back to itself can put it there again.
    { toFrontier := p.send (p.successors i) exit ⟨rest, run.entries⟩
      exits := run.exits.set i (some exit)
      visits
      trail := (i, s) :: run.trail }

/-- The visits that a run may still make. -/
def visitsLeft (p : Dataflow n) (run : Run n) : Nat :=
  run.visits.toList.foldr (fun made left => p.limit - made + left) 0

theorem visits_visit (p : Dataflow n) (run : Run n) (i : Fin n) (rest : List (Fin n)) :
    (p.visit run i rest).visits = run.visits.set i (run.visits.get i + 1) := by
  simp only [visit]
  split <;> rfl

theorem foldr_set_lt {f : Nat → Nat} {xs : List Nat} {i v : Nat} (h : i < xs.length) (hlt : f v < f xs[i]) :
    (xs.set i v).foldr (fun x total => f x + total) 0 < xs.foldr (fun x total => f x + total) 0 := by
  induction xs generalizing i with
  | nil => simp at h
  | cons x xs ih =>
    cases i with
    | zero => simpa using hlt
    | succ i =>
      simp only [List.set_cons_succ, List.foldr_cons]
      have := ih (i := i) (by simpa using h) (by simpa using hlt)
      omega

theorem visitsLeft_visit_lt (p : Dataflow n) (run : Run n) (i : Fin n) (rest : List (Fin n))
    (h : run.visits.get i < p.limit) : p.visitsLeft (p.visit run i rest) < p.visitsLeft run := by
  rw [visitsLeft, visits_visit, Vector.toList_set]
  apply foldr_set_lt (f := (p.limit - ·)) (by simp)
  have hget : run.visits.toList[i.val] = run.visits.get i := Vector.getElem_toList _
  rw [hget]
  omega

/-- How a run ends: stable, or at a node that has used up its visits. -/
inductive Outcome (n : Nat) where
  | stable (run : Run n)
  | exhausted (run : Run n) (node : Fin n)

/-- The run with its last visit. -/
def Outcome.run : Outcome n → Run n
  | stable run => run
  | exhausted run _ => run

/-- Visits the nodes in the queue until none waits. -/
def iterate (p : Dataflow n) (run : Run n) : Outcome n :=
  match run.queue with
  | [] => .stable run
  | i :: rest => if run.visits.get i < p.limit then p.iterate (p.visit run i rest) else .exhausted run i
termination_by p.visitsLeft run
decreasing_by exact p.visitsLeft_visit_lt run i rest ‹_›

def solve (p : Dataflow n) : Outcome n := p.iterate p.begin

end Dataflow

end CallFacts
