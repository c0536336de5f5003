import CallFacts.FunctionAnalysis
import CallFacts.Proofs.Height
import CallFacts.Proofs.Paths

/-!
# The states of an analyzed function

A function that has been analyzed has an entry and an exit state for exactly the members that paths
lead to, and its entry states are the least that are closed under the flow of the function. No state
is left over from an earlier visit, and none has been raised further than some path demands.
-/

namespace CallFacts

namespace FunctionAnalysis

/-- States for the blocks of a function that are closed under its flow: the entry's is above the
initial state, and that of each block is above what arrives along every way from a block on a path. -/
structure Closed (p : Program) (c : Config) (f : Function) (g : FlowGraph) (φ : BlockId → State) : Prop where
  tracked : ∀ b, g.Reaches b → (φ b).tracked = c.trackedFor p.arch
  entry : initialState p.arch (c.trackedFor p.arch) f ≤ φ f.entry
  flow : ∀ {i} (_ : g.Path i), ∀ way ∈ g.successors.get i,
    (problem p c f g).carry way ((φ (g.member i)).applyAll p.arch.registerBits (p.instructions (g.member i)))
      ≤ φ (g.member way.target)

variable {p : Program} {ix : EdgeIndex} {c : Config} {f : Function} {g : FlowGraph} {a : FunctionAnalysis}

/-! ### The flow problem of a function -/

theorem tracked_foldl_set (arch : Arch) (values : List (Register × Word)) (s : State) :
    (values.foldl (fun s (r, value) => s.set r (.ofWord value arch.registerBits)) s).tracked = s.tracked := by
  induction values generalizing s with
  | nil => rfl
  | cons v values ih =>
    obtain ⟨r, w⟩ := v
    rw [List.foldl_cons, ih]
    exact State.tracked_set s r _

@[simp] theorem tracked_initialState (arch : Arch) (tracked : RegisterSet) (f : Function) :
    (initialState arch tracked f).tracked = tracked := by
  rw [initialState, tracked_foldl_set, State.tracked_new]

theorem regular_problem (p : Program) (c : Config) (f : Function) (g : FlowGraph) :
    (problem p c f g).Regular where
  tracked_transfer _ s := State.tracked_applyAll s _ _
  transfer_below _ _ _ h := h.applyAll _ _

theorem reachable_problem_iff {i : Fin g.members.size} :
    (problem p c f g).Reachable i ↔ Nonempty (g.Path i) := by
  constructor
  · intro h
    induction h with
    | start => exact ⟨.entry⟩
    | @along i way _ hway ih =>
      obtain ⟨path⟩ := ih
      exact ⟨.extend path way hway⟩
  · intro ⟨path⟩
    induction path with
    | entry => exact .start
    | extend path way hway ih => exact ih.along hway

/-! ### What an analysis leaves behind -/

theorem analyze_eq_ok (h : analyze p ix c f = .ok a) :
    FlowGraph.build p ix f = .ok a.graph ∧ (problem p c f a.graph).solve = .stable a.run ∧
      a.observations = observationsOf p c a.graph a.run := by
  simp only [analyze, analyzeGraph_visitLimit] at h
  split at h
  · cases h
  · next g hbuild =>
    split at h
    · next run hrun => cases h; exact ⟨hbuild, hrun, rfl⟩
    · cases h

/-- A function with a flow graph can be analyzed if the limit leaves room for its states to rise. -/
theorem exists_analyze (hbuild : FlowGraph.build p ix f = .ok g)
    (hlimit : 2 * (c.trackedFor p.arch).size < c.visitLimit (c.trackedFor p.arch)) :
    ∃ a, analyze p ix c f = .ok a ∧ a.graph = g := by
  obtain ⟨run, hrun⟩ := Dataflow.solve_eq_stable (regular_problem p c f g) (by simpa [problem] using hlimit)
  simp only [analyze, analyzeGraph_visitLimit, hbuild, hrun]
  exact ⟨_, rfl, rfl⟩

theorem entryState?_member (h : FlowGraph.build p ix f = .ok a.graph) (i : Fin a.graph.members.size) :
    a.entryState? (a.graph.member i) = a.run.entries.get i := by
  rw [entryState?, FlowGraph.local?_member h, Option.bind_some]

theorem exitState?_member (h : FlowGraph.build p ix f = .ok a.graph) (i : Fin a.graph.members.size) :
    a.exitState? (a.graph.member i) = a.run.exits.get i := by
  rw [exitState?, FlowGraph.local?_member h, Option.bind_some]

theorem member_of_entryState? {b : BlockId} {s : State} (h : FlowGraph.build p ix f = .ok a.graph)
    (hs : a.entryState? b = some s) :
    ∃ i : Fin a.graph.members.size, a.graph.member i = b ∧ a.run.entries.get i = some s := by
  obtain ⟨i, hi, hs⟩ := Option.bind_eq_some_iff.mp hs
  exact ⟨i, (FlowGraph.local?_eq_some_iff h).mp hi, hs⟩

theorem exists_entry_iff (h : analyze p ix c f = .ok a) {i : Fin a.graph.members.size} :
    (∃ s, a.run.entries.get i = some s) ↔ Nonempty (a.graph.Path i) := by
  have hstable := (analyze_eq_ok h).2.1
  rw [← Option.isSome_iff_exists, Dataflow.isSome_entries_iff (regular_problem p c f a.graph) hstable]
  exact reachable_problem_iff

theorem isSome_entryState?_iff (h : analyze p ix c f = .ok a) (b : BlockId) :
    (a.entryState? b).isSome ↔ a.graph.Reaches b := by
  have hbuild := (analyze_eq_ok h).1
  constructor
  · intro hb
    obtain ⟨s, hs⟩ := Option.isSome_iff_exists.mp hb
    obtain ⟨i, hi, hs⟩ := member_of_entryState? hbuild hs
    exact ⟨i, hi, (exists_entry_iff h).mp ⟨s, hs⟩⟩
  · rintro ⟨i, rfl, path⟩
    obtain ⟨s, hs⟩ := (exists_entry_iff h).mpr path
    rw [entryState?_member hbuild, hs]
    rfl

theorem exitState?_eq_map (h : analyze p ix c f = .ok a) (b : BlockId) :
    a.exitState? b =
      (a.entryState? b).map fun s => s.applyAll p.arch.registerBits (p.instructions b) := by
  obtain ⟨hbuild, hstable, -⟩ := analyze_eq_ok h
  cases hb : a.graph.local? b with
  | none => simp [exitState?, entryState?, hb]
  | some i =>
    obtain rfl := (FlowGraph.local?_eq_some_iff hbuild).mp hb
    rw [exitState?_member hbuild, entryState?_member hbuild]
    exact Dataflow.exits_eq_map_entries (regular_problem p c f a.graph) hstable i

/-- The entry states, seen as states for the members, solve the flow problem. -/
theorem solution_of_analyze (h : analyze p ix c f = .ok a) (default : State) :
    (problem p c f a.graph).Solution fun i => (a.run.entries.get i).getD default :=
  Dataflow.solution_of_stable (regular_problem p c f a.graph) (analyze_eq_ok h).2.1 default

theorem tracked_entries (h : analyze p ix c f = .ok a) {i : Fin a.graph.members.size} {s : State}
    (hs : a.run.entries.get i = some s) : s.tracked = c.trackedFor p.arch := by
  have hruns := Dataflow.runs_of_stable (analyze_eq_ok h).2.1
  exact (hruns.tracked (regular_problem p c f a.graph) i s hs).trans (tracked_initialState _ _ _)

theorem tracked_entryState? (h : analyze p ix c f = .ok a) {b : BlockId} {s : State}
    (hs : a.entryState? b = some s) : s.tracked = c.trackedFor p.arch := by
  obtain ⟨i, -, hs⟩ := member_of_entryState? (analyze_eq_ok h).1 hs
  exact tracked_entries h hs

/-! ### Closed families and solutions -/

theorem Closed.solution {φ : BlockId → State} (hbuild : FlowGraph.build p ix f = .ok g)
    (h : Closed p c f g φ) : (problem p c f g).Solution fun i => φ (g.member i) where
  start := by
    have hentry : g.member g.entry = f.entry := FlowGraph.member_entry_of_build hbuild
    have htracked := h.tracked f.entry ⟨g.entry, hentry, ⟨.entry⟩⟩
    show (initialState p.arch (c.trackedFor p.arch) f).Below (φ (g.member g.entry))
    rw [hentry]
    refine State.below_of_le ?_ h.entry
    intro r hr
    rwa [htracked, ← tracked_initialState p.arch (c.trackedFor p.arch) f] at hr
  flow i hi way hway := by
    obtain ⟨path⟩ := reachable_problem_iff.mp hi
    have hsource := h.tracked (g.member i) ⟨i, rfl, ⟨path⟩⟩
    have htarget := h.tracked (g.member way.target) ⟨way.target, rfl, ⟨path.extend way hway⟩⟩
    refine (State.below_iff_le ?_).mpr (h.flow path way hway)
    rw [htarget, Dataflow.tracked_carry, (regular_problem p c f g).tracked_transfer, hsource]

theorem closed_of_solution {φ : BlockId → State} (hbuild : FlowGraph.build p ix f = .ok g)
    (htracked : ∀ b, g.Reaches b → (φ b).tracked = c.trackedFor p.arch)
    (h : (problem p c f g).Solution fun i => φ (g.member i)) : Closed p c f g φ where
  tracked := htracked
  entry := FlowGraph.member_entry_of_build hbuild ▸ h.start.le
  flow path way hway := (h.flow _ (reachable_problem_iff.mpr ⟨path⟩) way hway).le

/-! ### States along single paths -/

/-- The state that the initial state becomes along a path, without what arrives on other paths. -/
def pathState (p : Program) (c : Config) (f : Function) {g : FlowGraph} :
    {i : Fin g.members.size} → g.Path i → State
  | _, .entry => initialState p.arch (c.trackedFor p.arch) f
  | _, .extend (i := i) path way _ =>
    (problem p c f g).carry way ((problem p c f g).transfer i (pathState p c f path))

/-- What one path yields is below the states that are closed under all of them. -/
theorem pathState_below {φ : Fin g.members.size → State} (hφ : (problem p c f g).Solution φ)
    {i : Fin g.members.size} (path : g.Path i) : (pathState p c f path).Below (φ i) := by
  induction path with
  | entry => exact hφ.start
  | @extend i path way hway ih =>
    have hreachable : (problem p c f g).Reachable i := reachable_problem_iff.mpr ⟨path⟩
    have htransfer := (regular_problem p c f g).transfer_below i _ _ ih
    exact (Dataflow.carry_below htransfer way).trans (hφ.flow i hreachable way hway)

theorem pathState_below_entry (h : analyze p ix c f = .ok a) {i : Fin a.graph.members.size}
    (path : a.graph.Path i) {s : State} (hs : a.run.entries.get i = some s) : (pathState p c f path).Below s := by
  have hbelow := pathState_below (solution_of_analyze h (.new ∅)) path
  rwa [hs] at hbelow

/-! ### The least closed family -/

/-- An analyzed function has states exactly where paths lead, each exit state is that of the final
entry state, and the entry states are closed under the flow and below every family that is. -/
theorem analyze_computes_least_states (h : analyze p ix c f = .ok a) :
    FlowGraph.build p ix f = .ok a.graph ∧
    (∀ b, (a.entryState? b).isSome ↔ a.graph.Reaches b) ∧
    (∀ b, (a.exitState? b).isSome ↔ a.graph.Reaches b) ∧
    (∀ b s, a.entryState? b = some s →
      a.exitState? b = some (s.applyAll p.arch.registerBits (p.instructions b))) ∧
    Closed p c f a.graph (fun b => (a.entryState? b).getD (.new ∅)) ∧
    ∀ φ, Closed p c f a.graph φ → ∀ b s, a.entryState? b = some s → s ≤ φ b := by
  obtain ⟨hbuild, hstable, -⟩ := analyze_eq_ok h
  refine ⟨hbuild, isSome_entryState?_iff h, ?_, ?_, ?_, ?_⟩
  · intro b
    rw [exitState?_eq_map h, Option.isSome_map]
    exact isSome_entryState?_iff h b
  · intro b s hs
    rw [exitState?_eq_map h, hs, Option.map_some]
  · refine closed_of_solution hbuild ?_ ?_
    · intro b hb
      obtain ⟨s, hs⟩ := Option.isSome_iff_exists.mp ((isSome_entryState?_iff h b).mpr hb)
      rw [hs, Option.getD_some]
      exact tracked_entryState? h hs
    · simpa only [entryState?_member hbuild] using solution_of_analyze h (.new ∅)
  · intro φ hφ b s hs
    obtain ⟨i, rfl, hi⟩ := member_of_entryState? hbuild hs
    have hruns := Dataflow.runs_of_stable hstable
    exact (hruns.below_solution (regular_problem p c f a.graph) (hφ.solution hbuild) i s hi).2.le

/-! ### A counting loop -/

/-- The first block sets two registers, the second counts one of them up and comes back to itself,
and the third calls. -/
def countingLoop : Program where
  arch := .arm32
  blocks := #[
    ⟨0x1000, [⟨0x1000, 4, "mov", [.immediate 0 0]⟩, ⟨0x1004, 4, "mov", [.immediate 1 8]⟩]⟩,
    ⟨0x1008, [⟨0x1008, 4, "add", [.offset 0 0 1 32]⟩]⟩,
    ⟨0x100c, [⟨0x100c, 4, "bl", [.clobber 14]⟩]⟩,
    ⟨0x2000, []⟩]
  edges := [⟨⟨0⟩, ⟨1⟩, .fallthrough⟩, ⟨⟨1⟩, ⟨1⟩, .branch⟩, ⟨⟨1⟩, ⟨2⟩, .fallthrough⟩, ⟨⟨2⟩, ⟨3⟩, .call⟩]
  functions := [⟨"loop", ⟨0⟩, [⟨0⟩, ⟨1⟩, ⟨2⟩], []⟩]

/-- The only function of the program. -/
def countingLoopFunction : Function := ⟨"loop", ⟨0⟩, [⟨0⟩, ⟨1⟩, ⟨2⟩], []⟩

/-- The flow graph of that function. -/
def countingLoopGraph : FlowGraph where
  members := #[⟨0⟩, ⟨1⟩, ⟨2⟩]
  entry := (0 : Fin 3)
  successors := #v[[⟨(1 : Fin 3), false⟩], [⟨(1 : Fin 3), false⟩, ⟨(2 : Fin 3), false⟩], []]
  callSites := #v[false, false, true]

theorem build_countingLoop :
    FlowGraph.build countingLoop (.ofProgram countingLoop) countingLoopFunction = .ok countingLoopGraph := by
  cbv

theorem exists_analyze_countingLoop :
    ∃ a, analyze countingLoop (.ofProgram countingLoop) {} countingLoopFunction = .ok a ∧
      a.graph = countingLoopGraph :=
  exists_analyze build_countingLoop (by decide)

/-- The head of the loop is reached along the edge from the entry. -/
theorem countingLoopGraph_reaches_head : countingLoopGraph.Reaches ⟨1⟩ :=
  ⟨(1 : Fin 3), rfl, ⟨FlowGraph.Path.extend (g := countingLoopGraph) .entry ⟨(1 : Fin 3), false⟩ (by decide)⟩⟩

/-- The head of the loop has a state, the callee has none, and the state of the head is below that of
every family that is closed under the loop. -/
theorem countingLoop_states :
    ∃ a, analyze countingLoop (.ofProgram countingLoop) {} countingLoopFunction = .ok a ∧
      (a.entryState? ⟨3⟩).isSome = false ∧
      ∃ s, a.entryState? ⟨1⟩ = some s ∧
        ∀ φ, Closed countingLoop {} countingLoopFunction a.graph φ → s ≤ φ ⟨1⟩ := by
  obtain ⟨a, ha, hgraph⟩ := exists_analyze_countingLoop
  obtain ⟨-, hreached, -, -, -, hleast⟩ := analyze_computes_least_states ha
  obtain ⟨s, hs⟩ := Option.isSome_iff_exists.mp
    ((hreached ⟨1⟩).mpr (hgraph ▸ countingLoopGraph_reaches_head))
  refine ⟨a, ha, ?_, s, hs, fun φ hφ => hleast φ hφ ⟨1⟩ s hs⟩
  rw [Bool.eq_false_iff, ne_eq, hreached, hgraph]
  rintro ⟨i, hi, -⟩
  revert i
  decide

end FunctionAnalysis

end CallFacts
