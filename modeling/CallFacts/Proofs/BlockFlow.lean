import CallFacts.Proofs.VisitBound

/-!
# The flow between blocks

A flow graph numbers the members of its function. Here it is described by blocks and by the edges of
the program alone: which functions have a graph, which ways lead from block to block, which blocks
are reached, and what makes the entry states the least. Nothing that is stated this way depends on
the order of edges or members.
-/

namespace CallFacts

/-- A call leaves the block. -/
def Program.IsCallSite (p : Program) (b : BlockId) : Prop := ∃ e ∈ p.edges, e.source = b ∧ e.kind = .call

/-- Control stays in the function along the edge; it comes back from a call if the edge falls through
from a call site. -/
def Program.Continues (p : Program) (e : Edge) (afterCall : Bool) : Prop :=
  e.kind.isIntraprocedural = true ∧ (afterCall = true ↔ p.IsCallSite e.source ∧ e.kind = .fallthrough)

theorem Program.exists_continues (p : Program) {e : Edge} (hkind : e.kind.isIntraprocedural = true) :
    ∃ afterCall, p.Continues e afterCall := by
  by_cases h : p.IsCallSite e.source ∧ e.kind = .fallthrough
  · exact ⟨true, hkind, by simp [h]⟩
  · exact ⟨false, hkind, by simp [h]⟩

/-- What a function asks of its program: the entry is a member, and the members exist, as does every
block that an edge of any kind connects with one of them. -/
structure Function.WellFormed (p : Program) (f : Function) : Prop where
  members : ∀ b ∈ f.blocks, p.contains b = true
  entry : f.entry ∈ f.blocks
  sources : ∀ e ∈ p.edges, e.target ∈ f.blocks → p.contains e.source = true
  targets : ∀ e ∈ p.edges, e.source ∈ f.blocks → p.contains e.target = true

namespace FlowGraph

variable {p : Program} {ix : EdgeIndex} {f : Function} {g : FlowGraph} {b b' : BlockId} {afterCall : Bool}

/-! ### Which functions have a graph -/

@[simp] theorem mem_distinct {bs : List BlockId} : b ∈ distinct bs ↔ b ∈ bs := by
  induction bs with
  | nil => exact Iff.rfl
  | cons b' bs ih =>
    simp only [distinct, List.mem_cons, List.mem_filter, ih, decide_eq_true_eq]
    by_cases h : b = b'
    · simp [h]
    · simp [h]

theorem mem_leaving {e : Edge} (hb : p.contains b = true) :
    e ∈ (EdgeIndex.ofProgram p).leaving b ↔ e ∈ p.edges ∧ e.source = b := by
  rw [EdgeIndex.leaving_ofProgram, if_pos hb, List.mem_filter, decide_eq_true_eq]

theorem mem_entering {e : Edge} (hb : p.contains b = true) :
    e ∈ (EdgeIndex.ofProgram p).entering b ↔ e ∈ p.edges ∧ e.target = b := by
  rw [EdgeIndex.entering_ofProgram, if_pos hb, List.mem_filter, decide_eq_true_eq]

theorem missingSource?_eq_none_iff (hmembers : ∀ b ∈ f.blocks, p.contains b = true) :
    missingSource? p (.ofProgram p) (distinct f.blocks).toArray = none ↔
      ∀ e ∈ p.edges, e.target ∈ f.blocks → p.contains e.source = true := by
  simp only [missingSource?, List.find?_eq_none, List.mem_flatMap, mem_distinct, Bool.not_eq_true',
    Bool.not_eq_false]
  constructor
  · intro h e he htarget
    exact h e ⟨e.target, htarget, (mem_entering (hmembers _ htarget)).mpr ⟨he, rfl⟩⟩
  · rintro h e ⟨b, hb, he⟩
    obtain ⟨hedge, rfl⟩ := (mem_entering (hmembers b hb)).mp he
    exact h e hedge hb

theorem missingTarget?_eq_none_iff (hmembers : ∀ b ∈ f.blocks, p.contains b = true) :
    missingTarget? p (.ofProgram p) (distinct f.blocks).toArray = none ↔
      ∀ e ∈ p.edges, e.source ∈ f.blocks → p.contains e.target = true := by
  simp only [missingTarget?, List.find?_eq_none, List.mem_flatMap, mem_distinct, Bool.not_eq_true',
    Bool.not_eq_false]
  constructor
  · intro h e he hsource
    exact h e ⟨e.source, hsource, (mem_leaving (hmembers _ hsource)).mpr ⟨he, rfl⟩⟩
  · rintro h e ⟨b, hb, he⟩
    obtain ⟨hedge, rfl⟩ := (mem_leaving (hmembers b hb)).mp he
    exact h e hedge hb

theorem wellFormed_of_build (h : build p (.ofProgram p) f = .ok g) : f.WellFormed p := by
  obtain ⟨hmembers, hsource, htarget, entry, -, hentry⟩ := build_eq_ok h
  refine ⟨hmembers, ?_, (missingSource?_eq_none_iff hmembers).mp hsource,
    (missingTarget?_eq_none_iff hmembers).mp htarget⟩
  have hmem : (distinct f.blocks).toArray[entry] ∈ (distinct f.blocks).toArray := Array.getElem_mem _
  rw [hentry] at hmem
  simpa using hmem

theorem exists_build_of_wellFormed (h : f.WellFormed p) : ∃ g, build p (.ofProgram p) f = .ok g := by
  have hmissing : f.blocks.find? (fun b => !p.contains b) = none := by
    rw [List.find?_eq_none]
    intro b hb
    simp [h.members b hb]
  have hentry : f.entry ∈ (distinct f.blocks).toArray := by simpa using h.entry
  obtain ⟨entry, hlocal⟩ : ∃ entry, (distinct f.blocks).toArray.finIdxOf? f.entry = some entry := by
    cases hlocal : (distinct f.blocks).toArray.finIdxOf? f.entry with
    | none => exact absurd hentry (Array.finIdxOf?_eq_none_iff.mp hlocal)
    | some entry => exact ⟨entry, rfl⟩
  refine ⟨ofMembers (.ofProgram p) _ entry, ?_⟩
  simp only [build, hmissing, h.members _ h.entry, if_true, hlocal,
    (missingSource?_eq_none_iff h.members).mpr h.sources, (missingTarget?_eq_none_iff h.members).mpr h.targets]

/-- A function has a flow graph exactly if it is well formed. -/
theorem exists_build_iff : (∃ g, build p (.ofProgram p) f = .ok g) ↔ f.WellFormed p :=
  ⟨fun ⟨_, h⟩ => wellFormed_of_build h, exists_build_of_wellFormed⟩

theorem mem_blocks_iff (h : build p ix f = .ok g) : b ∈ f.blocks ↔ ∃ i, g.member i = b := by
  rw [← mem_distinct, ← List.mem_toArray, ← members_of_build h, Array.mem_iff_getElem]
  constructor
  · rintro ⟨i, hi, hb⟩
    exact ⟨⟨i, hi⟩, hb⟩
  · rintro ⟨i, hb⟩
    exact ⟨i, i.isLt, hb⟩

theorem isCallSite_iff (hb : p.contains b = true) : isCallSite (.ofProgram p) b = true ↔ p.IsCallSite b := by
  simp only [isCallSite, List.any_eq_true, mem_leaving hb, beq_iff_eq, Program.IsCallSite, and_assoc]

/-! ### Ways from block to block -/

/-- A way leads from the first block to the second. -/
def Way (g : FlowGraph) (b b' : BlockId) (afterCall : Bool) : Prop :=
  ∃ i, g.member i = b ∧ ∃ way ∈ g.successors.get i, g.member way.target = b' ∧ way.afterCall = afterCall

theorem mem_successorsOf {members : Array BlockId} {way : Successor members.size} :
    way ∈ successorsOf ix members b ↔ ∃ e ∈ ix.leaving b, e.kind.isIntraprocedural = true ∧
      members.finIdxOf? e.target = some way.target ∧
      way.afterCall = (isCallSite ix b && e.kind == .fallthrough) := by
  simp only [successorsOf, List.mem_filterMap]
  constructor
  · rintro ⟨e, he, hway⟩
    split at hway
    · next hkind =>
      obtain ⟨target, htarget, rfl⟩ := Option.map_eq_some_iff.mp hway
      exact ⟨e, he, hkind, htarget, rfl⟩
    · cases hway
  · rintro ⟨e, he, hkind, htarget, hafter⟩
    refine ⟨e, he, ?_⟩
    rw [if_pos hkind, htarget, Option.map_some, ← hafter]

theorem successors_of_build (h : build p ix f = .ok g) (i : Fin g.members.size) :
    g.successors.get i = successorsOf ix g.members (g.member i) := by
  obtain ⟨-, -, -, entry, rfl, -⟩ := build_eq_ok h
  exact Vector.getElem_ofFn i.isLt

theorem callSites_of_build (h : build p ix f = .ok g) (i : Fin g.members.size) :
    g.callSites.get i = isCallSite ix (g.member i) := by
  obtain ⟨-, -, -, entry, rfl, -⟩ := build_eq_ok h
  exact Vector.getElem_ofFn i.isLt

/-- The ways of a flow graph are the edges between its members along which control stays in the
function. -/
theorem way_iff (h : build p (.ofProgram p) f = .ok g) :
    g.Way b b' afterCall ↔ b ∈ f.blocks ∧ b' ∈ f.blocks ∧
      ∃ e ∈ p.edges, e.source = b ∧ e.target = b' ∧ p.Continues e afterCall := by
  have hmembers := (wellFormed_of_build h).members
  constructor
  · rintro ⟨i, rfl, way, hway, rfl, rfl⟩
    have hsource : g.member i ∈ f.blocks := (mem_blocks_iff h).mpr ⟨i, rfl⟩
    have hexists := hmembers _ hsource
    rw [successors_of_build h] at hway
    obtain ⟨e, he, hkind, htarget, hafter⟩ := mem_successorsOf.mp hway
    obtain ⟨he, heq⟩ := (mem_leaving hexists).mp he
    refine ⟨hsource, (mem_blocks_iff h).mpr ⟨way.target, rfl⟩, e, he, heq, ?_, hkind, ?_⟩
    · exact ((local?_eq_some_iff h).mp htarget).symm
    · rw [hafter, heq, Bool.and_eq_true, isCallSite_iff hexists, beq_iff_eq]
  · rintro ⟨hsource, htarget, e, he, rfl, rfl, hkind, hafter⟩
    obtain ⟨i, hi⟩ := (mem_blocks_iff h).mp hsource
    obtain ⟨j, hj⟩ := (mem_blocks_iff h).mp htarget
    refine ⟨i, hi, ⟨j, afterCall⟩, ?_, hj, rfl⟩
    rw [successors_of_build h, hi]
    refine mem_successorsOf.mpr ⟨e, (mem_leaving (hmembers _ hsource)).mpr ⟨he, rfl⟩, hkind, ?_, ?_⟩
    · exact (local?_eq_some_iff h).mpr hj
    · rw [Bool.eq_iff_iff, hafter, Bool.and_eq_true, isCallSite_iff (hmembers _ hsource), beq_iff_eq]

/-! ### Reached blocks -/

theorem reaches_entry (h : build p ix f = .ok g) : g.Reaches f.entry :=
  ⟨g.entry, member_entry_of_build h, ⟨.entry⟩⟩

theorem Reaches.along (h : build p ix f = .ok g) (hb : g.Reaches b) (hway : g.Way b b' afterCall) :
    g.Reaches b' := by
  obtain ⟨j, hj, ⟨path⟩⟩ := hb
  obtain ⟨i, hi, way, hway, rfl, -⟩ := hway
  obtain rfl := members_injective h (hi.trans hj.symm)
  exact ⟨way.target, rfl, ⟨path.extend way hway⟩⟩

/-- What the entry has and ways hand on, every reached block has. -/
theorem Reaches.induct {P : BlockId → Prop} (h : build p ix f = .ok g) (entry : P f.entry)
    (along : ∀ {b b' afterCall}, g.Reaches b → P b → g.Way b b' afterCall → P b') (hb : g.Reaches b) : P b := by
  obtain ⟨i, rfl, ⟨path⟩⟩ := hb
  induction path with
  | entry => exact member_entry_of_build h ▸ entry
  | extend path way hway ih => exact along ⟨_, rfl, ⟨path⟩⟩ ih ⟨_, rfl, way, hway, rfl, rfl⟩

end FlowGraph

namespace FunctionAnalysis

variable {p : Program} {ix : EdgeIndex} {c : Config} {f : Function} {a : FunctionAnalysis} {b b' : BlockId}
  {afterCall : Bool} {s : State}

/-! ### Which functions can be analyzed -/

theorem wellFormed_of_analyze (h : analyze p (.ofProgram p) c f = .ok a) : f.WellFormed p :=
  FlowGraph.wellFormed_of_build (analyze_eq_ok h).1

/-- Where the limit leaves room, a function can be analyzed exactly if it is well formed. -/
theorem exists_analyze_iff (hroom : c.LeavesRoom p.arch) :
    (∃ a, analyze p (.ofProgram p) c f = .ok a) ↔ f.WellFormed p := by
  constructor
  · rintro ⟨a, h⟩
    exact wellFormed_of_analyze h
  · intro hwell
    obtain ⟨g, hbuild⟩ := FlowGraph.exists_build_iff.mpr hwell
    obtain ⟨a, h, -⟩ := exists_analyze hbuild hroom.lt_visitLimit
    exact ⟨a, h⟩

theorem exists_failure_iff (hroom : c.LeavesRoom p.arch) :
    (∃ failure, analyze p (.ofProgram p) c f = .error failure) ↔ ¬ f.WellFormed p := by
  rw [← exists_analyze_iff hroom]
  cases analyze p (.ofProgram p) c f with
  | ok a => simp
  | error failure => simp

/-! ### Least states of blocks -/

/-- What flows out of a block with a given entry state, back from a call or not. -/
def outflow (p : Program) (c : Config) (b : BlockId) (afterCall : Bool) (s : State) : State :=
  let exit := s.applyAll p.arch.registerBits (p.instructions b)
  if afterCall then exit.clobber (c.callPolicy.clobbered p.arch (c.trackedFor p.arch)) else exit

theorem outflow_below {t : State} (h : s.Below t) : (outflow p c b afterCall s).Below (outflow p c b afterCall t) := by
  have hexit := h.applyAll p.arch.registerBits (p.instructions b)
  simp only [outflow]
  split
  · exact hexit.clobber _
  · exact hexit

theorem entryState?_entry (h : analyze p ix c f = .ok a) :
    ∃ s, a.entryState? f.entry = some s ∧ (initialState p.arch (c.trackedFor p.arch) f).Below s := by
  obtain ⟨hbuild, hstable, -⟩ := analyze_eq_ok h
  obtain ⟨s, hs, hbelow⟩ := (Dataflow.runs_of_stable hstable).covers_start
  refine ⟨s, ?_, hbelow⟩
  rw [← FlowGraph.member_entry_of_build hbuild, entryState?_member hbuild]
  exact hs

theorem entryState?_along (h : analyze p ix c f = .ok a) (hs : a.entryState? b = some s)
    (hway : a.graph.Way b b' afterCall) :
    ∃ t, a.entryState? b' = some t ∧ (outflow p c b afterCall s).Below t := by
  obtain ⟨hbuild, hstable, -⟩ := analyze_eq_ok h
  obtain ⟨i, rfl, way, hway, rfl, rfl⟩ := hway
  rw [entryState?_member hbuild] at hs ⊢
  exact (Dataflow.settled_of_stable (regular_problem p c f a.graph) hstable hs).2 way hway

theorem exists_entryState? (h : analyze p ix c f = .ok a) (hb : a.graph.Reaches b) :
    ∃ s, a.entryState? b = some s := Option.isSome_iff_exists.mp ((isSome_entryState?_iff h b).mpr hb)

theorem reaches_of_entryState? (h : analyze p ix c f = .ok a) (hs : a.entryState? b = some s) :
    a.graph.Reaches b := (isSome_entryState?_iff h b).mp (by rw [hs]; rfl)

theorem mem_blocks_of_entryState? (h : analyze p (.ofProgram p) c f = .ok a) (hs : a.entryState? b = some s) :
    b ∈ f.blocks := by
  have hbuild := (analyze_eq_ok h).1
  obtain ⟨i, hi, -⟩ := member_of_entryState? hbuild hs
  exact (FlowGraph.mem_blocks_iff hbuild).mpr ⟨i, hi⟩

/-- Given states of some blocks, of the entry and of all to which a way leads from another of them, that
take in the initial state and what flows along the ways, the entry states are below those states. -/
theorem exists_above_entryState? (h : analyze p ix c f = .ok a) {φ : BlockId → Option State}
    (hentry : ∃ s, φ f.entry = some s ∧ (initialState p.arch (c.trackedFor p.arch) f).Below s)
    (hflow : ∀ {b b' afterCall s}, φ b = some s → a.graph.Way b b' afterCall →
      ∃ t, φ b' = some t ∧ (outflow p c b afterCall s).Below t)
    (hs : a.entryState? b = some s) : ∃ t, φ b = some t ∧ s.Below t := by
  obtain ⟨hbuild, hstable, -⟩ := analyze_eq_ok h
  have hreached : ∀ {b}, a.graph.Reaches b → ∃ t, φ b = some t := by
    intro b hb
    refine hb.induct (P := fun b => ∃ t, φ b = some t) hbuild ?_ ?_
    · obtain ⟨t, ht, -⟩ := hentry
      exact ⟨t, ht⟩
    · rintro b b' afterCall - ⟨t, ht⟩ hway
      obtain ⟨u, hu, -⟩ := hflow ht hway
      exact ⟨u, hu⟩
  have hsolution : (problem p c f a.graph).Solution fun i => (φ (a.graph.member i)).getD (.new ∅) := by
    constructor
    · obtain ⟨t, ht, hbelow⟩ := hentry
      rw [← FlowGraph.member_entry_of_build hbuild] at ht
      show (initialState p.arch (c.trackedFor p.arch) f).Below ((φ (a.graph.member a.graph.entry)).getD (.new ∅))
      rwa [ht]
    · intro i hi way hway
      obtain ⟨t, ht⟩ := hreached ⟨i, rfl, reachable_problem_iff.mp hi⟩
      obtain ⟨u, hu, hbelow⟩ := hflow ht ⟨i, rfl, way, hway, rfl, rfl⟩
      rw [ht, hu]
      exact hbelow
  obtain ⟨t, ht⟩ := hreached (reaches_of_entryState? h hs)
  obtain ⟨i, rfl, hi⟩ := member_of_entryState? hbuild hs
  have hbelow := ((Dataflow.runs_of_stable hstable).below_solution (regular_problem p c f a.graph) hsolution i s hi).2
  rw [ht] at hbelow
  exact ⟨t, ht, hbelow⟩

end FunctionAnalysis

end CallFacts
