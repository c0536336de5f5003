import CallFacts.Proofs.BlockFlow

/-!
# What the analysis of a function reads

Of a program, the analysis of a function reads the number of blocks, the code of the members and the
edges that leave them, returns apart. Edges from elsewhere are only asked whether they come from a block
that exists. So programs that agree on this much have the same flow graph for the function, the same flow
problem, and with it every visit, state, observation and warning in common.
-/

namespace CallFacts

/-- Two programs look the same from inside a function: they have as many blocks, the same code in the
members, and the same edges leaving each member in the same order, returns apart. -/
structure Function.SameView (f : Function) (p q : Program) : Prop where
  arch : q.arch = p.arch
  size : q.blocks.size = p.blocks.size
  code : ∀ b ∈ f.blocks, q.block? b = p.block? b
  leaving : ∀ b ∈ f.blocks, (q.edges.filter fun e => e.source = b ∧ e.kind ≠ .ret) =
    p.edges.filter fun e => e.source = b ∧ e.kind ≠ .ret

/-- Every edge that leaves or enters a member connects blocks that exist. -/
def Function.Anchored (p : Program) (f : Function) : Prop :=
  ∀ e ∈ p.edges, e.source ∈ f.blocks ∨ e.target ∈ f.blocks →
    p.contains e.source = true ∧ p.contains e.target = true

instance (p : Program) (f : Function) : Decidable (f.Anchored p) :=
  inferInstanceAs (Decidable (∀ e ∈ p.edges, e.source ∈ f.blocks ∨ e.target ∈ f.blocks →
    p.contains e.source = true ∧ p.contains e.target = true))

variable {p q : Program} {f : Function}

theorem Function.SameView.contains (h : f.SameView p q) (b : BlockId) : q.contains b = p.contains b := by
  rw [Program.contains, Program.contains, h.size]

namespace FlowGraph

variable {ix ix' : EdgeIndex} {g : FlowGraph} {b : BlockId}

/-! ### The flow graph -/

/-- The edges that leave a block, returns apart. -/
def onward (ix : EdgeIndex) (b : BlockId) : List Edge := (ix.leaving b).filter fun e => e.kind ≠ .ret

theorem onward_ofProgram (hb : p.contains b = true) :
    onward (.ofProgram p) b = p.edges.filter fun e => e.source = b ∧ e.kind ≠ .ret := by
  simp [onward, EdgeIndex.leaving_ofProgram, hb, List.filter_filter, Bool.and_comm]

/-- Only a call makes a call site, so returns do not count. -/
theorem isCallSite_eq_any_onward (ix : EdgeIndex) (b : BlockId) :
    isCallSite ix b = (onward ix b).any fun e => e.kind == .call := by
  rw [isCallSite, onward, List.any_filter]
  congr 1
  funext e
  cases e.kind <;> rfl

/-- Control does not stay in the function along a return, so no way is lost without them. -/
theorem successorsOf_eq_filterMap_onward (ix : EdgeIndex) (members : Array BlockId) (b : BlockId) :
    successorsOf ix members b = (onward ix b).filterMap fun e =>
      if e.kind.isIntraprocedural then
        (members.finIdxOf? e.target).map fun target => ⟨target, isCallSite ix b && e.kind == .fallthrough⟩
      else none := by
  rw [successorsOf, onward, List.filterMap_filter]
  congr 1
  funext e
  cases e.kind <;> rfl

theorem ofMembers_congr {members : Array BlockId} (h : ∀ b ∈ members, onward ix' b = onward ix b)
    (entry : Fin members.size) : ofMembers ix' members entry = ofMembers ix members entry := by
  have hsites : ∀ b ∈ members, isCallSite ix' b = isCallSite ix b := by
    intro b hb
    rw [isCallSite_eq_any_onward, isCallSite_eq_any_onward, h b hb]
  have hways : ∀ b ∈ members, successorsOf ix' members b = successorsOf ix members b := by
    intro b hb
    rw [successorsOf_eq_filterMap_onward, successorsOf_eq_filterMap_onward, h b hb, hsites b hb]
  have hmember (i : Fin members.size) : members[i] ∈ members := Array.getElem_mem i.isLt
  simp only [ofMembers, hsites _ (hmember _), hways _ (hmember _)]

theorem missing?_eq_none_of_anchored (h : f.Anchored p) (hmembers : ∀ b ∈ f.blocks, p.contains b = true) :
    missingSource? p (.ofProgram p) (distinct f.blocks).toArray = none ∧
      missingTarget? p (.ofProgram p) (distinct f.blocks).toArray = none :=
  ⟨(missingSource?_eq_none_iff hmembers).mpr fun e he htarget => (h e he (.inr htarget)).1,
    (missingTarget?_eq_none_iff hmembers).mpr fun e he hsource => (h e he (.inl hsource)).2⟩

/-- A function has the same flow graph, or the same fault, in programs that it cannot tell apart. -/
theorem build_congr (h : f.SameView p q) (hp : f.Anchored p) (hq : f.Anchored q) :
    build q (.ofProgram q) f = build p (.ofProgram p) f := by
  simp only [build, h.contains]
  cases hmissing : f.blocks.find? fun b => !p.contains b with
  | some b => rfl
  | none =>
    have hmembers : ∀ b ∈ f.blocks, p.contains b = true := by
      intro b hb
      simpa using List.find?_eq_none.mp hmissing b hb
    have hmembers' : ∀ b ∈ f.blocks, q.contains b = true := fun b hb => (h.contains b).trans (hmembers b hb)
    obtain ⟨hsource, htarget⟩ := missing?_eq_none_of_anchored hp hmembers
    obtain ⟨hsource', htarget'⟩ := missing?_eq_none_of_anchored hq hmembers'
    have honward : ∀ b ∈ (distinct f.blocks).toArray, onward (.ofProgram q) b = onward (.ofProgram p) b := by
      intro b hb
      have hb : b ∈ f.blocks := by simpa using hb
      rw [onward_ofProgram (hmembers b hb), onward_ofProgram (hmembers' b hb), h.leaving b hb]
    simp only [hsource, htarget, hsource', htarget', ofMembers_congr honward]

end FlowGraph

namespace FunctionAnalysis

variable {c : Config}

/-! ### The analysis -/

/-- Functions that cannot tell two programs apart have the same analysis in both, whatever their other
blocks, edges and functions: the same states, visits, observations and warnings, or the same failure. -/
theorem analyze_eq_of_sameView (h : f.SameView p q) (hp : f.Anchored p) (hq : f.Anchored q) :
    analyze q (.ofProgram q) c f = analyze p (.ofProgram p) c f := by
  have hbuild := FlowGraph.build_congr h hp hq
  cases hgraph : FlowGraph.build p (.ofProgram p) f with
  | error fault => simp only [analyze, hbuild, hgraph]
  | ok g =>
    have hblock (i : Fin g.members.size) : q.block? (g.member i) = p.block? (g.member i) :=
      h.code _ ((FlowGraph.mem_blocks_iff hgraph).mpr ⟨i, rfl⟩)
    have hcode (i : Fin g.members.size) : q.instructions (g.member i) = p.instructions (g.member i) := by
      rw [Program.instructions, Program.instructions, hblock]
    have hproblem : problem q c f g = problem p c f g := by
      simp only [problem, h.arch, hcode]
    have hobservations : observationsOf q c g = observationsOf p c g := by
      funext run
      simp only [observationsOf, h.arch, hcode]
    have hfindings : findingsOf q g = findingsOf p g := by
      funext run
      simp only [findingsOf, addressOf, hblock, hcode]
    simp only [analyze, analyzeGraph_visitLimit, hbuild, hgraph, hproblem, hobservations, hfindings]

/-- The counting loop in other surroundings: its callee has code, goes round in a circle, jumps into the
loop and to a block that does not exist, and is a function of its own; the loop returns to its start. -/
def countingLoopElsewhere : Program where
  arch := .arm32
  blocks := countingLoop.blocks.pop.push ⟨0x2000, [⟨0x2000, 4, "mov", [.immediate 0 7]⟩]⟩
  edges := [⟨⟨3⟩, ⟨3⟩, .branch⟩, ⟨⟨2⟩, ⟨0⟩, .ret⟩] ++ countingLoop.edges ++
    [⟨⟨3⟩, ⟨1⟩, .fallthrough⟩, ⟨⟨3⟩, ⟨9⟩, .branch⟩]
  functions := [⟨"callee", ⟨3⟩, [⟨3⟩], [(0, 5)]⟩]

theorem countingLoopElsewhere_analyzed_alike :
    ∃ a, analyze countingLoop (.ofProgram countingLoop) {} countingLoopFunction = .ok a ∧
      analyze countingLoopElsewhere (.ofProgram countingLoopElsewhere) {} countingLoopFunction = .ok a := by
  have hview : countingLoopFunction.SameView countingLoop countingLoopElsewhere :=
    ⟨rfl, rfl, by decide, by decide⟩
  obtain ⟨a, ha, -⟩ := exists_analyze_countingLoop
  exact ⟨a, ha, (analyze_eq_of_sameView hview (by decide) (by decide)).trans ha⟩

end FunctionAnalysis

end CallFacts
