import CallFacts.Proofs.AddedEdges
import CallFacts.Proofs.Findings
import CallFacts.Proofs.Soundness

/-!
# The order of edges, members and functions

The order of edges and members decides in which order blocks are visited and how often, and the order
of functions in which order values are gathered. The least states do not depend on it: the flow graphs
of a function before and after have the ways of each other, so the entry states of each are below those
of the other. The facts and conflicts then come from the same values at the same sites.
-/

namespace CallFacts

/-- The same function with its members in another order. -/
structure Function.Rearranges (f f' : Function) : Prop where
  name : f'.name = f.name
  entry : f'.entry = f.entry
  blocks : f'.blocks.Perm f.blocks
  entryValues : f'.entryValues = f.entryValues

/-- The same program with its edges, its functions and their members in other orders. -/
structure Program.Rearranges (p q : Program) : Prop where
  arch : q.arch = p.arch
  blocks : q.blocks = p.blocks
  edges : q.edges.Perm p.edges
  functions : ∃ fs, List.Forall₂ Function.Rearranges p.functions fs ∧ fs.Perm q.functions

namespace Function.Rearranges

variable {p q : Program} {f f' : Function}

theorem symm (h : f.Rearranges f') : f'.Rearranges f :=
  ⟨h.name.symm, h.entry.symm, h.blocks.symm, h.entryValues.symm⟩

theorem exists_of_mem_left {fs fs' : List Function} (h : List.Forall₂ Function.Rearranges fs fs') (hf : f ∈ fs) :
    ∃ f' ∈ fs', f.Rearranges f' := by
  induction h with
  | nil => cases hf
  | cons hhead _ ih =>
    rcases List.mem_cons.mp hf with rfl | hf
    · exact ⟨_, List.mem_cons_self, hhead⟩
    · obtain ⟨f', hf', htail⟩ := ih hf
      exact ⟨f', List.mem_cons_of_mem _ hf', htail⟩

end Function.Rearranges

namespace Program.Rearranges

variable {p q : Program} {f f' : Function}

theorem symm (h : p.Rearranges q) : q.Rearranges p := by
  refine ⟨h.arch.symm, h.blocks.symm, h.edges.symm, ?_⟩
  obtain ⟨fs, hfunctions, hperm⟩ := h.functions
  have hback : List.Forall₂ Function.Rearranges fs p.functions :=
    (hfunctions.imp fun _ _ => Function.Rearranges.symm).flip
  exact List.perm_comp_forall₂ hperm.symm hback

theorem exists_function (h : p.Rearranges q) (hf : f ∈ p.functions) : ∃ f' ∈ q.functions, f.Rearranges f' := by
  obtain ⟨fs, hfunctions, hperm⟩ := h.functions
  obtain ⟨f', hf', hrearranges⟩ := Function.Rearranges.exists_of_mem_left hfunctions hf
  exact ⟨f', hperm.mem_iff.mp hf', hrearranges⟩

theorem isCallSite (h : p.Rearranges q) {b : BlockId} : p.IsCallSite b ↔ q.IsCallSite b := by
  simp only [IsCallSite, h.edges.mem_iff]

theorem sameCode (h : p.Rearranges q) (hf : f.Rearranges f') : f.SameCode p q f' :=
  ⟨h.arch, h.blocks, hf.entry, hf.entryValues⟩

theorem wellFormed (h : p.Rearranges q) (hf : f.Rearranges f') (hwell : f.WellFormed p) : f'.WellFormed q := by
  have hcontains (b : BlockId) : q.contains b = p.contains b := by rw [contains, contains, h.blocks]
  constructor
  · intro b hb
    rw [hcontains]
    exact hwell.members b (hf.blocks.mem_iff.mp hb)
  · rw [hf.entry, hf.blocks.mem_iff]
    exact hwell.entry
  · intro e he htarget
    rw [hcontains]
    exact hwell.sources e (h.edges.mem_iff.mp he) (hf.blocks.mem_iff.mp htarget)
  · intro e he hsource
    rw [hcontains]
    exact hwell.targets e (h.edges.mem_iff.mp he) (hf.blocks.mem_iff.mp hsource)

end Program.Rearranges

namespace FunctionAnalysis

variable {p q : Program} {c : Config} {f f' : Function} {a a' : FunctionAnalysis} {b : BlockId} {s : State}

/-! ### States of a rearranged function -/

section

variable (hpq : p.Rearranges q) (hf : f.Rearranges f')
  (h : analyze p (.ofProgram p) c f = .ok a) (h' : analyze q (.ofProgram q) c f' = .ok a')

include hpq hf h h'

theorem within_of_rearranges : a.graph.Within a'.graph :=
  FlowGraph.within_of_subset hpq.edges.symm.subset hf.blocks.symm.subset (analyze_eq_ok h).1 (analyze_eq_ok h').1

theorem entryState?_of_rearranges (b : BlockId) : a'.entryState? b = a.entryState? b := by
  have hways : a.graph.Within a'.graph := within_of_rearranges hpq hf h h'
  have hways' : a'.graph.Within a.graph := within_of_rearranges hpq.symm hf.symm h' h
  refine State.eq_of_below_of_below ?_ ?_
  · exact fun _ hs => entryState?_of_within (hpq.symm.sameCode hf.symm) hways' h' h hs
  · exact fun _ hs => entryState?_of_within (hpq.sameCode hf) hways h h' hs

theorem exitState?_of_rearranges (b : BlockId) : a'.exitState? b = a.exitState? b := by
  rw [exitState?_eq_map h, exitState?_eq_map h', entryState?_of_rearranges hpq hf h h', hpq.arch,
    instructions_of_sameCode (hpq.sameCode hf)]

end

/-! ### Which functions can be analyzed -/

theorem exists_failure_of_rearranges (hroom : c.LeavesRoom p.arch) (hpq : p.Rearranges q) (hf : f.Rearranges f') :
    (∃ failure, analyze q (.ofProgram q) c f' = .error failure) ↔
      ∃ failure, analyze p (.ofProgram p) c f = .error failure := by
  have hroom' : c.LeavesRoom q.arch := hpq.arch ▸ hroom
  rw [exists_failure_iff hroom, exists_failure_iff hroom']
  exact not_congr ⟨hpq.symm.wellFormed hf.symm, hpq.wellFormed hf⟩

end FunctionAnalysis

/-! ### The report on a rearranged program -/

namespace Program

variable {p q : Program} {c : Config} {site : Site} {v : Value}

section

variable (hroom : c.LeavesRoom p.arch) (h : p.Rearranges q)

include hroom h

theorem Rearranges.shownAt (hv : ShownAt p.arch (p.observations c) site v) :
    ShownAt q.arch (q.observations c) site v := by
  obtain ⟨htracked, hbottom, f, hf, a, ha, b, s, last, hs, ⟨hobserved, hlast⟩, haddress, rfl⟩ :=
    shownAt_observations_iff.mp hv
  obtain ⟨f', hf', hrearranges⟩ := h.exists_function hf
  obtain ⟨a', ha'⟩ := (FunctionAnalysis.exists_analyze_iff (h.arch ▸ hroom)).mpr
    (h.wellFormed hrearranges (FunctionAnalysis.wellFormed_of_analyze ha))
  have hinstructions := FunctionAnalysis.instructions_of_sameCode (h.sameCode hrearranges) b
  refine shownAt_observations_iff.mpr ⟨h.arch ▸ htracked, hbottom, f', hf', a', ha', b, s, last, ?_, ⟨?_, ?_⟩, ?_, ?_⟩
  · rw [FunctionAnalysis.entryState?_of_rearranges h hrearranges ha ha', hs]
  · exact hobserved.imp_right h.isCallSite.mp
  · rw [hinstructions, hlast]
  · rw [h.arch, haddress]
  · rw [beforeLast, beforeLast, h.arch, hinstructions]

theorem Rearranges.shownAt_iff :
    ShownAt q.arch (q.observations c) site v ↔ ShownAt p.arch (p.observations c) site v :=
  ⟨Rearranges.shownAt (h.arch ▸ hroom) h.symm, Rearranges.shownAt hroom h⟩

theorem Rearranges.fails {name : String} (hfails : (p.analyze c).Fails name) : (q.analyze c).Fails name := by
  obtain ⟨f, hf, rfl, hfailure⟩ := fails_iff.mp hfails
  obtain ⟨f', hf', hrearranges⟩ := h.exists_function hf
  refine fails_iff.mpr ⟨f', hf', hrearranges.name, ?_⟩
  exact (FunctionAnalysis.exists_failure_of_rearranges hroom h hrearranges).mpr hfailure

end

/-- Other orders of edges, members and functions change no fact, no conflict, nothing about which
functions fail, and no entry or exit state. -/
theorem analyze_rearranged (hroom : c.LeavesRoom p.arch) (h : p.Rearranges q) :
    (q.analyze c).facts = (p.analyze c).facts ∧
      (∀ name, (q.analyze c).Fails name ↔ (p.analyze c).Fails name) ∧
      (∀ site values, (q.analyze c).ConflictsAt site values ↔ (p.analyze c).ConflictsAt site values) ∧
      ∀ f f', f.Rearranges f' →
        ((∃ failure, FunctionAnalysis.analyze q (.ofProgram q) c f' = .error failure) ↔
          ∃ failure, FunctionAnalysis.analyze p (.ofProgram p) c f = .error failure) ∧
        ∀ a a', FunctionAnalysis.analyze p (.ofProgram p) c f = .ok a →
          FunctionAnalysis.analyze q (.ofProgram q) c f' = .ok a' →
          ∀ b, a'.entryState? b = a.entryState? b ∧ a'.exitState? b = a.exitState? b := by
  have hroom' : c.LeavesRoom q.arch := h.arch ▸ hroom
  refine ⟨?_, ?_, ?_, ?_⟩
  · refine FactTable.ext fun fact => ?_
    simp only [mem_facts_analyze_iff, Rearranges.shownAt_iff hroom h]
  · exact fun name => ⟨Rearranges.fails hroom' h.symm, Rearranges.fails hroom h⟩
  · intro site values
    simp only [conflictsAt_iff, Rearranges.shownAt_iff hroom h]
  · intro f f' hf
    refine ⟨FunctionAnalysis.exists_failure_of_rearranges hroom h hf, fun a a' ha ha' b => ⟨?_, ?_⟩⟩
    · exact FunctionAnalysis.entryState?_of_rearranges h hf ha ha' b
    · exact FunctionAnalysis.exitState?_of_rearranges h hf ha ha' b

/-- The skipped move with its edges, functions and members the other way round. -/
def skippedMoveReversed : Program :=
  { skippedMove with
    edges := skippedMove.edges.reverse
    functions := (skippedMove.functions.map fun f => { f with blocks := f.blocks.reverse }).reverse }

theorem rearranges_skippedMoveReversed : skippedMove.Rearranges skippedMoveReversed := by
  refine ⟨rfl, rfl, List.reverse_perm _, _, ?_, (List.reverse_perm _).symm⟩
  rw [List.forall₂_map_right_iff, List.forall₂_same]
  exact fun f _ => ⟨rfl, rfl, List.reverse_perm _, rfl⟩

theorem skippedMoveReversed_facts : (skippedMoveReversed.analyze {}).facts = (skippedMove.analyze {}).facts :=
  (analyze_rearranged ⟨by decide, by decide⟩ rearranges_skippedMoveReversed).1

end Program

end CallFacts
