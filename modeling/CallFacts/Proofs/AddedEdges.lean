import CallFacts.Proofs.BlockFlow
import CallFacts.Proofs.Frame

/-!
# More edges, higher states

Two functions that run the same code from the same start, where the second has every way of the
first. A way may come back from a call in the second only, which makes registers unknown. Then the
entry states of the second take in all that flows in the first, so they are above its least ones.
An edge added to a program does no more than this: a branch or fallthrough edge between members adds
a way, a call edge can turn ways into ways back from a call, and all other edges change nothing.
-/

namespace CallFacts

/-- The second function has the blocks, entry and entry values of the first, though other edges and
members. -/
structure Function.SameCode (p q : Program) (f f' : Function) : Prop where
  arch : q.arch = p.arch
  blocks : q.blocks = p.blocks
  entry : f'.entry = f.entry
  entryValues : f'.entryValues = f.entryValues

/-- Every way of the first graph is one of the second, where it may come back from a call. -/
def FlowGraph.Within (g g' : FlowGraph) : Prop :=
  ∀ {b b' afterCall}, g.Way b b' afterCall → ∃ afterCall', g'.Way b b' afterCall' ∧
    (afterCall = true → afterCall' = true)

namespace FlowGraph

variable {p q : Program} {ix ix' : EdgeIndex} {f f' : Function} {g g' : FlowGraph} {b : BlockId}

theorem Within.reaches (h : g.Within g') (hbuild : build p ix f = .ok g) (hbuild' : build q ix' f' = .ok g')
    (hentry : f'.entry = f.entry) (hb : g.Reaches b) : g'.Reaches b := by
  refine hb.induct hbuild (hentry ▸ reaches_entry hbuild') ?_
  intro b b' afterCall _ hb hway
  obtain ⟨afterCall', hway', -⟩ := h hway
  exact hb.along hbuild' hway'

/-- A graph of more edges and members has the ways of the other. -/
theorem within_of_subset (hedges : p.edges ⊆ q.edges) (hblocks : f.blocks ⊆ f'.blocks)
    (hbuild : build p (.ofProgram p) f = .ok g) (hbuild' : build q (.ofProgram q) f' = .ok g') : g.Within g' := by
  intro b b' afterCall hway
  obtain ⟨hsource, htarget, e, he, hb, hb', hkind, hcall⟩ := (way_iff hbuild).mp hway
  have hsites : p.IsCallSite e.source → q.IsCallSite e.source := by
    rintro ⟨call, hmem, hcalls⟩
    exact ⟨call, hedges hmem, hcalls⟩
  obtain ⟨afterCall', hcontinues⟩ := q.exists_continues hkind
  refine ⟨afterCall', ?_, fun h => hcontinues.2.mpr ⟨hsites (hcall.mp h).1, (hcall.mp h).2⟩⟩
  exact (way_iff hbuild').mpr ⟨hblocks hsource, hblocks htarget, e, hedges he, hb, hb', hcontinues⟩

end FlowGraph

namespace FunctionAnalysis

variable {p q : Program} {ix ix' : EdgeIndex} {c : Config} {f f' : Function} {a a' : FunctionAnalysis}
  {b : BlockId} {s : State}

/-! ### Two functions with the same code -/

section

variable (hcode : f.SameCode p q f')

include hcode

theorem instructions_of_sameCode (b : BlockId) : q.instructions b = p.instructions b := by
  simp only [Program.instructions, Program.block?, hcode.blocks]

theorem initialState_of_sameCode :
    initialState q.arch (c.trackedFor q.arch) f' = initialState p.arch (c.trackedFor p.arch) f := by
  rw [hcode.arch, initialState, hcode.entryValues, initialState]

theorem outflow_below_outflow {afterCall afterCall' : Bool} (hcall : afterCall = true → afterCall' = true) (s : State) :
    (outflow p c b afterCall s).Below (outflow q c b afterCall' s) := by
  simp only [outflow, hcode.arch, instructions_of_sameCode hcode]
  cases afterCall with
  | true =>
    rw [hcall rfl]
    exact .refl _
  | false =>
    cases afterCall' with
    | true => exact State.below_clobber _ _
    | false => exact .refl _

end

section

variable (hcode : f.SameCode p q f') (hways : a.graph.Within a'.graph)
  (h : analyze p ix c f = .ok a) (h' : analyze q ix' c f' = .ok a')

include hcode hways h h'

theorem reaches_of_within (hb : a.graph.Reaches b) : a'.graph.Reaches b :=
  hways.reaches (analyze_eq_ok h).1 (analyze_eq_ok h').1 hcode.entry hb

theorem entryState?_of_within (hs : a.entryState? b = some s) :
    ∃ s', a'.entryState? b = some s' ∧ s.Below s' := by
  refine exists_above_entryState? h ?_ ?_ hs
  · rw [← hcode.entry, ← initialState_of_sameCode hcode]
    exact entryState?_entry h'
  · intro b b' afterCall t ht hway
    obtain ⟨afterCall', hway', hcall⟩ := hways hway
    obtain ⟨u, hu, hflow⟩ := entryState?_along h' ht hway'
    exact ⟨u, hu, (outflow_below_outflow hcode hcall t).trans hflow⟩

theorem exitState?_of_within (hs : a.exitState? b = some s) :
    ∃ s', a'.exitState? b = some s' ∧ s.Below s' := by
  rw [exitState?_eq_map h] at hs
  obtain ⟨entry, hentry, rfl⟩ := Option.map_eq_some_iff.mp hs
  obtain ⟨entry', hentry', hbelow⟩ := entryState?_of_within hcode hways h h' hentry
  refine ⟨_, by rw [exitState?_eq_map h', hentry', Option.map_some], ?_⟩
  rw [hcode.arch, instructions_of_sameCode hcode]
  exact hbelow.applyAll _ _

end

/-! ### Adding edges to a program -/

theorem wellFormed_with_added_edges (hf : f.WellFormed p) {edges added : List Edge}
    (hedges : edges.Perm (p.edges ++ added))
    (hadded : ∀ e ∈ added, p.contains e.source = true ∧ p.contains e.target = true) :
    f.WellFormed { p with edges } where
  members := hf.members
  entry := hf.entry
  sources e he htarget := by
    rcases List.mem_append.mp (hedges.mem_iff.mp he) with he | he
    · exact hf.sources e he htarget
    · exact (hadded e he).1
  targets e he hsource := by
    rcases List.mem_append.mp (hedges.mem_iff.mp he) with he | he
    · exact hf.targets e he hsource
    · exact (hadded e he).2

/-- Edges of any kind between existing blocks may be added anywhere in a program: what could be analyzed
still can, every block that was reached still is, and no register has fallen at its entry or exit. -/
theorem analyze_with_added_edges (hroom : c.LeavesRoom p.arch) (h : analyze p (.ofProgram p) c f = .ok a)
    (edges added : List Edge) (hedges : edges.Perm (p.edges ++ added))
    (hadded : ∀ e ∈ added, p.contains e.source = true ∧ p.contains e.target = true) :
    ∃ a', analyze { p with edges } (.ofProgram { p with edges }) c f = .ok a' ∧
      ∀ b, a.graph.Reaches b → a'.graph.Reaches b ∧
        (∃ s s', a.entryState? b = some s ∧ a'.entryState? b = some s' ∧ s ≤ s') ∧
        ∃ t t', a.exitState? b = some t ∧ a'.exitState? b = some t' ∧ t ≤ t' := by
  have hwell := wellFormed_with_added_edges (wellFormed_of_analyze h) hedges hadded
  obtain ⟨a', h'⟩ := (exists_analyze_iff (p := { p with edges }) hroom).mpr hwell
  have hcode : f.SameCode p { p with edges } f := ⟨rfl, rfl, rfl, rfl⟩
  have hsubset : p.edges ⊆ edges := fun e he => hedges.mem_iff.mpr (List.mem_append_left added he)
  have hways : a.graph.Within a'.graph :=
    FlowGraph.within_of_subset hsubset (List.Subset.refl _) (analyze_eq_ok h).1 (analyze_eq_ok h').1
  refine ⟨a', h', fun b hb => ⟨reaches_of_within hcode hways h h' hb, ?_, ?_⟩⟩
  · obtain ⟨s, hs⟩ := exists_entryState? h hb
    obtain ⟨s', hs', hbelow⟩ := entryState?_of_within hcode hways h h' hs
    exact ⟨s, s', hs, hs', hbelow.le⟩
  · obtain ⟨s, hs⟩ := exists_entryState? h hb
    have ht : a.exitState? b = some (s.applyAll p.arch.registerBits (p.instructions b)) := by
      rw [exitState?_eq_map h, hs, Option.map_some]
    obtain ⟨t', ht', hbelow⟩ := exitState?_of_within hcode hways h h' ht
    exact ⟨_, t', ht, ht', hbelow.le⟩

/-- The counting loop with a call from its head, which makes the way on from there come back from a
call, and with a branch back to the entry. -/
def calledLoop : Program :=
  { countingLoop with edges := ⟨⟨1⟩, ⟨3⟩, .call⟩ :: countingLoop.edges ++ [⟨⟨2⟩, ⟨0⟩, .branch⟩] }

theorem calledLoop_raises_head :
    ∃ a a', analyze countingLoop (.ofProgram countingLoop) {} countingLoopFunction = .ok a ∧
      analyze calledLoop (.ofProgram calledLoop) {} countingLoopFunction = .ok a' ∧
      ∃ s s', a.entryState? ⟨1⟩ = some s ∧ a'.entryState? ⟨1⟩ = some s' ∧ s ≤ s' := by
  obtain ⟨a, ha, hgraph⟩ := exists_analyze_countingLoop
  obtain ⟨a', ha', hraised⟩ := analyze_with_added_edges ⟨by decide, by decide⟩ ha calledLoop.edges
    [⟨⟨1⟩, ⟨3⟩, .call⟩, ⟨⟨2⟩, ⟨0⟩, .branch⟩] (by decide) (by decide)
  obtain ⟨-, hentry, -⟩ := hraised ⟨1⟩ (hgraph ▸ countingLoopGraph_reaches_head)
  exact ⟨a, a', ha, ha', hentry⟩

end FunctionAnalysis

end CallFacts
