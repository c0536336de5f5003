import CallFacts.Proofs.BlockFlow

/-!
# The flow graph as a scan of the edges

Building a flow graph goes through an index of the edges by block, which leaves out blocks that do not exist, and
through local numbers for the members. What comes out is what a plain scan of the members and of all edges of the
program in their order gives, and a function is refused exactly if such a scan finds a block missing.
-/

namespace CallFacts.FlowGraph

variable {p : Program} {ix : EdgeIndex} {f : Function} {g : FlowGraph}

/-- The graph is what a scan of the members and edges gives for a function: its members in order of first
occurrence, a local number for each, the members that a call leaves, and for each member its ways on to members,
one for each edge along which control stays in the function. -/
structure IsScanOf (g : FlowGraph) (p : Program) (f : Function) : Prop where
  members : g.members.toList = f.blocks.eraseDups
  entry : g.member g.entry = f.entry
  local_iff : ∀ b i, g.local? b = some i ↔ g.member i = b
  callSites : ∀ i, g.callSites.get i = true ↔ ∃ e ∈ p.edges, e.source = g.member i ∧ e.kind = .call
  successors : ∀ i, ((g.successors.get i).map fun way => (g.member way.target, way.afterCall)) =
    (p.edges.filter fun e => e.source = g.member i ∧ (e.kind = .fallthrough ∨ e.kind = .branch) ∧
      e.target ∈ f.blocks).map fun e => (e.target, decide (e.kind = .fallthrough ∧ g.callSites.get i = true))

/-! ### Members -/

theorem distinct_filter (bs : List BlockId) (q : BlockId → Bool) : distinct (bs.filter q) = (distinct bs).filter q := by
  induction bs with
  | nil => rfl
  | cons b bs ih =>
    by_cases hb : q b = true
    · rw [List.filter_cons_of_pos hb, distinct, distinct, List.filter_cons_of_pos hb, ih, List.filter_filter,
        List.filter_filter]
      simp only [Bool.and_comm]
    · rw [List.filter_cons_of_neg hb, distinct, List.filter_cons_of_neg hb, ih, List.filter_filter]
      refine List.filter_congr fun c _ => ?_
      -- What passes the filter is not the block that was taken away.
      by_cases hc : c = b
      · simp [hc, hb]
      · simp [hc]

theorem distinct_eq_eraseDups (bs : List BlockId) : distinct bs = bs.eraseDups := by
  induction hlength : bs.length using Nat.strong_induction_on generalizing bs with
  | _ length ih =>
    cases bs with
    | nil => rfl
    | cons b bs =>
      have hshorter : (bs.filter fun c => !c == b).length < length := by
        have hle := List.length_filter_le (fun c => !c == b) bs
        rw [← hlength, List.length_cons]
        omega
      have hfilter : (distinct bs).filter (· ≠ b) = distinct (bs.filter fun c => !c == b) := by
        rw [distinct_filter]
        refine List.filter_congr fun c _ => ?_
        by_cases hc : c = b <;> simp [hc]
      rw [distinct, List.eraseDups_cons, hfilter, ih _ hshorter _ rfl]

/-! ### Ways on -/

/-- The way on that an edge from a member gives, seen by its target block. -/
theorem map_way_eq (h : build p ix f = .ok g) (afterCall : Bool) (b : BlockId) :
    ((g.local? b).map fun target => (⟨target, afterCall⟩ : Successor g.members.size)).map
        (fun way => (g.member way.target, way.afterCall)) =
      if b ∈ f.blocks then some (b, afterCall) else none := by
  by_cases hb : b ∈ f.blocks
  · obtain ⟨i, rfl⟩ := (mem_blocks_iff h).mp hb
    rw [local?_member h, if_pos hb]
    rfl
  · have hnone : g.local? b = none := local?_eq_none h fun i hi => hb ((mem_blocks_iff h).mpr ⟨i, hi⟩)
    rw [hnone, if_neg hb]
    rfl

theorem map_successors_eq (h : build p (.ofProgram p) f = .ok g) (i : Fin g.members.size) :
    ((g.successors.get i).map fun way => (g.member way.target, way.afterCall)) =
      (p.edges.filter fun e => e.source = g.member i ∧ (e.kind = .fallthrough ∨ e.kind = .branch) ∧
        e.target ∈ f.blocks).map fun e => (e.target, decide (e.kind = .fallthrough ∧ g.callSites.get i = true)) := by
  have hcontains : p.contains (g.member i) = true :=
    (wellFormed_of_build h).members _ ((mem_blocks_iff h).mpr ⟨i, rfl⟩)
  rw [successors_of_build h, successorsOf, EdgeIndex.leaving_ofProgram, if_pos hcontains, List.filterMap_filter,
    List.map_filterMap, ← List.filterMap_eq_map, List.filterMap_filter, callSites_of_build h]
  refine List.filterMap_congr fun e _ => ?_
  have hway := map_way_eq h (isCallSite (.ofProgram p) (g.member i) && e.kind == .fallthrough) e.target
  by_cases hsource : e.source = g.member i
  · cases hkind : e.kind with
    | fallthrough => simpa [hsource, hkind, EdgeKind.isIntraprocedural, local?] using hway
    | branch =>
      have hbranch : (EdgeKind.branch == EdgeKind.fallthrough) = false := rfl
      simpa [hsource, hkind, hbranch, EdgeKind.isIntraprocedural, local?] using hway
    | call => simp [EdgeKind.isIntraprocedural]
    | ret => simp [EdgeKind.isIntraprocedural]
  · simp [hsource]

/-! ### The graph as a whole -/

theorem isScanOf_of_build (h : build p (.ofProgram p) f = .ok g) : g.IsScanOf p f where
  members := by rw [members_of_build h, distinct_eq_eraseDups]
  entry := member_entry_of_build h
  local_iff _ _ := local?_eq_some_iff h
  callSites i := by
    rw [callSites_of_build h, isCallSite_iff ((wellFormed_of_build h).members _ ((mem_blocks_iff h).mpr ⟨i, rfl⟩))]
    rfl
  successors := map_successors_eq h

theorem exists_fault_iff : (∃ fault, build p (.ofProgram p) f = .error fault) ↔ ¬ f.WellFormed p := by
  rw [← exists_build_iff]
  cases build p (.ofProgram p) f with
  | ok g => simp
  | error fault => simp

/-- A function is refused exactly if a member or the entry does not exist, the entry is no member, or an edge of
any kind connects a member with a block that does not exist; and the graph of any other is the scan of its edges. -/
theorem build_scans_edges (p : Program) (f : Function) :
    ((∃ fault, build p (.ofProgram p) f = .error fault) ↔
      (∃ b ∈ f.blocks, p.contains b = false) ∨ p.contains f.entry = false ∨ f.entry ∉ f.blocks ∨
        ∃ e ∈ p.edges, (e.target ∈ f.blocks ∧ p.contains e.source = false) ∨
          (e.source ∈ f.blocks ∧ p.contains e.target = false)) ∧
    ∀ g, build p (.ofProgram p) f = .ok g → g.IsScanOf p f := by
  refine ⟨?_, fun g h => isScanOf_of_build h⟩
  rw [exists_fault_iff]
  constructor
  · intro hill
    by_contra hnone
    simp only [not_or, not_exists, not_and, Bool.not_eq_false, not_not] at hnone
    obtain ⟨hmembers, -, hentry, hedges⟩ := hnone
    exact hill ⟨hmembers, hentry, fun e he => (hedges e he).1, fun e he => (hedges e he).2⟩
  · rintro (⟨b, hb, hmissing⟩ | hmissing | hforeign | ⟨e, he, ⟨htarget, hmissing⟩ | ⟨hsource, hmissing⟩⟩) hwell
    · simp [hwell.members b hb] at hmissing
    · simp [hwell.members _ hwell.entry] at hmissing
    · exact hforeign hwell.entry
    · simp [hwell.sources e he htarget] at hmissing
    · simp [hwell.targets e he hsource] at hmissing

/-- Blocks with edges in no order: the first of them is left by a call that is listed last, by two equal
fallthrough edges and a branch edge, and by a branch edge to a block of another function. -/
def scatteredEdges : Program where
  arch := .arm32
  blocks := #[⟨0x1000, []⟩, ⟨0x1004, []⟩, ⟨0x1008, []⟩, ⟨0x2000, []⟩]
  edges := [⟨⟨0⟩, ⟨1⟩, .fallthrough⟩, ⟨⟨0⟩, ⟨3⟩, .branch⟩, ⟨⟨8⟩, ⟨9⟩, .branch⟩, ⟨⟨0⟩, ⟨2⟩, .branch⟩,
    ⟨⟨0⟩, ⟨1⟩, .fallthrough⟩, ⟨⟨0⟩, ⟨3⟩, .call⟩]
  functions := []

/-- A function that lists one of its members twice. The edge between missing blocks touches none of them. -/
theorem scatteredEdges_scanned :
    ∃ g, build scatteredEdges (.ofProgram scatteredEdges) ⟨"f", ⟨0⟩, [⟨2⟩, ⟨0⟩, ⟨2⟩, ⟨1⟩], []⟩ = .ok g ∧
      g.members.toList = [⟨2⟩, ⟨0⟩, ⟨1⟩] ∧ g.callSites.get g.entry = true ∧
      ((g.successors.get g.entry).map fun way => (g.member way.target, way.afterCall)) =
        [(⟨1⟩, true), (⟨2⟩, false), (⟨1⟩, true)] := by
  obtain ⟨g, hg⟩ := exists_build_of_wellFormed
    (p := scatteredEdges) (f := ⟨"f", ⟨0⟩, [⟨2⟩, ⟨0⟩, ⟨2⟩, ⟨1⟩], []⟩)
    ⟨by decide, by decide, by decide, by decide⟩
  have hscan := (build_scans_edges _ _).2 g hg
  have hcall : g.callSites.get g.entry = true := by
    rw [hscan.callSites, hscan.entry]
    exact ⟨⟨⟨0⟩, ⟨3⟩, .call⟩, by decide, rfl, rfl⟩
  refine ⟨g, hg, hscan.members, hcall, ?_⟩
  rw [hscan.successors, hscan.entry, hcall]
  decide

end CallFacts.FlowGraph
