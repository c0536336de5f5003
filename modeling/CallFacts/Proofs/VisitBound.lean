import CallFacts.Proofs.LeastStates

/-!
# How often blocks are visited

The visits of an analyzed function, counted by block. With a multiplier of at least two every function
with a flow graph can be analyzed, within the bound that the height of its states sets.
-/

namespace CallFacts

theorem Config.visitLimit_eq_mod (c : Config) (tracked : RegisterSet) :
    c.visitLimit tracked = c.visitMultiplier.toNat * (tracked.size + 1) % 2 ^ 64 := by
  have hsize : tracked.size ≤ 64 := by
    have hcount := List.countP_le_length (p := fun r => decide (r ∈ tracked)) (l := Register.all)
    rwa [Register.all, List.length_finRange] at hcount
  rw [visitLimit, BitVec.toNat_mul, BitVec.toNat_ofNat, Nat.mod_eq_of_lt (a := tracked.size + 1) (by omega)]

theorem Config.visitLimit_eq {c : Config} {tracked : RegisterSet}
    (hfits : c.visitMultiplier.toNat * (tracked.size + 1) < 2 ^ 64) :
    c.visitLimit tracked = c.visitMultiplier.toNat * (tracked.size + 1) := by
  rw [visitLimit_eq_mod, Nat.mod_eq_of_lt hfits]

/-- The multiplier allows for every rise of the followed registers, and the limit does not wrap. -/
structure Config.LeavesRoom (c : Config) (arch : Arch) : Prop where
  multiplier : 2 ≤ c.visitMultiplier.toNat
  fits : c.visitMultiplier.toNat * ((c.trackedFor arch).size + 1) < 2 ^ 64

theorem Config.LeavesRoom.lt_visitLimit {c : Config} {arch : Arch} (h : c.LeavesRoom arch) :
    2 * (c.trackedFor arch).size < c.visitLimit (c.trackedFor arch) := by
  rw [visitLimit_eq h.fits]
  have htwice := Nat.mul_le_mul_right ((c.trackedFor arch).size + 1) h.multiplier
  omega

namespace FunctionAnalysis

variable {p : Program} {ix : EdgeIndex} {c : Config} {f : Function} {g : FlowGraph} {a : FunctionAnalysis}

/-- How often a block has been visited. -/
def visitsOf (a : FunctionAnalysis) (b : BlockId) : Nat := (a.history.map Prod.fst).count b

/-! ### Counting visits of blocks -/

theorem history_blocks (a : FunctionAnalysis) :
    a.history.map Prod.fst = (a.run.trail.map Prod.fst).reverse.map fun i => a.graph.member i := by
  simp [history, historyOf]

theorem visitsOf_member (h : analyze p ix c f = .ok a) (i : Fin a.graph.members.size) :
    a.visitsOf (a.graph.member i) = a.run.visits.get i := by
  obtain ⟨hbuild, hstable, -⟩ := analyze_eq_ok h
  have hinjective : Function.Injective fun i : Fin a.graph.members.size => a.graph.member i :=
    fun _ _ hij => FlowGraph.members_injective hbuild hij
  rw [visitsOf, history_blocks, (Dataflow.runs_of_stable hstable).visits_eq_count]
  exact (List.count_map_of_injective _ _ hinjective i).trans List.count_reverse

theorem visitsOf_eq_zero (h : analyze p ix c f = .ok a) {b : BlockId} (hb : ¬ a.graph.Reaches b) :
    a.visitsOf b = 0 := by
  obtain ⟨hbuild, hstable, -⟩ := analyze_eq_ok h
  rw [visitsOf, List.count_eq_zero, history_blocks]
  intro hmem
  obtain ⟨i, hi, rfl⟩ := List.mem_map.mp hmem
  have hcount : 0 < a.run.visits.get i := by
    rw [(Dataflow.runs_of_stable hstable).visits_eq_count]
    exact List.count_pos_iff.mpr (List.mem_reverse.mp hi)
  have hentry : a.run.entries.get i = none := by
    rw [← entryState?_member hbuild, ← Option.not_isSome_iff_eq_none, isSome_entryState?_iff h]
    exact hb
  have hzero := (Dataflow.runs_of_stable hstable).visits_eq_zero hentry
  omega

theorem visitsOf_pos (h : analyze p ix c f = .ok a) {b : BlockId} (hb : a.graph.Reaches b) :
    0 < a.visitsOf b := by
  obtain ⟨hbuild, hstable, -⟩ := analyze_eq_ok h
  have hexit : (a.exitState? b).isSome := by
    rw [exitState?_eq_map h, Option.isSome_map]
    exact (isSome_entryState?_iff h b).mpr hb
  obtain ⟨i, rfl, -⟩ := hb
  rw [visitsOf_member h]
  refine (Dataflow.runs_of_stable hstable).visits_pos_of_exit ?_
  rwa [exitState?_member hbuild, ← Option.ne_none_iff_isSome] at hexit

theorem visitsOf_le (h : analyze p ix c f = .ok a) (b : BlockId) :
    a.visitsOf b ≤ 2 * (c.trackedFor p.arch).size + 1 := by
  by_cases hb : a.graph.Reaches b
  · obtain ⟨i, rfl, -⟩ := hb
    rw [visitsOf_member h]
    have hruns := Dataflow.runs_of_stable (analyze_eq_ok h).2.1
    simpa [problem] using hruns.visits_le (regular_problem p c f a.graph) i
  · rw [visitsOf_eq_zero h hb]
    exact Nat.zero_le _

theorem mem_history_iff (h : analyze p ix c f = .ok a) {b : BlockId} :
    b ∈ (a.history.map Prod.fst).toFinset ↔ a.graph.Reaches b := by
  rw [List.mem_toFinset, ← List.count_pos_iff]
  constructor
  · intro hb
    by_contra hreached
    have hzero := visitsOf_eq_zero h hreached
    unfold visitsOf at hzero
    omega
  · exact visitsOf_pos h

theorem ncard_reached (h : analyze p ix c f = .ok a) :
    {b | a.graph.Reaches b}.ncard = (a.history.map Prod.fst).toFinset.card := by
  have hset : {b | a.graph.Reaches b} = ((a.history.map Prod.fst).toFinset : Set BlockId) :=
    Set.ext fun b => (mem_history_iff h).symm
  rw [hset, Set.ncard_coe_finset]

theorem visits_eq_sum (a : FunctionAnalysis) :
    ∑ b ∈ (a.history.map Prod.fst).toFinset, a.visitsOf b = a.visits := by
  have hlength : (a.history.map Prod.fst).length = a.visits := by
    simp [history_blocks, visits]
  rw [← hlength]
  exact List.sum_toFinset_count_eq_length _

/-! ### The bound -/

/-- A function that cannot be analyzed is malformed, if the limit leaves room for the bound. -/
theorem fault_of_analyze_error {e : Failure}
    (hlimit : 2 * (c.trackedFor p.arch).size < c.visitLimit (c.trackedFor p.arch))
    (h : analyze p ix c f = .error e) :
    ∃ fault, FlowGraph.build p ix f = .error fault ∧ e.error = .malformed f.name fault := by
  simp only [analyze, analyzeGraph_visitLimit] at h
  split at h
  · next fault hbuild => cases h; exact ⟨fault, hbuild, rfl⟩
  · next g hbuild =>
    obtain ⟨run, hrun⟩ := Dataflow.solve_eq_stable (regular_problem p c f g) (by simpa [problem] using hlimit)
    simp only [hrun] at h
    cases h

/-- With a multiplier of at least two that does not wrap, only malformed functions fail; in all
others the queue empties after each reached block has been visited, at most once more than its
registers can rise, and no other block has. -/
theorem analyze_visits_bounded (hmultiplier : 2 ≤ c.visitMultiplier.toNat)
    (hfits : c.visitMultiplier.toNat * ((c.trackedFor p.arch).size + 1) < 2 ^ 64) :
    (∀ e, analyze p ix c f = .error e →
      ∃ fault, FlowGraph.build p ix f = .error fault ∧ e.error = .malformed f.name fault) ∧
    ∀ a, analyze p ix c f = .ok a →
      a.run.queue = [] ∧
      (∀ b, a.graph.Reaches b → 1 ≤ a.visitsOf b ∧ a.visitsOf b ≤ 2 * (c.trackedFor p.arch).size + 1) ∧
      (∀ b, ¬ a.graph.Reaches b → a.visitsOf b = 0) ∧
      {b | a.graph.Reaches b}.ncard ≤ a.visits ∧
      a.visits - {b | a.graph.Reaches b}.ncard ≤
        2 * (c.trackedFor p.arch).size * {b | a.graph.Reaches b}.ncard := by
  constructor
  · intro e he
    refine fault_of_analyze_error ?_ he
    rw [Config.visitLimit_eq hfits]
    have htwice := Nat.mul_le_mul_right ((c.trackedFor p.arch).size + 1) hmultiplier
    omega
  · intro a h
    have hqueue := Dataflow.queue_of_iterate_stable (analyze_eq_ok h).2.1
    refine ⟨hqueue, fun b hb => ⟨visitsOf_pos h hb, visitsOf_le h b⟩, fun b => visitsOf_eq_zero h, ?_⟩
    rw [ncard_reached h]
    have hleast : (a.history.map Prod.fst).toFinset.card * 1 ≤ a.visits := by
      rw [← visits_eq_sum a]
      exact Finset.card_nsmul_le_sum _ _ 1 fun b hb => visitsOf_pos h ((mem_history_iff h).mp hb)
    have hmost :
        a.visits ≤ (a.history.map Prod.fst).toFinset.card * (2 * (c.trackedFor p.arch).size + 1) := by
      rw [← visits_eq_sum a]
      exact Finset.sum_le_card_nsmul _ _ _ fun b _ => visitsOf_le h b
    rw [Nat.mul_add, Nat.mul_one] at hmost
    rw [Nat.mul_comm (2 * _)]
    omega

/-- With five followed registers the head of the loop is visited at most eleven times. -/
theorem countingLoop_head_visits :
    ∃ a, analyze countingLoop (.ofProgram countingLoop) {} countingLoopFunction = .ok a ∧
      a.run.queue = [] ∧ 1 ≤ a.visitsOf ⟨1⟩ ∧ a.visitsOf ⟨1⟩ ≤ 11 := by
  obtain ⟨a, ha, hgraph⟩ := exists_analyze_countingLoop
  obtain ⟨hqueue, hvisited, -⟩ := (analyze_visits_bounded (c := {}) (by decide) (by decide)).2 a ha
  exact ⟨a, ha, hqueue, hvisited ⟨1⟩ (hgraph ▸ countingLoopGraph_reaches_head)⟩

end FunctionAnalysis

end CallFacts
