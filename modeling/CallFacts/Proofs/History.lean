import CallFacts.Proofs.VisitBound

/-!
# The history of an analysis

The visits that an analysis reports, in order and each with the entry state of its block. A node is visited again only
after its entry state has risen, so the states reported for one block rise from visit to visit, whether the run
ends stable or at its limit. The history starts with the entry of the function, and that of a stable run ends, for
every block that is reached, with the state the analysis keeps.
-/

namespace CallFacts

namespace Frontier

variable {n : Nat} {fr : Frontier n} {trail : List (Fin n × State)} {i : Fin n}

/-- Each of the visits had an entry state below the one that its node has now, and another one if the node waits. -/
def Outgrows (fr : Frontier n) (trail : List (Fin n × State)) : Prop :=
  ∀ i s, (i, s) ∈ trail → ∃ t, fr.entries.get i = some t ∧ s.Below t ∧ (i ∈ fr.queue → s ≠ t)

theorem Outgrows.set (h : fr.Outgrows trail) {new : State}
    (hnew : ∀ old, fr.entries.get i = some old → old.Below new ∧ old ≠ new) :
    Outgrows ⟨enqueue fr.queue i, fr.entries.set i (some new) i.isLt⟩ trail := by
  intro j s hs
  obtain ⟨t, ht, hbelow, hrisen⟩ := h j s hs
  by_cases hij : i = j
  · subst hij
    obtain ⟨hold, hne⟩ := hnew t ht
    refine ⟨new, by simp, hbelow.trans hold, fun _ heq => ?_⟩
    -- A visit with the new state would put the new state below the old one.
    exact hne (hold.antisymm (heq ▸ hbelow))
  · refine ⟨t, by simpa [hij] using ht, hbelow, fun hj => hrisen ?_⟩
    exact (mem_enqueue.mp hj).resolve_right (Ne.symm hij)

theorem Outgrows.arrive (h : fr.Outgrows trail) (i : Fin n) (s : State) : (fr.arrive i s).Outgrows trail := by
  have harrival := arrival fr i s
  generalize fr.arrive i s = after at harrival ⊢
  cases harrival with
  | absorbed => exact h
  | first hnone => exact h.set fun old hold => by simp [hnone] at hold
  | risen old hold hne =>
    refine h.set fun old' hold' => ?_
    cases hold.symm.trans hold'
    exact ⟨State.below_join_left old s, hne.symm⟩

end Frontier

namespace Dataflow

variable {n : Nat} {p : Dataflow n} {run : Run n} {i : Fin n}

/-! ### The trail of a run -/

theorem Runs.outgrows (h : p.Runs run) : run.Outgrows run.trail := by
  induction h using Runs.ready_induct with
  | begin => simp [Frontier.Outgrows, Dataflow.begin]
  | @visit run i rest s hrun hqueue _ hs ih =>
    have hnodup := List.nodup_cons.mp (hqueue ▸ hrun.paid.nodup)
    rw [visit_frontier hs, visit_trail hs]
    refine send_keeps (Q := fun fr => fr.Outgrows ((i, s) :: run.trail)) ?_ ?_
    · intro fr hfr way _
      exact hfr.arrive way.target _
    · intro j t ht
      rcases List.mem_cons.mp ht with heq | ht
      · cases heq
        exact ⟨s, hs, .refl s, fun hwaits => absurd hwaits hnodup.1⟩
      · obtain ⟨u, hu, hbelow, hrisen⟩ := ih j t ht
        exact ⟨u, hu, hbelow, fun hwaits => hrisen (by simp [hqueue, show j ∈ rest from hwaits])⟩

/-- Of two visits of a node, the later one has a larger entry state. -/
theorem Runs.trail_rises (h : p.Runs run) :
    run.trail.Pairwise fun later earlier => earlier.1 = later.1 → earlier.2.Below later.2 ∧ earlier.2 ≠ later.2 := by
  induction h using Runs.ready_induct with
  | begin => exact .nil
  | @visit run i rest s hrun hqueue _ hs ih =>
    rw [visit_trail hs]
    refine List.pairwise_cons.mpr ⟨?_, ih⟩
    rintro ⟨j, t⟩ ht rfl
    obtain ⟨u, hu, hbelow, hrisen⟩ := hrun.outgrows j t ht
    cases hs.symm.trans hu
    exact ⟨hbelow, hrisen (by simp [hqueue])⟩

/-- The last visit of a node that does not wait had the entry state of the node. -/
theorem Runs.lookup_trail (h : p.Runs run) (hi : i ∉ run.queue) : run.trail.lookup i = run.entries.get i := by
  induction h using Runs.ready_induct with
  | begin =>
    rw [entries_begin, if_neg fun heq => hi (by simp [Dataflow.begin, heq])]
    rfl
  | @visit run j rest s _ hqueue _ hs ih =>
    have hgrows := grows_visit (p := p) hs rest
    rw [visit_trail hs, hgrows.changed i hi]
    by_cases hij : i = j
    · subst hij
      rw [List.lookup_cons_self, hs]
    · rw [List.lookup_cons, beq_false_of_ne hij]
      refine ih fun hwaits => ?_
      rw [hqueue] at hwaits
      exact hi (hgrows.queue i ((List.mem_cons.mp hwaits).resolve_left hij))

/-- Before the first visit a run has just begun, and the first visit is that of the start with the initial state. -/
theorem Runs.begins (h : p.Runs run) :
    run = p.begin ∨ run.trail.getLast? = some (p.start, p.initial) := by
  induction h using Runs.ready_induct with
  | begin => exact .inl rfl
  | @visit run i rest s _ hqueue _ hs ih =>
    right
    rw [visit_trail hs]
    rcases ih with rfl | hfirst
    · cases hqueue
      rw [entries_begin, if_pos rfl] at hs
      cases hs
      rfl
    · rw [List.getLast?_cons, hfirst]
      rfl

/-- A limit of zero allows for no visit. -/
theorem Runs.eq_begin (h : p.Runs run) (hlimit : p.limit = 0) : run = p.begin := by
  cases h with
  | begin => rfl
  | visit _ _ hleft => simp [hlimit] at hleft

theorem solve_run_ne_begin (hlimit : p.limit ≠ 0) : p.solve.run ≠ p.begin := by
  intro hbegin
  cases hsolve : p.solve with
  | stable run =>
    have hrun : run = p.begin := by rwa [hsolve] at hbegin
    have hqueue := queue_of_iterate_stable hsolve
    simp [hrun, Dataflow.begin] at hqueue
  | exhausted run i =>
    have hrun : run = p.begin := by rwa [hsolve] at hbegin
    have hspent := (limit_of_iterate_exhausted hsolve).2
    exact hlimit (by simpa [hrun, Dataflow.begin] using hspent)

theorem trail_solve_eq_nil_iff (p : Dataflow n) : p.solve.run.trail = [] ↔ p.limit = 0 := by
  constructor
  · intro hnil
    by_contra hlimit
    have hfirst := p.runs_of_solve.begins.resolve_left (solve_run_ne_begin hlimit)
    simp [hnil] at hfirst
  · intro hlimit
    rw [p.runs_of_solve.eq_begin hlimit]
    rfl

end Dataflow

namespace FunctionAnalysis

variable {p : Program} {ix : EdgeIndex} {c : Config} {f : Function} {g : FlowGraph} {a : FunctionAnalysis}

/-- The visits that an analysis reports, of a function that is analyzed as of one that is not. -/
def reported : Except Failure FunctionAnalysis → List (BlockId × State)
  | .ok a => a.history
  | .error e => e.history

theorem reported_analyze (hbuild : FlowGraph.build p ix f = .ok g) :
    reported (analyze p ix c f) = historyOf g (problem p c f g).solve.run := by
  simp only [analyze, analyzeGraph_visitLimit, hbuild]
  cases (problem p c f g).solve <;> rfl

/-! ### The first visit -/

theorem historyOf_eq_nil_iff {run : Run g.members.size} : historyOf g run = [] ↔ run.trail = [] := by
  simp [historyOf]

theorem head?_historyOf (g : FlowGraph) (run : Run g.members.size) :
    (historyOf g run).head? = run.trail.getLast?.map fun (i, s) => (g.member i, s) := by
  rw [historyOf, List.head?_map, List.head?_reverse]

theorem head?_reported (hbuild : FlowGraph.build p ix f = .ok g) {v : BlockId × State}
    (hv : (reported (analyze p ix c f)).head? = some v) :
    v = (f.entry, initialState p.arch (c.trackedFor p.arch) f) := by
  rw [reported_analyze hbuild, head?_historyOf] at hv
  rcases (problem p c f g).runs_of_solve.begins with hbegin | hfirst
  · simp [hbegin, Dataflow.begin] at hv
  · rw [hfirst] at hv
    cases hv
    rw [← FlowGraph.member_entry_of_build hbuild]
    rfl

theorem reported_eq_nil_iff (hbuild : FlowGraph.build p ix f = .ok g) :
    reported (analyze p ix c f) = [] ↔ c.visitLimit (c.trackedFor p.arch) = 0 := by
  rw [reported_analyze hbuild, historyOf_eq_nil_iff, Dataflow.trail_solve_eq_nil_iff]
  rfl

/-! ### Visits of one block -/

theorem reported_rises (hbuild : FlowGraph.build p ix f = .ok g) :
    (reported (analyze p ix c f)).Pairwise fun v w => v.1 = w.1 → v.2 ≤ w.2 ∧ v.2 ≠ w.2 := by
  rw [reported_analyze hbuild, historyOf, List.pairwise_map, List.pairwise_reverse]
  refine (problem p c f g).runs_of_solve.trail_rises.imp fun hrises heq => ?_
  obtain ⟨hbelow, hne⟩ := hrises (FlowGraph.members_injective hbuild heq)
  exact ⟨hbelow.le, hne⟩

/-! ### The last visit -/

theorem lookup_map_member (hbuild : FlowGraph.build p ix f = .ok g) (trail : List (Fin g.members.size × State))
    (i : Fin g.members.size) :
    (trail.map fun (j, s) => (g.member j, s)).lookup (g.member i) = trail.lookup i := by
  induction trail with
  | nil => rfl
  | cons v trail ih =>
    obtain ⟨j, s⟩ := v
    have hmember : (g.member i == g.member j) = (i == j) := by
      rw [Bool.eq_iff_iff, beq_iff_eq, beq_iff_eq]
      exact ⟨fun heq => FlowGraph.members_injective hbuild heq, congrArg _⟩
    rw [List.map_cons, List.lookup_cons, List.lookup_cons, hmember, ih]

/-- The last visit of a block had the entry state that the analysis keeps for it. -/
theorem lookup_history (h : analyze p ix c f = .ok a) (b : BlockId) :
    a.history.reverse.lookup b = a.entryState? b := by
  obtain ⟨hbuild, hstable, -⟩ := analyze_eq_ok h
  rw [history, historyOf, ← List.map_reverse, List.reverse_reverse]
  by_cases hb : ∃ i, a.graph.member i = b
  · obtain ⟨i, rfl⟩ := hb
    rw [lookup_map_member hbuild, entryState?_member hbuild]
    refine (Dataflow.runs_of_stable hstable).lookup_trail ?_
    simp [Dataflow.queue_of_iterate_stable hstable]
  · -- A block that is no member has no state and is never visited.
    have hforeign (i : Fin a.graph.members.size) : a.graph.member i ≠ b := fun hi => hb ⟨i, hi⟩
    rw [entryState?, FlowGraph.local?_eq_none hbuild hforeign, Option.bind_none, List.lookup_eq_none_iff]
    intro v hv
    obtain ⟨w, -, rfl⟩ := List.mem_map.mp hv
    exact bne_iff_ne.mpr (hforeign w.1).symm

/-! ### The history as a whole -/

/-- The visits of a function with a flow graph start at its entry with the initial state, unless the limit allows
for none, and the states of each block strictly rise. If the function is analyzed, the blocks visited are those that
paths lead to, and the last state of each is its entry state. -/
theorem history_rises (hbuild : FlowGraph.build p ix f = .ok g) :
    (∀ v, (reported (analyze p ix c f)).head? = some v →
      v = (f.entry, initialState p.arch (c.trackedFor p.arch) f)) ∧
    (reported (analyze p ix c f) = [] ↔ c.visitLimit (c.trackedFor p.arch) = 0) ∧
    ((reported (analyze p ix c f)).Pairwise fun v w => v.1 = w.1 → v.2 ≤ w.2 ∧ v.2 ≠ w.2) ∧
    ∀ a, analyze p ix c f = .ok a →
      (∀ b, b ∈ a.history.map Prod.fst ↔ a.graph.Reaches b) ∧
      ∀ b, a.history.reverse.lookup b = a.entryState? b := by
  refine ⟨fun v => head?_reported hbuild, reported_eq_nil_iff hbuild, reported_rises hbuild, fun a h => ⟨?_, ?_⟩⟩
  · intro b
    rw [← mem_history_iff h, List.mem_toFinset]
  · exact lookup_history h

/-- The counting loop starts with its first block, comes to its head at least once and leaves it with its last
state; if no visit is allowed, none is reported. -/
theorem countingLoop_history :
    (∃ a, analyze countingLoop (.ofProgram countingLoop) {} countingLoopFunction = .ok a ∧
      a.history.head? =
        some (⟨0⟩, initialState .arm32 (({} : Config).trackedFor .arm32) countingLoopFunction) ∧
      ⟨1⟩ ∈ a.history.map Prod.fst ∧ a.history.reverse.lookup ⟨1⟩ = a.entryState? ⟨1⟩) ∧
    reported (analyze countingLoop (.ofProgram countingLoop) { visitMultiplier := 0 } countingLoopFunction) = [] := by
  constructor
  · obtain ⟨a, ha, hgraph⟩ := exists_analyze_countingLoop
    obtain ⟨hfirst, hempty, -, hanalyzed⟩ := history_rises (c := {}) build_countingLoop
    obtain ⟨hvisited, hlast⟩ := hanalyzed a ha
    refine ⟨a, ha, ?_, (hvisited ⟨1⟩).mpr (hgraph ▸ countingLoopGraph_reaches_head), hlast ⟨1⟩⟩
    rw [ha] at hfirst hempty
    cases hhead : a.history.head? with
    | none => exact absurd (hempty.mp (List.head?_eq_none_iff.mp hhead)) (by decide)
    | some v => exact congrArg some (hfirst v hhead)
  · exact (history_rises build_countingLoop).2.1.mpr (by decide)

end FunctionAnalysis

end CallFacts
