import CallFacts.Proofs.Overflow
import CallFacts.Proofs.VisitBound

/-!
# Other limits on visits

The limit on visits decides whether a run ends stable, not what its visits do. So with two limits that both suffice the
analysis of a function is the same, and a limit suffices if no block is visited more often in it. The limit is a product
of words: a larger multiplier gives a larger limit only as long as its own product fits a word. Beyond that a build goes
on with what is left of the product or stops.
-/

namespace CallFacts

namespace Dataflow

variable {n : Nat} {p : Dataflow n} {run final : Run n} {limit : Nat}

/-- The flow problem with another limit on visits. -/
def withLimit (p : Dataflow n) (limit : Nat) : Dataflow n := { p with limit }

/-! ### Visits and the limit -/

theorem visits_le_visit (p : Dataflow n) (run : Run n) (i : Fin n) (rest : List (Fin n)) (j : Fin n) :
    run.visits.get j ≤ (p.visit run i rest).visits.get j := by
  rw [visits_visit]
  by_cases hij : i = j
  · subst hij
    simp
  · simp [hij]

theorem visits_le_of_iterate_stable (h : p.iterate run = .stable final) (j : Fin n) :
    run.visits.get j ≤ final.visits.get j := by
  fun_induction iterate p run with
  | case1 run hqueue =>
    cases h
    exact Nat.le_refl _
  | case2 run i rest hqueue hlimit ih => exact Nat.le_trans (visits_le_visit p run i rest j) (ih h)
  | case3 run i rest hqueue hlimit => cases h

theorem Runs.visits_le_limit (h : p.Runs run) (j : Fin n) : run.visits.get j ≤ p.limit := by
  induction h with
  | begin => simp [Dataflow.begin]
  | @visit run i rest h hqueue hlimit ih =>
    rw [visits_visit]
    by_cases hij : i = j
    · subst hij
      simpa using hlimit
    · simpa [hij] using ih

/-! ### Two limits -/

/-- A limit that no node of a stable run exceeds allows for every visit of the run. -/
theorem iterate_withLimit (h : p.iterate run = .stable final) (hlimit : ∀ j, final.visits.get j ≤ limit) :
    (p.withLimit limit).iterate run = .stable final := by
  fun_induction iterate p run with
  | case1 run hqueue =>
    cases h
    rw [iterate, hqueue]
  | case2 run i rest hqueue hleft ih =>
    -- The visit that is due is one of those that the stable run has counted in the end.
    have hcounted := visits_le_of_iterate_stable h i
    rw [visits_visit, get_set_self] at hcounted
    have hallowed : run.visits.get i < limit := Nat.lt_of_lt_of_le hcounted (hlimit i)
    rw [iterate, hqueue]
    simp only [withLimit, hallowed, if_true]
    exact ih h
  | case3 run i rest hqueue hleft => cases h

theorem solve_withLimit_iff (h : p.solve = .stable final) :
    (p.withLimit limit).solve = .stable final ↔ ∀ j, final.visits.get j ≤ limit := by
  constructor
  · intro h'
    exact (runs_of_stable h').visits_le_limit
  · intro hlimit
    exact iterate_withLimit h hlimit

end Dataflow

/-- The configuration with another multiplier for the limit on visits. -/
def Config.withMultiplier (c : Config) (multiplier : Word) : Config := { c with visitMultiplier := multiplier }

/-- A product that does not wrap grows with the multiplier. -/
theorem Config.visitLimit_mono {c : Config} {m m' : Word} {tracked : RegisterSet} (hm : m ≤ m')
    (hfits : m'.toNat * (tracked.size + 1) < 2 ^ 64) :
    (c.withMultiplier m).visitLimit tracked ≤ (c.withMultiplier m').visitLimit tracked := by
  have hproduct : m.toNat * (tracked.size + 1) ≤ m'.toNat * (tracked.size + 1) := Nat.mul_le_mul_right _ hm
  rw [visitLimit_eq (c := c.withMultiplier m) (Nat.lt_of_le_of_lt hproduct hfits),
    visitLimit_eq (c := c.withMultiplier m') hfits]
  exact hproduct

namespace FunctionAnalysis

variable {overflow : Overflow} {p : Program} {ix : EdgeIndex} {c : Config} {f : Function} {a a' : FunctionAnalysis}
  {m m' : Word}

theorem problem_withMultiplier (p : Program) (c : Config) (f : Function) (g : FlowGraph) (m m' : Word) :
    problem p (c.withMultiplier m') f g =
      (problem p (c.withMultiplier m) f g).withLimit ((c.withMultiplier m').visitLimit (c.trackedFor p.arch)) := rfl

/-- No block is visited more often than the limit allows. -/
theorem visitsOf_le_visitLimit (h : analyze p ix c f = .ok a) (b : BlockId) :
    a.visitsOf b ≤ c.visitLimit (c.trackedFor p.arch) := by
  by_cases hb : a.graph.Reaches b
  · obtain ⟨i, rfl, -⟩ := hb
    rw [visitsOf_member h]
    exact (Dataflow.runs_of_stable (analyze_eq_ok h).2.1).visits_le_limit i
  · rw [visitsOf_eq_zero h hb]
    exact Nat.zero_le _

/-- An analysis with another multiplier whose run is stable as well differs in nothing. -/
theorem analyze_withMultiplier (h : analyze p ix (c.withMultiplier m) f = .ok a)
    (hsolve : (problem p (c.withMultiplier m') f a.graph).solve = .stable a.run) :
    analyze p ix (c.withMultiplier m') f = .ok a := by
  simp only [analyze, analyzeGraph_visitLimit] at h ⊢
  split at h
  · cases h
  · next g hbuild =>
    split at h
    · next run hrun =>
      cases h
      simp only [hsolve]
      rfl
    · cases h

theorem analyze_withMultiplier_iff (h : analyze p ix (c.withMultiplier m) f = .ok a) :
    analyze p ix (c.withMultiplier m') f = .ok a ↔
      ∀ b, a.visitsOf b ≤ (c.withMultiplier m').visitLimit (c.trackedFor p.arch) := by
  constructor
  · intro h'
    exact visitsOf_le_visitLimit h'
  · intro hlimit
    refine analyze_withMultiplier h ?_
    rw [problem_withMultiplier p c f a.graph m m', Dataflow.solve_withLimit_iff (analyze_eq_ok h).2.1]
    intro i
    rw [← visitsOf_member h]
    exact hlimit _

/-- Any two multipliers that both suffice lead to the same analysis. -/
theorem analyze_withMultiplier_unique (h : analyze p ix (c.withMultiplier m) f = .ok a)
    (h' : analyze p ix (c.withMultiplier m') f = .ok a') : a' = a := by
  have hspent := visitsOf_le_visitLimit h
  have hspent' := visitsOf_le_visitLimit h'
  rcases Nat.le_total ((c.withMultiplier m).visitLimit (c.trackedFor p.arch))
    ((c.withMultiplier m').visitLimit (c.trackedFor p.arch)) with hle | hle
  · have hraised : analyze p ix (c.withMultiplier m') f = .ok a :=
      (analyze_withMultiplier_iff h).mpr fun b => Nat.le_trans (hspent b) hle
    rw [h'] at hraised
    cases hraised
    rfl
  · have hlowered : analyze p ix (c.withMultiplier m) f = .ok a' :=
      (analyze_withMultiplier_iff h').mpr fun b => Nat.le_trans (hspent' b) hle
    rw [h] at hlowered
    cases hlowered
    rfl

/-- A function that has been analyzed has a flow graph, so that only its limit can stop a build. -/
theorem stops_withMultiplier_iff (h : analyze p ix (c.withMultiplier m) f = .ok a) :
    Stops overflow p ix (c.withMultiplier m') f ↔ (c.withMultiplier m').StopsAt overflow (c.trackedFor p.arch) := by
  have hgraph : ∃ g, FlowGraph.build p ix f = .ok g := ⟨a.graph, (analyze_eq_ok h).1⟩
  exact and_iff_right hgraph

/-- If a function is analyzed with one multiplier, then with a larger one it is analyzed in the same way or not at all.
A build that wraps analyzes it exactly if no block has had more visits than the larger product leaves after wrapping; a
build that stops does so exactly if the larger product fits a word, and else stops. If that product fits a word, every
build analyzes the function. -/
theorem analyzeIn_raised_iff (hm : m ≤ m') (h : analyzeIn overflow p ix (c.withMultiplier m) f = some (.ok a)) :
    let limit := m'.toNat * ((c.trackedFor p.arch).size + 1)
    (∀ build a', analyzeIn build p ix (c.withMultiplier m') f = some (.ok a') → a' = a) ∧
    (analyzeIn .wraps p ix (c.withMultiplier m') f = some (.ok a) ↔ ∀ b, a.visitsOf b ≤ limit % 2 ^ 64) ∧
    (analyzeIn .stops p ix (c.withMultiplier m') f = some (.ok a) ↔ limit < 2 ^ 64) ∧
    (analyzeIn .stops p ix (c.withMultiplier m') f = none ↔ 2 ^ 64 ≤ limit) ∧
    (limit < 2 ^ 64 → ∀ build, analyzeIn build p ix (c.withMultiplier m') f = some (.ok a)) := by
  intro limit
  obtain ⟨-, h⟩ := analyzeIn_eq_some_iff.mp h
  have hfits (hlimit : limit < 2 ^ 64) : analyze p ix (c.withMultiplier m') f = .ok a :=
    (analyze_withMultiplier_iff h).mpr fun b =>
      Nat.le_trans (visitsOf_le_visitLimit h b) (Config.visitLimit_mono hm hlimit)
  have hstops : Stops .stops p ix (c.withMultiplier m') f ↔ 2 ^ 64 ≤ limit :=
    (stops_withMultiplier_iff h).trans (and_iff_right rfl)
  have hwraps : ¬ Stops .wraps p ix (c.withMultiplier m') f := mt And.right Config.not_stopsAt_wraps
  refine ⟨?same, ?wraps, ?stops, ?none, ?fits⟩
  case same =>
    intro build a' h'
    exact analyze_withMultiplier_unique h (analyzeIn_eq_some_iff.mp h').2
  case wraps =>
    rw [analyzeIn_eq_some_iff, and_iff_right hwraps, analyze_withMultiplier_iff h, Config.visitLimit_eq_mod]
    rfl
  case stops =>
    rw [analyzeIn_eq_some_iff, hstops, Nat.not_le]
    exact and_iff_left_of_imp hfits
  case none => rw [analyzeIn_eq_none_iff, hstops]
  case fits =>
    intro hlimit build
    exact analyzeIn_eq_some_iff.mpr ⟨mt And.right (Config.not_stopsAt_of_lt hlimit), hfits hlimit⟩

/-- The counting loop is analyzed with a multiplier of three as with one of two. -/
theorem countingLoop_raised : (2 : Word) ≤ 3 ∧
    ∃ a, analyzeIn .stops countingLoop (.ofProgram countingLoop) (({} : Config).withMultiplier 2)
        countingLoopFunction = some (.ok a) ∧
      analyzeIn .stops countingLoop (.ofProgram countingLoop) (({} : Config).withMultiplier 3)
        countingLoopFunction = some (.ok a) := by
  obtain ⟨a, ha, -⟩ := exists_analyze_countingLoop
  have hle : (2 : Word) ≤ 3 := by decide
  have htwo : analyzeIn .stops countingLoop (.ofProgram countingLoop) (({} : Config).withMultiplier 2)
      countingLoopFunction = some (.ok a) :=
    analyzeIn_eq_some_iff.mpr ⟨mt And.right (Config.not_stopsAt_of_lt (by decide)), ha⟩
  exact ⟨hle, a, htwo, (analyzeIn_raised_iff hle htwo).2.2.1.mpr (by decide)⟩

/-- With five followed registers a multiplier of `2 ^ 63` loses the loop in every build: the limit wraps to zero, or the
build stops at it. -/
theorem countingLoop_lost_when_raised : ¬ ∃ overflow : Overflow, ∀ (p : Program) (ix : EdgeIndex) (c : Config)
    (f : Function) (m m' : Word) (a : FunctionAnalysis), m ≤ m' →
      analyzeIn overflow p ix (c.withMultiplier m) f = some (.ok a) →
        analyzeIn overflow p ix (c.withMultiplier m') f = some (.ok a) := by
  rintro ⟨overflow, hnever⟩
  obtain ⟨a, ha, hgraph⟩ := exists_analyze_countingLoop
  have hraised := hnever countingLoop _ {} countingLoopFunction 2 (BitVec.ofNat 64 (2 ^ 63)) a (by decide)
    (analyzeIn_eq_some_iff.mpr ⟨mt And.right (Config.not_stopsAt_of_lt (by decide)), ha⟩)
  -- The head of the loop has been visited, which a limit of zero does not allow.
  have hmost := visitsOf_le_visitLimit (analyzeIn_eq_some_iff.mp hraised).2 ⟨1⟩
  have hleast : 0 < a.visitsOf ⟨1⟩ := visitsOf_pos ha (hgraph ▸ countingLoopGraph_reaches_head)
  have hzero : (({} : Config).withMultiplier (BitVec.ofNat 64 (2 ^ 63))).visitLimit
      ((({} : Config).withMultiplier (BitVec.ofNat 64 (2 ^ 63))).trackedFor countingLoop.arch) = 0 := by
    decide
  omega

end FunctionAnalysis

end CallFacts
