import CallFacts.Report
import CallFacts.Proofs.Traversals
import Mathlib.Algebra.Group.Nat.Defs

/-!
# Builds that stop at an overflow

The limit on visits is a product of words that a configuration can make too large for a word. A build that stops there
stops at the first function with a flow graph. Where it does not stop, a build gives what the build gives in which the
product wraps, so all that is known of that one holds of every result of any build.
-/

namespace CallFacts

variable {overflow : Overflow} {p : Program} {ix : EdgeIndex} {c : Config} {tracked : RegisterSet} {f : Function}

/-! ### The limit -/

/-- The build stops at the limit on visits. -/
def Config.StopsAt (overflow : Overflow) (c : Config) (tracked : RegisterSet) : Prop :=
  overflow = .stops ∧ 2 ^ 64 ≤ c.visitMultiplier.toNat * (tracked.size + 1)

namespace Config

theorem visitLimit?_of_stopsAt (h : c.StopsAt overflow tracked) : c.visitLimit? overflow tracked = none := by
  obtain ⟨rfl, hoverflows⟩ := h
  exact if_pos (decide_eq_true hoverflows)

theorem visitLimit?_of_not_stopsAt (h : ¬ c.StopsAt overflow tracked) :
    c.visitLimit? overflow tracked = some (c.visitLimit tracked) := by
  cases overflow with
  | wraps => rfl
  | stops => exact if_neg fun hoverflows => h ⟨rfl, of_decide_eq_true hoverflows⟩

theorem not_stopsAt_wraps : ¬ c.StopsAt .wraps tracked := by
  rintro ⟨hstops, -⟩
  cases hstops

theorem not_stopsAt_of_lt (h : c.visitMultiplier.toNat * (tracked.size + 1) < 2 ^ 64) :
    ¬ c.StopsAt overflow tracked := fun hstops => Nat.not_lt.mpr hstops.2 h

end Config

/-! ### A function -/

namespace FunctionAnalysis

variable {result : Except Failure FunctionAnalysis}

/-- The build stops at the function: it gets as far as the limit on visits. -/
def Stops (overflow : Overflow) (p : Program) (ix : EdgeIndex) (c : Config) (f : Function) : Prop :=
  (∃ g, FlowGraph.build p ix f = .ok g) ∧ c.StopsAt overflow (c.trackedFor p.arch)

theorem analyzeIn_of_stops (h : Stops overflow p ix c f) : analyzeIn overflow p ix c f = none := by
  obtain ⟨⟨g, hbuild⟩, hstops⟩ := h
  simp only [analyzeIn, hbuild, Config.visitLimit?_of_stopsAt hstops, Option.map_none]

theorem analyzeIn_of_not_stops (h : ¬ Stops overflow p ix c f) :
    analyzeIn overflow p ix c f = some (analyze p ix c f) := by
  cases hbuild : FlowGraph.build p ix f with
  | error fault => simp only [analyzeIn, analyze, hbuild]
  | ok g =>
    have hlimit := Config.visitLimit?_of_not_stopsAt fun hstops => h ⟨⟨g, hbuild⟩, hstops⟩
    simp only [analyzeIn, analyze, hbuild, hlimit, Option.map_some]

theorem analyzeIn_eq_none_iff : analyzeIn overflow p ix c f = none ↔ Stops overflow p ix c f := by
  by_cases h : Stops overflow p ix c f
  · simp [analyzeIn_of_stops h, h]
  · simp [analyzeIn_of_not_stops h, h]

/-- A result in any build is the one of the build that wraps. -/
theorem analyzeIn_eq_some_iff :
    analyzeIn overflow p ix c f = some result ↔ ¬ Stops overflow p ix c f ∧ analyze p ix c f = result := by
  by_cases h : Stops overflow p ix c f
  · simp [analyzeIn_of_stops h, h]
  · simp [analyzeIn_of_not_stops h, h]

end FunctionAnalysis

/-! ### A program -/

namespace Program

variable {report : Report}

/-- The build stops at one of the functions. -/
def Stops (overflow : Overflow) (p : Program) (c : Config) : Prop :=
  ∃ f ∈ p.functions, FunctionAnalysis.Stops overflow p (.ofProgram p) c f

theorem analyzeIn_of_stops (h : p.Stops overflow c) : p.analyzeIn overflow c = none := by
  obtain ⟨f, hf, hstops⟩ := h
  rw [analyzeIn, mapOrdered_eq_map, Option.map_eq_none_iff, Option.eq_none_iff_forall_ne_some]
  intro results hresults
  -- A list of all results would have one for the function at which the build stops.
  have hmem : FunctionAnalysis.analyzeIn overflow p (.ofProgram p) c f ∈
      p.functions.map (FunctionAnalysis.analyzeIn overflow p (.ofProgram p) c) := List.mem_map_of_mem hf
  obtain ⟨result, hresult⟩ := exists_mapM_iff.mp ⟨results, hresults⟩ _ hmem
  rw [FunctionAnalysis.analyzeIn_of_stops hstops] at hresult
  cases hresult

theorem analyzeIn_of_not_stops (h : ¬ p.Stops overflow c) : p.analyzeIn overflow c = some (p.analyze c) := by
  have hresults : (p.functions.map (FunctionAnalysis.analyzeIn overflow p (.ofProgram p) c)).mapM id =
      some (p.functions.map (FunctionAnalysis.analyze p (.ofProgram p) c)) := by
    rw [mapM_eq_some_iff_forall₂, List.forall₂_map_left_iff, List.forall₂_map_right_iff, List.forall₂_same]
    exact fun f hf => FunctionAnalysis.analyzeIn_of_not_stops fun hstops => h ⟨f, hf, hstops⟩
  simp only [analyzeIn, analyze, mapOrdered_eq_map, hresults, Option.map_some]

theorem analyzeIn_eq_none_iff : p.analyzeIn overflow c = none ↔ p.Stops overflow c := by
  by_cases h : p.Stops overflow c
  · simp [analyzeIn_of_stops h, h]
  · simp [analyzeIn_of_not_stops h, h]

/-- A report in any build is the one of the build that wraps. -/
theorem analyzeIn_eq_some_iff : p.analyzeIn overflow c = some report ↔ ¬ p.Stops overflow c ∧ p.analyze c = report := by
  by_cases h : p.Stops overflow c
  · simp [analyzeIn_of_stops h, h]
  · simp [analyzeIn_of_not_stops h, h]

end Program

end CallFacts
