import CallFacts.Proofs.Findings

/-!
# Functions that cannot be analyzed

A function that cannot be analyzed leaves one error in the report and nothing else: no fact, no conflict
and no diagnostic of another function depends on it, so a program without such functions has the same
report but for the errors. The diagnostics of a report are those of its functions in turn, then the
conflicts, whether the functions are analyzed one after the other or all at the same time.
-/

namespace CallFacts

/-- The function could not be analyzed. -/
def Finding.isFailure : Finding → Bool
  | failed _ => true
  | _ => false

/-- Different exact values met at one address. -/
def Finding.isConflict : Finding → Bool
  | aliasConflict _ _ _ => true
  | _ => false

theorem Diagnostic.severity_eq_error_iff (d : Diagnostic) : d.severity = .error ↔ d.finding.isFailure = true := by
  obtain ⟨name, finding⟩ := d
  cases finding <;> simp [severity, Finding.severity, Finding.isFailure]

namespace FunctionAnalysis

variable {p : Program} {ix : EdgeIndex} {c : Config} {f : Function} {a : FunctionAnalysis} {d : Diagnostic}

/-- A function that was analyzed only warns, of itself. -/
theorem warning_of_mem_diagnostics (h : analyze p ix c f = .ok a) (hd : d ∈ a.diagnostics) :
    d.function = f.name ∧ d.finding.isFailure = false ∧ d.finding.isConflict = false := by
  refine ⟨?_, ?_⟩
  · rw [diagnostics_of_analyze h, List.mem_map] at hd
    obtain ⟨finding, -, rfl⟩ := hd
    rfl
  · rcases finding_of_mem_diagnostics h hd with ⟨_, _, hfinding⟩ | ⟨_, _, hfinding⟩ <;> rw [hfinding] <;>
      exact ⟨rfl, rfl⟩

end FunctionAnalysis

theorem isConflict_of_mem_conflicts {arch : Arch} {os : List (String × Observation)} {d : Diagnostic}
    (h : d ∈ (extractFacts arch os).2) : d.finding.isConflict = true ∧ d.finding.isFailure = false := by
  obtain ⟨_, _, _, hfinding⟩ := finding_of_mem_conflicts h
  rw [hfinding]
  exact ⟨rfl, rfl⟩

/-! ### Reports on results -/

namespace Report

variable {results : List (Except FunctionAnalysis.Failure FunctionAnalysis)}

theorem filterMap_toOption_filter_isOk (results : List (Except FunctionAnalysis.Failure FunctionAnalysis)) :
    (results.filter Except.isOk).filterMap Except.toOption = results.filterMap Except.toOption := by
  rw [List.filterMap_filter]
  congr 1
  funext result
  cases result <;> rfl

section

variable (h : ∀ a, .ok a ∈ results → ∀ d ∈ a.diagnostics, d.finding.isFailure = false)

include h

/-- Without the failures, the diagnostics of results are those of the results that are none. -/
theorem filter_flatMap_diagnosticsOf : (results.flatMap diagnosticsOf).filter (fun d => !d.finding.isFailure) =
    (results.filter Except.isOk).flatMap diagnosticsOf := by
  induction results with
  | nil => rfl
  | cons result results ih =>
    have hrest := ih fun a ha => h a (List.mem_cons_of_mem _ ha)
    rw [List.flatMap_cons, List.filter_append, hrest]
    cases result with
    | ok a =>
      have hkept : a.diagnostics.filter (fun d => !d.finding.isFailure) = a.diagnostics := by
        rw [List.filter_eq_self]
        intro d hd
        rw [h a List.mem_cons_self d hd]
        rfl
      rw [diagnosticsOf, hkept]
      rfl
    | error failure => rfl

/-- Every result that is a failure gives one error. -/
theorem countP_isFailure_add : (results.flatMap diagnosticsOf).countP (fun d => d.finding.isFailure) +
    (results.filterMap Except.toOption).length = results.length := by
  induction results with
  | nil => rfl
  | cons result results ih =>
    have hrest := ih fun a ha => h a (List.mem_cons_of_mem _ ha)
    rw [List.flatMap_cons, List.countP_append, List.length_cons, ← hrest]
    cases result with
    | ok a =>
      have hnone : a.diagnostics.countP (fun d => d.finding.isFailure) = 0 := by
        rw [List.countP_eq_zero]
        intro d hd
        rw [h a List.mem_cons_self d hd]
        exact Bool.false_ne_true
      have hone : ((.ok a :: results).filterMap Except.toOption).length =
        (results.filterMap Except.toOption).length + 1 := rfl
      rw [diagnosticsOf, hnone, hone]
      omega
    | error failure =>
      have hone : (diagnosticsOf (.error failure)).countP (fun d => d.finding.isFailure) = 1 := rfl
      have hnone : ((.error failure :: results).filterMap Except.toOption).length =
        (results.filterMap Except.toOption).length := rfl
      rw [hone, hnone]
      omega

end

end Report

/-! ### Reports on programs -/

namespace Program

variable {p : Program} {c : Config}

/-- The results of the functions of a program, in their order. -/
def results (p : Program) (c : Config) : List (Except FunctionAnalysis.Failure FunctionAnalysis) :=
  p.functions.map (FunctionAnalysis.analyze p (.ofProgram p) c)

/-- The program without the functions that cannot be analyzed. Its blocks and edges stay. -/
def withoutFailures (p : Program) (c : Config) : Program :=
  { p with functions := p.functions.filter fun f => (FunctionAnalysis.analyze p (.ofProgram p) c f).isOk }

/-- What a report says of one function: the warnings of one that was analyzed, or the one error of one
that could not be. -/
inductive Reports (p : Program) (c : Config) (f : Function) : List Diagnostic → Prop where
  | analyzed {a : FunctionAnalysis} (h : FunctionAnalysis.analyze p (.ofProgram p) c f = .ok a)
      (hwarns : ∀ d ∈ a.diagnostics,
        d.function = f.name ∧ d.finding.isFailure = false ∧ d.finding.isConflict = false) :
    Reports p c f a.diagnostics
  | failed {failure : FunctionAnalysis.Failure} (h : FunctionAnalysis.analyze p (.ofProgram p) c f = .error failure) :
    Reports p c f [⟨f.name, .failed failure.error⟩]

theorem analyze_eq_ofResults (p : Program) (c : Config) : p.analyze c = Report.ofResults p.arch (p.results c) := by
  rw [analyze, mapOrdered_eq_map, results]

/-- The functions that can be analyzed do not need the others. -/
theorem results_withoutFailures (p : Program) (c : Config) :
    (p.withoutFailures c).results c = (p.results c).filter Except.isOk := by
  rw [results, results, List.filter_map]
  rfl

theorem isFailure_of_mem_results {a : FunctionAnalysis} (h : .ok a ∈ p.results c) :
    ∀ d ∈ a.diagnostics, d.finding.isFailure = false := by
  obtain ⟨f, -, ha⟩ := List.mem_map.mp h
  intro d hd
  exact (FunctionAnalysis.warning_of_mem_diagnostics ha hd).2.1

theorem reports_diagnosticsOf (p : Program) (c : Config) (f : Function) :
    p.Reports c f (Report.diagnosticsOf (FunctionAnalysis.analyze p (.ofProgram p) c f)) := by
  cases h : FunctionAnalysis.analyze p (.ofProgram p) c f with
  | ok a => exact .analyzed h fun d hd => FunctionAnalysis.warning_of_mem_diagnostics h hd
  | error failure =>
    rw [Report.diagnosticsOf, FunctionAnalysis.function_of_failure h]
    exact .failed h

theorem diagnostics_analyze (p : Program) (c : Config) :
    (p.analyze c).diagnostics =
      (p.results c).flatMap Report.diagnosticsOf ++ (extractFacts p.arch (p.observations c)).2 := by
  rw [analyze_eq_ofResults]
  rfl

theorem observations_withoutFailures (p : Program) (c : Config) :
    (p.withoutFailures c).observations c = p.observations c := by
  show (((p.withoutFailures c).results c).filterMap Except.toOption).flatMap _ =
    ((p.results c).filterMap Except.toOption).flatMap _
  rw [results_withoutFailures, Report.filterMap_toOption_filter_isOk]

theorem diagnostics_withoutFailures (p : Program) (c : Config) : ((p.withoutFailures c).analyze c).diagnostics =
    (p.analyze c).diagnostics.filter fun d => !d.finding.isFailure := by
  have hconflicts : (extractFacts p.arch (p.observations c)).2.filter (fun d => !d.finding.isFailure) =
      (extractFacts p.arch (p.observations c)).2 := by
    refine List.filter_eq_self.mpr fun d hd => ?_
    simp [(isConflict_of_mem_conflicts hd).2]
  rw [diagnostics_analyze, diagnostics_analyze, List.filter_append, hconflicts,
    Report.filter_flatMap_diagnosticsOf fun _ => isFailure_of_mem_results, results_withoutFailures,
    observations_withoutFailures]
  rfl

theorem errors_eq_filter (p : Program) (c : Config) :
    (p.analyze c).errors = (p.analyze c).diagnostics.filter fun d => d.finding.isFailure := by
  rw [Report.errors]
  refine List.filter_congr fun d _ => ?_
  rw [Bool.eq_iff_iff, decide_eq_true_iff, d.severity_eq_error_iff]

theorem analyzed_analyze (p : Program) (c : Config) :
    (p.analyze c).analyzed = ((p.results c).filterMap Except.toOption).length := by
  rw [analyze_eq_ofResults]
  rfl

theorem failed_analyze (p : Program) (c : Config) :
    (p.analyze c).failed = p.functions.length - (p.analyze c).analyzed := by
  have hlength : (p.results c).length = p.functions.length := List.length_map _
  rw [analyzed_analyze, analyze_eq_ofResults, ← hlength]
  rfl

/-- Every function is analyzed or gives one error. -/
theorem errors_add_analyzed (p : Program) (c : Config) :
    (p.analyze c).errors.length + (p.analyze c).analyzed = p.functions.length := by
  have hconflicts : (extractFacts p.arch (p.observations c)).2.countP (fun d => d.finding.isFailure) = 0 := by
    rw [List.countP_eq_zero]
    intro d hd
    rw [(isConflict_of_mem_conflicts hd).2]
    exact Bool.false_ne_true
  have hresults : ((p.results c).flatMap Report.diagnosticsOf).countP (fun d => d.finding.isFailure) +
      ((p.results c).filterMap Except.toOption).length = (p.results c).length :=
    Report.countP_isFailure_add fun _ => isFailure_of_mem_results
  rw [errors_eq_filter, ← List.countP_eq_length_filter, diagnostics_analyze, List.countP_append, hconflicts,
    analyzed_analyze, Nat.add_zero, hresults, results, List.length_map]

/-- Functions that cannot be analyzed take nothing from the report on the others. -/
theorem analyze_isolates_failures (p : Program) (c : Config) :
    ((p.withoutFailures c).analyze c).facts = (p.analyze c).facts ∧
      ((p.withoutFailures c).analyze c).diagnostics =
        (p.analyze c).diagnostics.filter (fun d => !d.finding.isFailure) ∧
      (p.analyze c).analyzed + (p.analyze c).failed = p.functions.length ∧
      (p.analyze c).failed = (p.analyze c).errors.length ∧
      (p.analyze c).errors = (p.analyze c).diagnostics.filter (fun d => d.finding.isFailure) ∧
      (∃ sections conflicts, (p.analyze c).diagnostics = sections.flatten ++ conflicts ∧
        List.Forall₂ (p.Reports c) p.functions sections ∧ ∀ d ∈ conflicts, d.finding.isConflict = true) ∧
      ∀ parallel, p.analyze { c with parallel } = p.analyze c := by
  have herrors := errors_add_analyzed p c
  have hfailed := failed_analyze p c
  refine ⟨?_, diagnostics_withoutFailures p c, by omega, by omega, errors_eq_filter p c, ?_, ?_⟩
  · rw [facts_analyze, facts_analyze, observations_withoutFailures]
    rfl
  · refine ⟨(p.results c).map Report.diagnosticsOf, (extractFacts p.arch (p.observations c)).2, ?_, ?_, ?_⟩
    · rw [diagnostics_analyze, List.flatMap_def]
    · rw [results, List.map_map, List.forall₂_map_right_iff, List.forall₂_same]
      exact fun f _ => reports_diagnosticsOf p c f
    · exact fun d hd => (isConflict_of_mem_conflicts hd).1
  · intro parallel
    rw [analyze_eq_ofResults, analyze_eq_ofResults]
    rfl

end Program

end CallFacts
