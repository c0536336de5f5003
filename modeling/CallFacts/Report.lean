import CallFacts.Evidence

/-!
# The analysis of a program

Every function is analyzed on its own. The facts are extracted from the observations of all functions
that could be analyzed; the others appear among the diagnostics.
-/

namespace CallFacts

/-- The result for a program. -/
structure Report where
  facts : FactTable
  diagnostics : List Diagnostic
  /-- The number of functions that were analyzed. -/
  analyzed : Nat
  /-- The number of functions that could not be analyzed. -/
  failed : Nat

namespace Report

def diagnosticsOf : Except FunctionAnalysis.Failure FunctionAnalysis → List Diagnostic
  | .ok a => a.diagnostics
  | .error failure => [⟨failure.error.function, .failed failure.error⟩]

/-- The report on the analyses of the functions of a program, in their order. -/
def ofResults (arch : Arch) (results : List (Except FunctionAnalysis.Failure FunctionAnalysis)) : Report :=
  let analyses := results.filterMap Except.toOption
  let (facts, conflicts) := extractFacts arch (analyses.flatMap fun a => a.observations.map fun o => (a.function, o))
  { facts
    diagnostics := results.flatMap diagnosticsOf ++ conflicts
    analyzed := analyses.length
    failed := results.length - analyses.length }

def errors (r : Report) : List Diagnostic := r.diagnostics.filter fun d => d.severity = .error

end Report

/-- Applies a function to the elements of a list, all at the same time if `parallel` is set. The
results keep the order of the list. -/
def mapOrdered {α β : Type} (parallel : Bool) (f : α → β) (xs : List α) : List β :=
  if parallel then (xs.map fun x => Task.spawn fun _ => f x).map Task.get else xs.map f

theorem mapOrdered_eq_map {α β : Type} (parallel : Bool) (f : α → β) (xs : List α) :
    mapOrdered parallel f xs = xs.map f := by
  cases parallel
  · rfl
  · simp only [mapOrdered, if_true, List.map_map]
    exact List.map_congr_left fun _ _ => rfl

/-- The report on a program, in a build where the limit on visits wraps. -/
def Program.analyze (p : Program) (c : Config) : Report :=
  let ix := EdgeIndex.ofProgram p
  Report.ofResults p.arch (mapOrdered c.parallel (FunctionAnalysis.analyze p ix c) p.functions)

/-- The report on a program in a build of either kind. There is none if the build stops at one of the functions. -/
def Program.analyzeIn (overflow : Overflow) (p : Program) (c : Config) : Option Report :=
  let ix := EdgeIndex.ofProgram p
  let results := mapOrdered c.parallel (FunctionAnalysis.analyzeIn overflow p ix c) p.functions
  (results.mapM id).map (Report.ofResults p.arch)

end CallFacts
