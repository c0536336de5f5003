import CallFacts.Proofs.SiteValues

/-!
# What the diagnostics say

A report lists the diagnostics of its functions in turn, then the conflicts. Every finding has one
source: errors come from functions that could not be analyzed, one from each and under its name, and
conflicts from gathering the values of all functions, while a function that was analyzed only warns of
its own blocks and instructions.
-/

namespace CallFacts

/-! ### Diagnostics of a function -/

namespace FunctionAnalysis

variable {p : Program} {ix : EdgeIndex} {c : Config} {f : Function} {a : FunctionAnalysis} {failure : Failure}

theorem mem_gapsOf {is : List Instruction} {finding : Finding} :
    finding ∈ gapsOf is ↔ ∃ i ∈ is, i.hasDecodeGap = true ∧ finding = .decodeGap i.address i.mnemonic := by
  simp only [gapsOf, List.mem_map, List.mem_filter, and_assoc, eq_comm]

theorem diagnostics_of_analyze (h : analyze p ix c f = .ok a) :
    a.diagnostics = (findingsOf p a.graph a.run).map fun finding => ⟨f.name, finding⟩ := by
  simp only [analyze, analyzeGraph_visitLimit] at h
  split at h
  · cases h
  · split at h
    · cases h; rfl
    · cases h

/-- An error carries the name of the function that could not be analyzed. -/
theorem function_of_failure (h : analyze p ix c f = .error failure) : failure.error.function = f.name := by
  simp only [analyze, analyzeGraph_visitLimit] at h
  split at h
  · cases h; rfl
  · split at h
    · cases h
    · cases h; rfl

/-- A function that was analyzed warns of an instruction that is not understood or of a block that is
not reached. -/
theorem finding_of_mem_findingsOf {g : FlowGraph} {run : Run g.members.size} {finding : Finding}
    (h : finding ∈ findingsOf p g run) :
    (∃ address mnemonic, finding = .decodeGap address mnemonic) ∨ ∃ b address, finding = .unreachable b address := by
  obtain ⟨i, -, hi⟩ := List.mem_flatMap.mp h
  split at hi
  · obtain ⟨instruction, -, -, rfl⟩ := mem_gapsOf.mp hi
    exact .inl ⟨_, _, rfl⟩
  · exact .inr ⟨_, _, List.mem_singleton.mp hi⟩

theorem finding_of_mem_diagnostics (h : analyze p ix c f = .ok a) {d : Diagnostic} (hd : d ∈ a.diagnostics) :
    (∃ address mnemonic, d.finding = .decodeGap address mnemonic) ∨ ∃ b address, d.finding = .unreachable b address := by
  rw [diagnostics_of_analyze h, List.mem_map] at hd
  obtain ⟨finding, hfinding, rfl⟩ := hd
  exact finding_of_mem_findingsOf hfinding

end FunctionAnalysis

/-! ### Diagnostics of a program -/

theorem finding_of_mem_conflicts {arch : Arch} {os : List (String × Observation)} {d : Diagnostic}
    (h : d ∈ (extractFacts arch os).2) : ∃ address r ws, d.finding = .aliasConflict address r ws := by
  obtain ⟨e, -, he⟩ := List.mem_filterMap.mp h
  simp only [Evidence.conflict?] at he
  split at he
  · cases he
    exact ⟨_, _, _, rfl⟩
  · cases he

namespace Report

/-- An error is reported for a function of the name. -/
def Fails (r : Report) (name : String) : Prop := ∃ d ∈ r.diagnostics, d.severity = .error ∧ d.function = name

/-- A conflict between just these values is reported at the site. -/
def ConflictsAt (r : Report) (site : Site) (values : Set Word) : Prop :=
  ∃ d ∈ r.diagnostics, ∃ ws, d.finding = .aliasConflict site.address site.register ws ∧ {w | w ∈ ws} = values

end Report

namespace Program

variable {p : Program} {c : Config}

/-- A diagnostic is a warning of a function that was analyzed, the error of one that was not, or a
conflict. -/
theorem mem_diagnostics_iff {d : Diagnostic} : d ∈ (p.analyze c).diagnostics ↔
    (∃ f ∈ p.functions, ∃ a, FunctionAnalysis.analyze p (.ofProgram p) c f = .ok a ∧ d ∈ a.diagnostics) ∨
      (∃ f ∈ p.functions, ∃ failure, FunctionAnalysis.analyze p (.ofProgram p) c f = .error failure ∧
        d = ⟨f.name, .failed failure.error⟩) ∨
      d ∈ (extractFacts p.arch (p.observations c)).2 := by
  have hsplit : d ∈ (p.analyze c).diagnostics ↔
      (∃ f ∈ p.functions, d ∈ Report.diagnosticsOf (FunctionAnalysis.analyze p (.ofProgram p) c f)) ∨
        d ∈ (extractFacts p.arch (p.observations c)).2 := by
    simp [analyze, mapOrdered_eq_map, Report.ofResults, observations]
  rw [hsplit, ← or_assoc, ← exists_or]
  refine or_congr_left (exists_congr fun f => ?_)
  rw [← and_or_left]
  refine and_congr_right fun _ => ?_
  cases ha : FunctionAnalysis.analyze p (.ofProgram p) c f with
  | ok a => simp [Report.diagnosticsOf]
  | error failure => simp [Report.diagnosticsOf, FunctionAnalysis.function_of_failure ha]

/-- Errors are reported for the functions that cannot be analyzed, and for no others. -/
theorem fails_iff {name : String} : (p.analyze c).Fails name ↔
    ∃ f ∈ p.functions, f.name = name ∧ ∃ failure, FunctionAnalysis.analyze p (.ofProgram p) c f = .error failure := by
  constructor
  · rintro ⟨d, hd, herror, rfl⟩
    rw [Diagnostic.severity] at herror
    rcases mem_diagnostics_iff.mp hd with ⟨f, hf, a, ha, hd⟩ | ⟨f, hf, failure, ha, rfl⟩ | hd
    · rcases FunctionAnalysis.finding_of_mem_diagnostics ha hd with ⟨_, _, hfinding⟩ | ⟨_, _, hfinding⟩ <;>
        cases hfinding ▸ herror
    · exact ⟨f, hf, rfl, failure, ha⟩
    · obtain ⟨_, _, _, hfinding⟩ := finding_of_mem_conflicts hd
      cases hfinding ▸ herror
  · rintro ⟨f, hf, rfl, failure, ha⟩
    exact ⟨_, mem_diagnostics_iff.mpr (.inr (.inl ⟨f, hf, failure, ha, rfl⟩)), rfl, rfl⟩

/-- Conflicts are reported at the sites where different exact values are shown, with all of them. -/
theorem conflictsAt_iff {site : Site} {values : Set Word} : (p.analyze c).ConflictsAt site values ↔
    (∃ x y : Word × Nat, x ≠ y ∧ ShownAt p.arch (p.observations c) site (.exact x.1 x.2) ∧
      ShownAt p.arch (p.observations c) site (.exact y.1 y.2)) ∧
      {w | ∃ bits, ShownAt p.arch (p.observations c) site (.exact w bits)} = values := by
  rw [← exists_conflict_iff]
  constructor
  · rintro ⟨d, hd, ws, hfinding, hvalues⟩
    rcases mem_diagnostics_iff.mp hd with ⟨f, hf, a, ha, hd⟩ | ⟨f, hf, failure, ha, rfl⟩ | hd
    · rcases FunctionAnalysis.finding_of_mem_diagnostics ha hd with ⟨_, _, hother⟩ | ⟨_, _, hother⟩ <;>
        cases hfinding.symm.trans hother
    · cases hfinding
    · exact ⟨d, hd, ws, hfinding, hvalues⟩
  · rintro ⟨d, hd, ws, hfinding, hvalues⟩
    exact ⟨d, mem_diagnostics_iff.mpr (.inr (.inr hd)), ws, hfinding, hvalues⟩

end Program

end CallFacts
