import CallFacts.Pipeline
import CallFacts.Proofs.Failures
import CallFacts.Proofs.Numbering
import CallFacts.Proofs.Overflow

/-!
# Edges to labels without a block

A function of a listing cannot be analyzed exactly if an edge, of whatever kind and in whatever direction,
joins one of its blocks with a label that no line defines, as long as the limit on visits leaves room. Such
a function is reported as malformed, and every other function counts as analyzed.
-/

namespace CallFacts

theorem exists_mem_iff_of_forall₂ {α β : Type} {R : α → β → Prop} {P : α → Prop} {Q : β → Prop} {xs : List α}
    {ys : List β} (h : List.Forall₂ R xs ys) (hiff : ∀ x y, R x y → (P x ↔ Q y)) :
    (∃ x ∈ xs, P x) ↔ ∃ y ∈ ys, Q y := by
  induction h with
  | nil => simp
  | cons hxy _ ih => simp [hiff _ _ hxy, ih]

theorem FunctionAnalysis.function_of_analyze {p : Program} {ix : EdgeIndex} {c : Config} {f : Function}
    {a : FunctionAnalysis} (h : analyze p ix c f = .ok a) : a.function = f.name := by
  simp only [analyze, analyzeGraph_visitLimit] at h
  split at h
  · cases h
  · split at h
    · cases h
      rfl
    · cases h

namespace Listing

variable {arch : Arch} {models : List Model} {ls : List Line} {p : Program} {s : Header × List BlockLine}
  {f : Function}

/-- Some edge joins a block of the section, on either end, with a label that no line defines. -/
def Dangles (ls : List Line) (s : Header × List BlockLine) : Prop :=
  ∃ line ∈ edgeLines ls,
    (line.source ∈ s.2.map BlockLine.label ∧ line.target ∉ blockLabels ls) ∨
      (line.target ∈ s.2.map BlockLine.label ∧ line.source ∉ blockLabels ls)

instance (ls : List Line) (s : Header × List BlockLine) : Decidable (Dangles ls s) :=
  inferInstanceAs (Decidable (∃ line ∈ edgeLines ls, _ ∨ _))

namespace Outlines

theorem contains_idOf_iff (h : Outlines arch models ls p) (label : String) :
    p.contains (idOf ls label) = true ↔ label ∈ blockLabels ls := by
  rw [Program.contains, decide_eq_true_iff, h.idOf_lt_iff, blockLabels, List.mem_map]

theorem mem_blockLabels (h : Outlines arch models ls p) (hs : s ∈ sections ls) {line : BlockLine} (hline : line ∈ s.2) :
    line.label ∈ blockLabels ls := by
  rw [blockLabels, ← h.covered]
  exact List.mem_map_of_mem (List.mem_flatMap.mpr ⟨s, hs, hline⟩)

/-- A label stands for a member of a function if and only if it is that of a block of its section. -/
theorem idOf_mem_blocks_iff (h : Outlines arch models ls p) (hs : s ∈ sections ls) (hf : Declares arch (idOf ls) s f)
    (label : String) : idOf ls label ∈ f.blocks ↔ label ∈ s.2.map BlockLine.label := by
  rw [hf.mem_blocks_iff, List.mem_map]
  refine exists_congr fun line => and_congr_right fun hline => ?_
  exact idOf_eq_iff (List.mem_append_left _ (h.mem_blockLabels hs hline))

/-- A function of a listing is well formed unless an edge of it leads to or from nowhere. -/
theorem not_wellFormed_iff (h : Outlines arch models ls p) (hs : s ∈ sections ls) (hf : Declares arch (idOf ls) s f) :
    ¬ f.WellFormed p ↔ Dangles ls s := by
  have hedges : Dangles ls s ↔ ∃ e ∈ p.edges, (e.source ∈ f.blocks ∧ ¬ p.contains e.target = true) ∨
      (e.target ∈ f.blocks ∧ ¬ p.contains e.source = true) := by
    refine exists_mem_iff_of_forall₂ h.edges fun line e hjoins => ?_
    rw [hjoins.source, hjoins.target, h.contains_idOf_iff, h.contains_idOf_iff, h.idOf_mem_blocks_iff hs hf,
      h.idOf_mem_blocks_iff hs hf]
  have hmembers : ∀ b ∈ f.blocks, p.contains b = true := by
    intro b hb
    obtain ⟨line, hline, rfl⟩ := hf.mem_blocks_iff.mp hb
    exact (h.contains_idOf_iff _).mpr (h.mem_blockLabels hs hline)
  have hentry : f.entry ∈ f.blocks := by
    rw [hf.blocks]
    exact List.mem_cons_self
  rw [hedges]
  constructor
  · intro hmalformed
    by_contra hnone
    refine hmalformed ⟨hmembers, hentry, ?_, ?_⟩
    · intro e he htarget
      by_contra hsource
      exact hnone ⟨e, he, .inr ⟨htarget, hsource⟩⟩
    · intro e he hsource
      by_contra htarget
      exact hnone ⟨e, he, .inl ⟨hsource, htarget⟩⟩
  · rintro ⟨e, he, ⟨hsource, htarget⟩ | ⟨htarget, hsource⟩⟩ hwell
    · exact htarget (hwell.targets e he hsource)
    · exact hsource (hwell.sources e he htarget)

end Outlines

/-! ### Results -/

/-- What the analysis of the function of a section ends with: it is malformed if an edge dangles, and
analyzed otherwise. -/
inductive Settles (ls : List Line) (s : Header × List BlockLine) :
    Except FunctionAnalysis.Failure FunctionAnalysis → Prop where
  | analyzed {a : FunctionAnalysis} (hwhole : ¬ Dangles ls s) (hname : a.function = s.1.name) : Settles ls s (.ok a)
  | malformed {failure : FunctionAnalysis.Failure} {fault : FlowGraph.Fault} (hdangles : Dangles ls s)
      (hfailure : failure.error = .malformed s.1.name fault) : Settles ls s (.error failure)

/-- The diagnostic says that the function of the section is malformed. -/
def Faults (s : Header × List BlockLine) (d : Diagnostic) : Prop :=
  ∃ fault, d = ⟨s.1.name, .failed (.malformed s.1.name fault)⟩

theorem Outlines.settles {c : Config} (h : Outlines arch models ls p) (hroom : c.LeavesRoom p.arch) :
    List.Forall₂ (Settles ls) (sections ls) (p.results c) := by
  rw [Program.results, List.forall₂_map_right_iff]
  have hfunctions : List.Forall₂ (fun s f => s ∈ sections ls ∧ Declares arch (idOf ls) s f) (sections ls) p.functions :=
    (List.forall₂_and_left _ _).mpr ⟨fun s hs => hs, h.functions⟩
  refine hfunctions.imp fun s f hsf => ?_
  obtain ⟨hs, hf⟩ := hsf
  have hdangles := h.not_wellFormed_iff hs hf
  cases hresult : FunctionAnalysis.analyze p (.ofProgram p) c f with
  | ok a =>
    refine .analyzed ?_ ?_
    · rw [← hdangles, not_not]
      exact FunctionAnalysis.wellFormed_of_analyze hresult
    · rw [FunctionAnalysis.function_of_analyze hresult, hf.name]
  | error failure =>
    obtain ⟨fault, -, hfailure⟩ := FunctionAnalysis.fault_of_analyze_error hroom.lt_visitLimit hresult
    rw [hf.name] at hfailure
    exact .malformed (hdangles.mp ((FunctionAnalysis.exists_failure_iff hroom).mp ⟨failure, hresult⟩)) hfailure

section

variable {ss : List (Header × List BlockLine)} {results : List (Except FunctionAnalysis.Failure FunctionAnalysis)}
  (h : List.Forall₂ (Settles ls) ss results)

include h

/-- The functions that count as analyzed are those of the sections without a dangling edge. -/
theorem length_analyses :
    (results.filterMap Except.toOption).length = ss.countP fun s => decide (¬ Dangles ls s) := by
  induction h with
  | nil => rfl
  | cons hsettles _ ih =>
    cases hsettles with
    | analyzed hwhole _ =>
      rw [List.countP_cons_of_pos (by simpa using hwhole), ← ih]
      rfl
    | malformed hdangles _ =>
      rw [List.countP_cons_of_neg (by simpa using hdangles), ← ih]
      rfl

/-- The failures among the diagnostics of functions belong to the sections with a dangling edge. -/
theorem faults_of_settles (hwarns : ∀ a, .ok a ∈ results → ∀ d ∈ a.diagnostics, d.finding.isFailure = false) :
    List.Forall₂ Faults (ss.filter fun s => decide (Dangles ls s))
      ((results.flatMap Report.diagnosticsOf).filter fun d => d.finding.isFailure) := by
  induction h with
  | nil => exact .nil
  | cons hsettles _ ih =>
    have hrest := ih fun a ha => hwarns a (List.mem_cons_of_mem _ ha)
    rw [List.flatMap_cons, List.filter_append]
    cases hsettles with
    | @analyzed a hwhole _ =>
      have hnone : a.diagnostics.filter (fun d => d.finding.isFailure) = [] := by
        rw [List.filter_eq_nil_iff]
        intro d hd
        rw [hwarns a List.mem_cons_self d hd]
        exact Bool.false_ne_true
      rw [Report.diagnosticsOf, hnone, List.filter_cons_of_neg (by simpa using hwhole)]
      exact hrest
    | @malformed failure fault hdangles hfailure =>
      have hone : (Report.diagnosticsOf (.error failure)).filter (fun d => d.finding.isFailure) =
          [⟨failure.error.function, .failed failure.error⟩] := rfl
      rw [hone, List.filter_cons_of_pos (by simpa using hdangles)]
      refine .cons ⟨fault, ?_⟩ hrest
      rw [hfailure]
      rfl

end

/-- The errors of a report are the failures of its functions. -/
theorem faults_errors {c : Config} (h : List.Forall₂ (Settles ls) (sections ls) (p.results c)) :
    List.Forall₂ Faults ((sections ls).filter fun s => decide (Dangles ls s)) (p.analyze c).errors := by
  have hconflicts : (extractFacts p.arch (p.observations c)).2.filter (fun d => d.finding.isFailure) = [] := by
    rw [List.filter_eq_nil_iff]
    intro d hd
    rw [(isConflict_of_mem_conflicts hd).2]
    exact Bool.false_ne_true
  rw [p.errors_eq_filter, p.diagnostics_analyze, List.filter_append, hconflicts, List.append_nil]
  exact faults_of_settles h fun _ => Program.isFailure_of_mem_results

end Listing

/-! ### Reports -/

namespace Pipeline

variable {overflow : Overflow} {arch : Arch} {c config : Config} {tracked : List String} {text : List Char}
  {report : Report}

theorem analyze_eq_ok_iff {p : Program} :
    analyze overflow p c = .ok report ↔ p.analyzeIn overflow c = some report := by
  rw [analyze]
  cases p.analyzeIn overflow c <;> simp

theorem run_eq_ok_iff : run overflow c tracked text = .ok (arch, report) ↔ Listing.detectArch text = .ok arch ∧
    ∃ p config, Listing.read arch text = .ok p ∧ configFor arch c tracked = .ok config ∧
      p.analyzeIn overflow config = some report := by
  constructor
  · intro h
    obtain ⟨found, hfound, h⟩ := bind_eq_ok.mp h
    obtain ⟨p, hread, h⟩ := bind_eq_ok.mp h
    obtain ⟨config, hconfig, h⟩ := bind_eq_ok.mp h
    obtain ⟨report, hreport, h⟩ := bind_eq_ok.mp h
    cases h
    exact ⟨mapError_eq_ok.mp hfound, p, config, mapError_eq_ok.mp hread, hconfig, analyze_eq_ok_iff.mp hreport⟩
  · rintro ⟨hfound, p, config, hread, hconfig, hreport⟩
    refine bind_eq_ok.mpr ⟨arch, mapError_eq_ok.mpr hfound, bind_eq_ok.mpr ⟨p, mapError_eq_ok.mpr hread, ?_⟩⟩
    exact bind_eq_ok.mpr ⟨config, hconfig, bind_eq_ok.mpr ⟨report, analyze_eq_ok_iff.mpr hreport, rfl⟩⟩

/-- In a report on a listing, if the limit leaves room, the functions that fail are those of the sections
with a dangling edge, each as malformed, and all others count as analyzed. -/
theorem run_fails_iff_dangles (h : run overflow c tracked text = .ok (arch, report))
    (hconfig : configFor arch c tracked = .ok config) (hroom : config.LeavesRoom arch) :
    let ls := Listing.contents text
    let dangling := (Listing.sections ls).filter fun s => decide (Listing.Dangles ls s)
    ∃ p, Listing.read arch text = .ok p ∧ report = p.analyze config ∧
      List.Forall₂ (Listing.Settles ls) (Listing.sections ls) (p.results config) ∧
      List.Forall₂ Listing.Faults dangling report.errors ∧ report.failed = dangling.length ∧
      report.analyzed = (Listing.sections ls).countP fun s => decide (¬ Listing.Dangles ls s) := by
  intro ls dangling
  obtain ⟨-, p, config', hread, hconfig', hreport⟩ := run_eq_ok_iff.mp h
  obtain ⟨-, rfl⟩ := Program.analyzeIn_eq_some_iff.mp hreport
  obtain rfl : config' = config := by
    rw [hconfig'] at hconfig
    cases hconfig
    rfl
  obtain ⟨houtlines, -⟩ := Listing.outlines_of_readWith hread
  have hsettles := houtlines.settles (houtlines.arch.symm ▸ hroom)
  have herrors := Listing.faults_errors hsettles
  refine ⟨p, hread, rfl, hsettles, herrors, ?_, ?_⟩
  · have htotal := p.errors_add_analyzed config'
    rw [p.failed_analyze, herrors.length_eq]
    omega
  · rw [p.analyzed_analyze, Listing.length_analyses hsettles]

theorem exists_run_scattered : ∃ report, run .stops {} [] Listing.scattered.toList = .ok (.arm32, report) := by
  have harch : Listing.detectArch Listing.scattered.toList = .ok .arm32 := by decide +kernel
  obtain ⟨p, hread⟩ := Listing.exists_read_scattered
  have hstops : ¬ p.Stops .stops {} := by
    rintro ⟨f, -, -, hstops⟩
    refine Config.not_stopsAt_of_lt ?_ hstops
    rw [(Listing.outlines_of_readWith hread).1.arch]
    decide
  exact ⟨_, run_eq_ok_iff.mpr ⟨harch, p, {}, hread, rfl, Program.analyzeIn_of_not_stops hstops⟩⟩

/-- Of the two functions the one with the edge to a label without a block fails. -/
theorem scattered_fails : ∃ report, run .stops {} [] Listing.scattered.toList = .ok (.arm32, report) ∧
    configFor .arm32 {} [] = .ok {} ∧ Config.LeavesRoom {} .arm32 ∧ report.failed = 1 ∧ report.analyzed = 1 := by
  obtain ⟨report, hrun⟩ := exists_run_scattered
  have hroom : Config.LeavesRoom {} .arm32 := ⟨by decide, by decide⟩
  obtain ⟨p, -, -, -, -, hfailed, hanalyzed⟩ := run_fails_iff_dangles hrun rfl hroom
  rw [Listing.contents_scattered] at hfailed hanalyzed
  refine ⟨report, hrun, rfl, hroom, ?_, ?_⟩
  · rw [hfailed]
    decide
  · rw [hanalyzed]
    decide

end Pipeline

end CallFacts
