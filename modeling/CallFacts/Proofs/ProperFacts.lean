import CallFacts.Proofs.Extraction
import CallFacts.Proofs.Width

/-!
# Proper facts

Nothing that an analysis shows, at the entry or exit of a block, at one of its visits or as an
observation, is an exact value of another width than that of a register, whatever widths and constants
the effects name and whether the function could be analyzed or not. So every fact of a report is proper:
its address is normalized, its register is followed and exists, and its value fits the width it carries.
-/

namespace CallFacts

/-! ### The states of a run -/

namespace Dataflow

variable {n : Nat} {p : Dataflow n} {run : Run n} {P : State → Prop}

/-- The state is an entry state of the run, one of its exit states, or that of one of its visits. -/
inductive Holds (run : Run n) : State → Prop where
  | entry {i : Fin n} {s : State} (h : run.entries.get i = some s) : Holds run s
  | exit {i : Fin n} {s : State} (h : run.exits.get i = some s) : Holds run s
  | visit {i : Fin n} {s : State} (h : (i, s) ∈ run.trail) : Holds run s

section

variable (hjoin : ∀ s t, P s → P t → P (s.join t)) (hstart : P p.initial)
  (htransfer : ∀ i s, P s → P (p.transfer i s)) (hcarry : ∀ way s, P s → P (p.carry way s))

include hjoin hstart htransfer hcarry

theorem Runs.all_entries (h : p.Runs run) : run.All fun _ => P :=
  h.all (fun _ => hjoin) hstart fun i _ hs way _ => hcarry way _ (htransfer i _ hs)

/-- What the initial state has, and joins, visits and ways keep, all states of a run have: a visit adds
the entry state of its node and the exit state that comes from it. -/
theorem Runs.of_holds (h : p.Runs run) {s : State} (hs : Holds run s) : P s := by
  induction h using Runs.ready_induct generalizing s with
  | begin =>
    cases hs with
    | entry hs => exact Runs.all_entries hjoin hstart htransfer hcarry .begin _ s hs
    | exit hs => simp [Dataflow.begin] at hs
    | visit hs => simp [Dataflow.begin] at hs
  | @visit run i rest t h hqueue hlimit ht ih =>
    have hentry : P t := ih (.entry ht)
    cases hs with
    | entry hs => exact Runs.all_entries hjoin hstart htransfer hcarry (h.visit hqueue hlimit) _ s hs
    | @exit j _ hs =>
      rw [visit_exits ht] at hs
      by_cases hij : i = j
      · subst hij
        rw [get_set_self, Option.some.injEq] at hs
        exact hs ▸ htransfer i t hentry
      · rw [get_set_of_ne _ _ _ hij] at hs
        exact ih (.exit hs)
    | visit hs =>
      rw [visit_trail ht, List.mem_cons, Prod.mk.injEq] at hs
      rcases hs with ⟨-, rfl⟩ | hs
      · exact hentry
      · exact ih (.visit hs)

end

end Dataflow

/-! ### What an analysis shows -/

namespace FunctionAnalysis

variable {p : Program} {ix : EdgeIndex} {c : Config} {f : Function} {g : FlowGraph} {a : FunctionAnalysis}

/-- The state is one of a function that was analyzed, or of a visit before the analysis was given up. -/
inductive HasState : Except Failure FunctionAnalysis → State → Prop where
  | entry {a : FunctionAnalysis} {b : BlockId} {s : State} (h : a.entryState? b = some s) : HasState (.ok a) s
  | exit {a : FunctionAnalysis} {b : BlockId} {s : State} (h : a.exitState? b = some s) : HasState (.ok a) s
  | visit {a : FunctionAnalysis} {b : BlockId} {s : State} (h : (b, s) ∈ a.history) : HasState (.ok a) s
  | failedVisit {failure : Failure} {b : BlockId} {s : State} (h : (b, s) ∈ failure.history) :
    HasState (.error failure) s

/-- A state of the result gives the value to a register, or an observation lists it. -/
inductive Shows : Except Failure FunctionAnalysis → Value → Prop where
  | state {result : Except Failure FunctionAnalysis} {s : State} (h : HasState result s) (r : Register) :
    Shows result (s.get r)
  | observed {a : FunctionAnalysis} {o : Observation} {r : Register} {v : Value} (ho : o ∈ a.observations)
      (hv : (r, v) ∈ o.values) : Shows (.ok a) v

theorem ofWidth_of_holds {run : Run g.members.size} (h : (problem p c f g).Runs run) {s : State}
    (hs : Dataflow.Holds run s) : s.OfWidth p.arch.registerBits := by
  refine h.of_holds (P := fun s => s.OfWidth p.arch.registerBits) ?_ ?_ ?_ ?_ hs
  · intro s t hs ht
    exact hs.join ht
  · exact ofWidth_initialState _ _ f
  · intro i s hs
    exact hs.applyAll _
  · intro way s hs
    exact Dataflow.ofWidth_carry _ hs way

theorem mem_historyOf {run : Run g.members.size} {b : BlockId} {s : State} :
    (b, s) ∈ historyOf g run ↔ ∃ i, (i, s) ∈ run.trail ∧ g.member i = b := by
  simp [historyOf]

/-- The visits of a function that could not be analyzed are those of a run. -/
theorem run_of_failed_visit {failure : Failure} (h : analyze p ix c f = .error failure) {b : BlockId} {s : State}
    (hs : (b, s) ∈ failure.history) :
    ∃ g, ∃ run : Run g.members.size, (problem p c f g).Runs run ∧ Dataflow.Holds run s := by
  simp only [analyze, analyzeGraph_visitLimit] at h
  split at h
  · cases h
    cases hs
  · next g hbuild =>
    split at h
    · cases h
    · next run i hexhausted =>
      cases h
      obtain ⟨i, hi, -⟩ := mem_historyOf.mp hs
      have hruns := (problem p c f g).runs_of_solve
      rw [hexhausted] at hruns
      exact ⟨g, run, hruns, .visit hi⟩

theorem holds_of_hasState {s : State} (h : HasState (analyze p ix c f) s) :
    ∃ g, ∃ run : Run g.members.size, (problem p c f g).Runs run ∧ Dataflow.Holds run s := by
  generalize hresult : analyze p ix c f = result at h
  cases h with
  | @entry a b s h =>
    obtain ⟨i, -, hi⟩ := Option.bind_eq_some_iff.mp h
    exact ⟨a.graph, a.run, Dataflow.runs_of_stable (analyze_eq_ok hresult).2.1, .entry hi⟩
  | @exit a b s h =>
    obtain ⟨i, -, hi⟩ := Option.bind_eq_some_iff.mp h
    exact ⟨a.graph, a.run, Dataflow.runs_of_stable (analyze_eq_ok hresult).2.1, .exit hi⟩
  | @visit a b s h =>
    obtain ⟨i, hi, -⟩ := mem_historyOf.mp h
    exact ⟨a.graph, a.run, Dataflow.runs_of_stable (analyze_eq_ok hresult).2.1, .visit hi⟩
  | failedVisit h => exact run_of_failed_visit hresult h

theorem ofWidth_of_hasState {s : State} (h : HasState (analyze p ix c f) s) : s.OfWidth p.arch.registerBits := by
  obtain ⟨g, run, hruns, hs⟩ := holds_of_hasState h
  exact ofWidth_of_holds hruns hs

theorem ofWidth_of_observed (h : analyze p ix c f = .ok a) {o : Observation} (ho : o ∈ a.observations)
    {r : Register} {v : Value} (hv : (r, v) ∈ o.values) : v.OfWidth p.arch.registerBits := by
  obtain ⟨i, s, last, hs, -, -, rfl⟩ := (mem_observations_iff h).mp ho
  obtain ⟨-, rfl, -⟩ := State.mem_toList.mp hv
  have hruns := Dataflow.runs_of_stable (analyze_eq_ok h).2.1
  exact (ofWidth_of_holds hruns (.entry hs)).applyAll _ r

theorem ofWidth_of_shows {v : Value} (h : Shows (analyze p ix c f) v) : v.OfWidth p.arch.registerBits := by
  generalize hresult : analyze p ix c f = result at h
  cases h with
  | state h r => exact ofWidth_of_hasState (hresult ▸ h) r
  | observed ho hv => exact ofWidth_of_observed hresult ho hv

end FunctionAnalysis

/-! ### Facts -/

/-- The fact is about a register of the architecture that is followed, at a normalized address, and its
value is a pattern of a full register. -/
structure Fact.Proper (arch : Arch) (tracked : RegisterSet) (fact : Fact) : Prop where
  address : arch.normalize fact.site.address = fact.site.address
  tracked : fact.site.register ∈ tracked
  register : fact.site.register.val < arch.registerCount
  bits : fact.bits = arch.registerBits
  value : fact.value.toNat < 2 ^ arch.registerBits

theorem Arch.normalize_normalize (arch : Arch) (address : Word) :
    arch.normalize (arch.normalize address) = arch.normalize address := by
  simp [normalize, BitVec.and_assoc]

theorem Config.mem_trackedFor {c : Config} {arch : Arch} {r : Register} (h : r ∈ c.trackedFor arch) :
    r.val < arch.registerCount :=
  RegisterSet.mem_below.mp (RegisterSet.mem_inter.mp h).2

theorem Program.proper_of_mem_facts {p : Program} {c : Config} {fact : Fact} (h : fact ∈ (p.analyze c).facts.facts) :
    fact.Proper p.arch (c.trackedFor p.arch) := by
  have htracked := tracked_of_mem_facts h
  obtain ⟨name, o, ho, haddress, hv⟩ := (mem_facts_analyze_iff.mp h).1
  obtain ⟨f, -, a, ha, ho, -⟩ := mem_observations_iff.mp ho
  obtain ⟨hbits, hvalue⟩ := Value.ofWidth_exact_iff.mp (FunctionAnalysis.ofWidth_of_observed ha ho hv)
  refine ⟨?_, htracked, Config.mem_trackedFor htracked, hbits, hvalue⟩
  rw [← haddress, Arch.normalize_normalize]

/-- Every exact value that an analysis shows is a pattern of a full register, so every fact of a report is
proper; and facts stand in the order of their sites. -/
theorem Program.exact_values_full_width (p : Program) (c : Config) :
    (∀ ix f pattern width, FunctionAnalysis.Shows (FunctionAnalysis.analyze p ix c f) (.exact pattern width) →
        width = p.arch.registerBits ∧ pattern.toNat < 2 ^ p.arch.registerBits) ∧
      (∀ fact ∈ (p.analyze c).facts.facts, fact.Proper p.arch (c.trackedFor p.arch)) ∧
      (p.analyze c).facts.facts.Pairwise fun f g => f.site.Before g.site := by
  refine ⟨?_, ?_, facts_before _⟩
  · intro ix f pattern width h
    exact Value.ofWidth_exact_iff.mp (FunctionAnalysis.ofWidth_of_shows h)
  · intro fact h
    exact proper_of_mem_facts h

namespace Program

/-- A constant of 64 bits, its low byte sign extended to 16 bits, and a multiple of that at a width beyond
any register, all known at the call that follows. -/
def mixedWidths : Program where
  arch := .arm32
  blocks := #[
    ⟨0x1000, [⟨0x1000, 4, "mov", [.immediate 0 (-1)]⟩, ⟨0x1004, 4, "sxtb", [.extend 1 0 8 16 true]⟩,
      ⟨0x1008, 4, "mla", [.affine 2 1 3 1 200]⟩, ⟨0x100c, 4, "bl", [.clobber 14]⟩]⟩,
    ⟨0x2000, [⟨0x2000, 4, "bx", []⟩]⟩]
  edges := [⟨⟨0⟩, ⟨1⟩, .call⟩]
  functions := [⟨"mixed", ⟨0⟩, [⟨0⟩], []⟩]

theorem fact_mixedWidths : ⟨⟨0x100c, 1⟩, 0xffff, 32⟩ ∈ (mixedWidths.analyze {}).facts.facts := by
  decide +kernel

theorem exists_shows_of_mem_facts {p : Program} {c : Config} {fact : Fact} (h : fact ∈ (p.analyze c).facts.facts) :
    ∃ f ∈ p.functions,
      FunctionAnalysis.Shows (FunctionAnalysis.analyze p (.ofProgram p) c f) (.exact fact.value fact.bits) := by
  obtain ⟨name, o, ho, -, hv⟩ := (mem_facts_analyze_iff.mp h).1
  obtain ⟨f, hf, a, ha, ho, -⟩ := mem_observations_iff.mp ho
  exact ⟨f, hf, ha ▸ .observed ho hv⟩

/-- The sign extended byte is shown and becomes a fact, both at the width of a register. -/
theorem mixedWidths_full_width :
    (∃ f ∈ mixedWidths.functions,
      FunctionAnalysis.Shows (FunctionAnalysis.analyze mixedWidths (.ofProgram mixedWidths) {} f) (.exact 0xffff 32) ∧
        32 = Arch.arm32.registerBits ∧ (0xffff : Word).toNat < 2 ^ Arch.arm32.registerBits) ∧
      Fact.Proper .arm32 (Config.trackedFor {} .arm32) ⟨⟨0x100c, 1⟩, 0xffff, 32⟩ := by
  obtain ⟨hvalues, hfacts, -⟩ := exact_values_full_width mixedWidths {}
  obtain ⟨f, hf, hshows⟩ := exists_shows_of_mem_facts fact_mixedWidths
  exact ⟨⟨f, hf, hshows, hvalues _ f _ _ hshows⟩, hfacts _ fact_mixedWidths⟩

end Program

end CallFacts
