import CallFacts.Proofs.EdgeScan
import CallFacts.Proofs.Findings

/-!
# What is reported of each member

Once the states of a function are stable, its members are gone through in order. A member that is not reached gets a
warning and nothing else; a member that is reached gets a warning for every instruction that is not understood and,
if its last instruction is observed, the values known just before that instruction. Nothing is reported twice and
nothing else is reported.
-/

namespace CallFacts

/-! ### States as lists -/

/-- The registers of a set are listed in ascending order. -/
theorem State.ascending_toList (s : State) : s.toList.Pairwise fun x y => x.1 < y.1 := by
  have hall : (s.tracked.toList.map fun r => (r, s.get r)).Pairwise fun x y => x.1 < y.1 :=
    List.pairwise_map.mpr s.tracked.ascending_toList
  exact hall.filter _

/-! ### Going through the members -/

section

variable {α β γ : Type} {R : β → γ → Prop} {name : α → β}

/-- What is picked out while going through a list, against the names of the places where something is picked. -/
theorem forall₂_filter_filterMap {pick : α → Option γ} {q : β → Bool}
    (hsome : ∀ x y, pick x = some y → q (name x) = true ∧ R (name x) y)
    (hnone : ∀ x, pick x = none → q (name x) = false) (xs : List α) :
    List.Forall₂ R ((xs.map name).filter q) (xs.filterMap pick) := by
  induction xs with
  | nil => exact .nil
  | cons x xs ih =>
    rw [List.map_cons]
    cases hx : pick x with
    | none =>
      rw [List.filterMap_cons_none hx, List.filter_cons_of_neg (by simp [hnone x hx])]
      exact ih
    | some y =>
      obtain ⟨hq, hy⟩ := hsome x y hx
      rw [List.filterMap_cons_some hx, List.filter_cons_of_pos hq]
      exact .cons hy ih

end

namespace FlowGraph

variable {p : Program} {ix : EdgeIndex} {f : Function} {g : FlowGraph}

/-- The members in local order are the blocks of the function, each where it is listed first. -/
theorem map_member_finRange (h : build p ix f = .ok g) :
    (List.finRange g.members.size).map g.member = f.blocks.eraseDups := by
  rw [← distinct_eq_eraseDups, ← (members_of_build h ▸ rfl : g.members.toList = distinct f.blocks)]
  exact List.map_getElem_finRange g.members.toList

end FlowGraph

namespace FunctionAnalysis

variable {p : Program} {ix : EdgeIndex} {c : Config} {f : Function} {a : FunctionAnalysis} {b : BlockId}

/-! ### What is to be reported -/

/-- The last instruction of a block is observed: paths lead to the block, it is not empty, and the configuration
observes all exits or a call leaves the block. -/
def IsObserved (p : Program) (ix : EdgeIndex) (c : Config) (a : FunctionAnalysis) (b : BlockId) : Prop :=
  a.isReachable b = true ∧ p.instructions b ≠ [] ∧
    (c.observe = .blockExits ∨ ∃ e ∈ ix.leaving b, e.kind = .call)

instance : DecidablePred (IsObserved p ix c a) := fun b =>
  inferInstanceAs (Decidable (a.isReachable b = true ∧ p.instructions b ≠ [] ∧
    (c.observe = .blockExits ∨ ∃ e ∈ ix.leaving b, e.kind = .call)))

/-- The observation is at the last instruction of the block. It lists in ascending order the followed registers that
have been written when all instructions before that one have acted on the entry state. -/
structure IsBeforeLast (p : Program) (c : Config) (a : FunctionAnalysis) (b : BlockId) (o : Observation) : Prop where
  address : (p.instructions b).getLast?.map Instruction.address = some o.address
  ascending : o.values.Pairwise fun x y => x.1 < y.1
  values : ∃ s, a.entryState? b = some s ∧ ∀ r v, (r, v) ∈ o.values ↔
    r ∈ c.trackedFor p.arch ∧ v ≠ .bottom ∧
      (s.applyAll p.arch.registerBits (p.instructions b).dropLast).get r = v

/-- All warnings about a block. -/
inductive Warns (p : Program) (f : Function) (a : FunctionAnalysis) (b : BlockId) : List Diagnostic → Prop
  /-- No path leads to the block, so its instructions are not looked at. -/
  | unreached {block : Block} (hb : a.isReachable b = false) (hblock : p.block? b = some block) :
      Warns p f a b [⟨f.name, .unreachable b block.address⟩]
  /-- Each instruction that is not understood, in order. -/
  | reached (hb : a.isReachable b = true) :
      Warns p f a b (((p.instructions b).filter Instruction.hasDecodeGap).map fun i =>
        ⟨f.name, .decodeGap i.address i.mnemonic⟩)

theorem Warns.eq_of_reached {ds : List Diagnostic} (h : Warns p f a b ds) (hb : a.isReachable b = true) :
    ds = ((p.instructions b).filter Instruction.hasDecodeGap).map fun i =>
      ⟨f.name, .decodeGap i.address i.mnemonic⟩ := by
  cases h with
  | unreached hnot => simp [hb] at hnot
  | reached => rfl

theorem Warns.eq_of_unreached {ds : List Diagnostic} (h : Warns p f a b ds) (hb : a.isReachable b = false) :
    ∃ block, p.block? b = some block ∧ ds = [⟨f.name, .unreachable b block.address⟩] := by
  cases h with
  | unreached _ hblock => exact ⟨_, hblock, rfl⟩
  | reached hreached => simp [hb] at hreached

/-! ### What is reported -/

theorem isReachable_member (h : FlowGraph.build p ix f = .ok a.graph) (i : Fin a.graph.members.size) :
    a.isReachable (a.graph.member i) = (a.run.entries.get i).isSome := by
  rw [isReachable, entryState?_member h]

theorem isObserved_eq_true_iff (h : FlowGraph.build p ix f = .ok a.graph) (i : Fin a.graph.members.size) :
    isObserved c a.graph i = true ↔ c.observe = .blockExits ∨ ∃ e ∈ ix.leaving (a.graph.member i), e.kind = .call := by
  rw [isObserved]
  cases c.observe with
  | callSites => simp [FlowGraph.callSites_of_build h, FlowGraph.isCallSite]
  | blockExits => simp

theorem isBeforeLast_of_observeBlock? (h : analyze p ix c f = .ok a) {s : State} {o : Observation}
    (hs : a.entryState? b = some s) (ho : observeBlock? p.arch.registerBits s (p.instructions b) = some o) :
    IsBeforeLast p c a b o := by
  obtain ⟨last, hlast, rfl⟩ := Option.map_eq_some_iff.mp ho
  refine ⟨by rw [hlast, Option.map_some], State.ascending_toList _, s, hs, fun r v => ?_⟩
  rw [State.mem_toList, State.tracked_applyAll, tracked_entryState? h hs]
  exact and_congr_right fun _ => And.comm

theorem observations_before_last (h : analyze p ix c f = .ok a) :
    List.Forall₂ (IsBeforeLast p c a) (f.blocks.eraseDups.filter fun b => IsObserved p ix c a b) a.observations := by
  obtain ⟨hbuild, -, hobservations⟩ := analyze_eq_ok h
  rw [hobservations, observationsOf, ← FlowGraph.map_member_finRange hbuild]
  refine forall₂_filter_filterMap ?_ ?_ _
  · intro i o ho
    split at ho
    · next s hs =>
      split at ho
      · next hobserved =>
        have hstate := (entryState?_member hbuild i).trans hs
        have hnonempty : p.instructions (a.graph.member i) ≠ [] := by
          intro hempty
          simp [hempty, observeBlock?] at ho
        refine ⟨decide_eq_true ⟨?_, hnonempty, (isObserved_eq_true_iff hbuild i).mp hobserved⟩,
          isBeforeLast_of_observeBlock? h hstate ho⟩
        rw [isReachable, hstate]
        rfl
      · cases ho
    · cases ho
  · intro i hi
    refine decide_eq_false ?_
    rintro ⟨hreachable, hnonempty, hobserved⟩
    rw [isReachable_member hbuild] at hreachable
    obtain ⟨s, hs⟩ := Option.isSome_iff_exists.mp hreachable
    rw [hs] at hi
    simp only [(isObserved_eq_true_iff hbuild i).mpr hobserved, if_true, observeBlock?, Option.map_eq_none_iff,
      List.getLast?_eq_none_iff] at hi
    exact hnonempty hi

theorem warns_member (h : analyze p ix c f = .ok a) (i : Fin a.graph.members.size) :
    Warns p f a (a.graph.member i) ((match a.run.entries.get i with
      | some _ => gapsOf (p.instructions (a.graph.member i))
      | none => [.unreachable (a.graph.member i) (addressOf p (a.graph.member i))]).map fun finding =>
        ⟨f.name, finding⟩) := by
  obtain ⟨hbuild, -⟩ := analyze_eq_ok h
  have hreachable := isReachable_member hbuild i
  cases hentry : a.run.entries.get i with
  | some s =>
    simp only [gapsOf, List.map_map]
    exact .reached (by rw [hreachable, hentry]; rfl)
  | none =>
    have hcontains := (FlowGraph.build_eq_ok hbuild).1 _ ((FlowGraph.mem_blocks_iff hbuild).mpr ⟨i, rfl⟩)
    have hindex : (a.graph.member i).index < p.blocks.size := by simpa [Program.contains] using hcontains
    have hblock : p.block? (a.graph.member i) = some p.blocks[(a.graph.member i).index] :=
      Array.getElem?_eq_getElem hindex
    simp only [addressOf, hblock, List.map_cons, List.map_nil]
    exact .unreached (by rw [hreachable, hentry]; rfl) hblock

/-- What is reported of an analyzed function: an observation for each member whose last instruction is observed, in
member order, and the warnings about each member, in member order. -/
theorem analyze_reports_members (h : analyze p ix c f = .ok a) :
    (∀ b, a.isReachable b = true ↔ a.graph.Reaches b) ∧
    List.Forall₂ (IsBeforeLast p c a) (f.blocks.eraseDups.filter fun b => IsObserved p ix c a b) a.observations ∧
    (∃ sections, List.Forall₂ (Warns p f a) f.blocks.eraseDups sections ∧ a.diagnostics = sections.flatten) ∧
    (ix = .ofProgram p → ∀ b ∈ f.blocks, (∃ e ∈ ix.leaving b, e.kind = .call) ↔ p.IsCallSite b) := by
  obtain ⟨hbuild, -⟩ := analyze_eq_ok h
  refine ⟨isSome_entryState?_iff h, observations_before_last h, ?_, ?_⟩
  · rw [diagnostics_of_analyze h, findingsOf, List.map_flatMap, List.flatMap_def,
      ← FlowGraph.map_member_finRange hbuild]
    refine ⟨_, ?_, rfl⟩
    rw [List.forall₂_map_left_iff, List.forall₂_map_right_iff, List.forall₂_same]
    exact fun i _ => warns_member h i
  · rintro rfl b hb
    have hcontains := (FlowGraph.build_eq_ok hbuild).1 b hb
    rw [← FlowGraph.isCallSite_iff hcontains, FlowGraph.isCallSite, List.any_eq_true]
    simp only [beq_iff_eq]

/-- A block that calls, with an instruction that is not understood, an empty block after it, and a block to which no
path leads. -/
def patchyCall : Program where
  arch := .arm32
  blocks := #[
    ⟨0x1000, [⟨0x1000, 4, "mov", [.immediate 1 7]⟩, ⟨0x1004, 4, "crc", [.unmodeled (.ofList [0])]⟩,
      ⟨0x1008, 4, "bl", [.clobber 14]⟩]⟩,
    ⟨0x100c, []⟩,
    ⟨0x1010, [⟨0x1010, 4, "crc", [.unmodeled (.ofList [0])]⟩]⟩,
    ⟨0x2000, []⟩]
  edges := [⟨⟨0⟩, ⟨3⟩, .call⟩, ⟨⟨0⟩, ⟨1⟩, .fallthrough⟩]
  functions := [⟨"patchy", ⟨0⟩, [⟨0⟩, ⟨2⟩, ⟨0⟩, ⟨1⟩], []⟩]

/-- The only function of the program. -/
def patchyCallFunction : Function := ⟨"patchy", ⟨0⟩, [⟨0⟩, ⟨2⟩, ⟨0⟩, ⟨1⟩], []⟩

/-- The instruction in the block that is not reached gets no warning of its own. -/
theorem patchyCall_reported : ∃ a,
    analyze patchyCall (.ofProgram patchyCall) {} patchyCallFunction = .ok a ∧
      (∃ o, a.observations = [o] ∧ IsBeforeLast patchyCall {} a ⟨0⟩ o) ∧
      a.diagnostics = [⟨"patchy", .decodeGap 0x1004 "crc"⟩, ⟨"patchy", .unreachable ⟨2⟩ 0x1010⟩] := by
  have hwell : patchyCallFunction.WellFormed patchyCall := ⟨by decide, by decide, by decide, by decide⟩
  obtain ⟨g, hg⟩ := FlowGraph.exists_build_of_wellFormed hwell
  obtain ⟨a, ha, -⟩ := exists_analyze (c := {}) hg (by decide)
  have hreached : (analyze patchyCall (.ofProgram patchyCall) {} patchyCallFunction).toOption.map
      (fun a => [a.isReachable ⟨0⟩, a.isReachable ⟨2⟩, a.isReachable ⟨1⟩]) = some [true, false, true] := by
    decide +kernel
  simp only [ha, Except.toOption, Option.map_some, Option.some.injEq, List.cons.injEq, and_true] at hreached
  obtain ⟨hcall, hcut, hempty⟩ := hreached
  obtain ⟨-, hobservations, ⟨sections, hsections, hdiagnostics⟩, -⟩ := analyze_reports_members ha
  have hmembers : patchyCallFunction.blocks.eraseDups = [⟨0⟩, ⟨2⟩, ⟨1⟩] := by decide
  refine ⟨a, ha, ?_, ?_⟩
  · have hfilter : ([⟨0⟩, ⟨2⟩, (⟨1⟩ : BlockId)].filter fun b =>
        IsObserved patchyCall (.ofProgram patchyCall) {} a b) = [⟨0⟩] := by
      have hnone : patchyCall.instructions ⟨1⟩ = [] := rfl
      have hsome : patchyCall.instructions ⟨0⟩ ≠ [] := by decide
      have hleaves : ∃ e ∈ (EdgeIndex.ofProgram patchyCall).leaving ⟨0⟩, e.kind = .call := by decide
      simp [IsObserved, hcall, hcut, hnone, hsome, hleaves]
    rw [hmembers, hfilter] at hobservations
    obtain ⟨o, _, ho, hnil, heq⟩ := List.forall₂_cons_left_iff.mp hobservations
    cases hnil
    exact ⟨o, heq, ho⟩
  · rw [hmembers] at hsections
    simp only [List.forall₂_cons_left_iff, List.forall₂_nil_left_iff] at hsections
    obtain ⟨_, _, hcallWarns, ⟨_, _, hcutWarns, ⟨_, _, hemptyWarns, rfl, rfl⟩, rfl⟩, rfl⟩ := hsections
    obtain ⟨block, hblock, hcutWarns⟩ := hcutWarns.eq_of_unreached hcut
    obtain rfl : _ = block := Option.some.inj hblock
    rw [hdiagnostics, hcallWarns.eq_of_reached hcall, hcutWarns, hemptyWarns.eq_of_reached hempty]
    decide

end FunctionAnalysis

end CallFacts
