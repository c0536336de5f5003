import CallFacts.Proofs.Frame
import CallFacts.Proofs.SiteValues

/-!
# Constants before calls

The last effect that writes a register before a call decides what is known of the register there, whatever arrives at
the block and whatever else its instructions do. If that effect loads a constant, the constant is what the block shows,
and it becomes a fact unless another observation at the same address shows something else.
-/

namespace CallFacts

/-! ### The last write of a register -/

namespace Effect

variable {r : Register}

/-- The last of some effects that writes a register. -/
def lastWrite? (es : List Effect) (r : Register) : Option Effect := (es.filter fun e => r ∈ e.written).getLast?

theorem lastWrite?_append (es fs : List Effect) (r : Register) :
    lastWrite? (es ++ fs) r = (lastWrite? fs r).or (lastWrite? es r) := by
  rw [lastWrite?, List.filter_append, List.getLast?_append]
  rfl

theorem lastWrite?_eq_none_iff {es : List Effect} : lastWrite? es r = none ↔ ∀ e ∈ es, r ∉ e.written := by
  simp only [lastWrite?, List.getLast?_eq_none_iff, List.filter_eq_nil_iff, decide_eq_true_eq]

end Effect

namespace State

variable {s : State} {bits : Nat} {r q : Register} {v : Word}

/-- Of several writes of one register the last one counts. -/
theorem get_writes_of_lastWrite? {es : List Effect} {e : Effect} {value : Effect → Value} (hr : r ∈ s.tracked)
    (h : Effect.lastWrite? es r = some e) :
    (es.foldl (fun u e => u.assign e.written (value e)) s).get r = value e := by
  induction es using List.reverseRecOn with
  | nil => cases h
  | append_singleton es new ih =>
    rw [List.foldl_append, List.foldl_cons, List.foldl_nil, get_assign, tracked_writes]
    rw [Effect.lastWrite?_append] at h
    by_cases hnew : r ∈ new.written
    · have hlast : Effect.lastWrite? [new] r = some new := by simp [Effect.lastWrite?, hnew]
      rw [hlast, Option.some_or, Option.some.injEq] at h
      rw [if_pos ⟨hr, hnew⟩, h]
    · have hlast : Effect.lastWrite? [new] r = none := Effect.lastWrite?_eq_none_iff.mpr (by simpa using hnew)
      rw [hlast, Option.none_or] at h
      rw [if_neg fun hboth => hnew hboth.2, ih h]

/-- A constant that is written last is there afterwards, whatever was there before. -/
theorem get_applyAll_of_lastWrite? {is : List Instruction} (hr : r ∈ s.tracked)
    (h : Effect.lastWrite? (is.flatMap Instruction.effects) r = some (.immediate q v)) :
    (s.applyAll bits is).get r = .ofWord v bits := by
  induction is using List.reverseRecOn with
  | nil => cases h
  | append_singleton is i ih =>
    rw [List.flatMap_append, List.flatMap_singleton, Effect.lastWrite?_append] at h
    rw [applyAll, List.foldl_append, List.foldl_cons, List.foldl_nil, ← applyAll]
    cases hi : Effect.lastWrite? i.effects r with
    | some e =>
      rw [hi, Option.some_or, Option.some.injEq] at h
      have htracked : r ∈ (s.applyAll bits is).tracked := by rwa [tracked_applyAll]
      rw [apply, get_writes_of_lastWrite? htracked hi, h, evaluate]
    | none =>
      rw [hi, Option.none_or] at h
      have hkept : r ∉ i.written := fun hwritten => by
        obtain ⟨e, he, hmem⟩ := Instruction.mem_written.mp hwritten
        exact Effect.lastWrite?_eq_none_iff.mp hi e he hmem
      rw [get_apply_of_not_mem hkept, ih h]

end State

/-- The low bits of a word as a remainder. -/
theorem Word.keepLow_eq_ofNat (bits : Nat) (w : Word) : keepLow bits w = BitVec.ofNat 64 (w.toNat % 2 ^ bits) := by
  have hlt : w.toNat % 2 ^ bits < 2 ^ 64 := Nat.lt_of_le_of_lt (Nat.mod_le _ _) w.isLt
  apply BitVec.eq_of_toNat_eq
  rw [toNat_keepLow, BitVec.toNat_ofNat, Nat.mod_eq_of_lt hlt]
  rfl

/-! ### What an observation tells of a register -/

/-- A register that is not listed has not been written. -/
def Observation.valueOf (o : Observation) (r : Register) : Value := (o.values.lookup r).getD .bottom

theorem valueOf_toList {s : State} {r : Register} (address : Word) (hr : r ∈ s.tracked) :
    (⟨address, s.toList⟩ : Observation).valueOf r = s.get r := by
  rw [Observation.valueOf]
  cases hlookup : s.toList.lookup r with
  | some v =>
    obtain ⟨before, after, heq, -⟩ := List.lookup_eq_some_iff.mp hlookup
    have hmem : (r, v) ∈ s.toList := by simp [heq]
    exact (State.mem_toList.mp hmem).2.1.symm
  | none =>
    by_contra hwritten
    have hmem : (r, s.get r) ∈ s.toList := State.mem_toList.mpr ⟨hr, rfl, Ne.symm hwritten⟩
    exact absurd rfl (bne_iff_ne.mp (List.lookup_eq_none_iff.mp hlookup _ hmem))

namespace Program

variable {p : Program} {c : Config} {f : Function} {a : FunctionAnalysis} {b : BlockId} {last : Instruction}
  {r : Register} {v : Word}

/-- Where a value is shown, some observation has it, and where an observation has a value other than that of a
register that has not been written, it is shown. -/
theorem shownAt_iff_valueOf {address : Word} {w : Value} (hr : r ∈ c.trackedFor p.arch) (hw : w ≠ .bottom) :
    ShownAt p.arch (p.observations c) ⟨address, r⟩ w ↔ ∃ f ∈ p.functions, ∃ a,
      FunctionAnalysis.analyze p (.ofProgram p) c f = .ok a ∧
        ∃ o ∈ a.observations, p.arch.normalize o.address = address ∧ o.valueOf r = w := by
  rw [shownAt_observations_iff]
  constructor
  · rintro ⟨-, -, f, hf, a, ha, b, s, last, hs, hobserves, haddress, hget⟩
    have htracked : r ∈ (p.beforeLast b s).tracked := by
      rwa [tracked_beforeLast, FunctionAnalysis.tracked_entryState? ha hs]
    refine ⟨f, hf, a, ha, _, (FunctionAnalysis.mem_observations_iff_observes ha).mpr
      ⟨b, s, last, hs, hobserves, rfl⟩, haddress, ?_⟩
    rw [valueOf_toList _ htracked, hget]
  · rintro ⟨f, hf, a, ha, o, ho, haddress, hvalue⟩
    obtain ⟨b, s, last, hs, hobserves, rfl⟩ := (FunctionAnalysis.mem_observations_iff_observes ha).mp ho
    have htracked : r ∈ (p.beforeLast b s).tracked := by
      rwa [tracked_beforeLast, FunctionAnalysis.tracked_entryState? ha hs]
    rw [valueOf_toList _ htracked] at hvalue
    exact ⟨hr, hw, f, hf, a, ha, b, s, last, hs, hobserves, haddress, hvalue⟩

/-- A constant that a reached block loads before its call is a fact there, unless some observation at that address
shows another value. -/
theorem constant_mem_facts_iff (hf : f ∈ p.functions)
    (ha : FunctionAnalysis.analyze p (.ofProgram p) c f = .ok a) (hb : a.graph.Reaches b) (hcall : p.IsCallSite b)
    (hlast : (p.instructions b).getLast? = some last) (hr : r ∈ c.trackedFor p.arch)
    (hwrite : Effect.lastWrite? ((p.instructions b).dropLast.flatMap Instruction.effects) r = some (.immediate r v)) :
    ⟨⟨p.arch.normalize last.address, r⟩, BitVec.ofNat 64 (v.toNat % 2 ^ p.arch.registerBits), p.arch.registerBits⟩ ∈
        (p.analyze c).facts.facts ↔
      ∀ f' ∈ p.functions, ∀ a', FunctionAnalysis.analyze p (.ofProgram p) c f' = .ok a' →
        ∀ o ∈ a'.observations, p.arch.normalize o.address = p.arch.normalize last.address →
          o.valueOf r = .bottom ∨ o.valueOf r =
            .exact (BitVec.ofNat 64 (v.toNat % 2 ^ p.arch.registerBits)) p.arch.registerBits := by
  rw [← Word.keepLow_eq_ofNat, mem_facts_analyze_iff]
  have hshown : ShownAt p.arch (p.observations c) ⟨p.arch.normalize last.address, r⟩
      (.exact (Word.keepLow p.arch.registerBits v) p.arch.registerBits) := by
    obtain ⟨s, hs⟩ := FunctionAnalysis.exists_entryState? ha hb
    have htracked : r ∈ s.tracked := by rwa [FunctionAnalysis.tracked_entryState? ha hs]
    exact shownAt_observations_iff.mpr ⟨hr, by simp, f, hf, a, ha, b, s, last, hs, ⟨.inr hcall, hlast⟩, rfl,
      State.get_applyAll_of_lastWrite? htracked hwrite⟩
  constructor
  · rintro ⟨-, hbelow⟩ f' hf' a' ha' o ho haddress
    by_cases hbottom : o.valueOf r = .bottom
    · exact .inl hbottom
    · have hvalue := hbelow _ ((shownAt_iff_valueOf hr hbottom).mpr ⟨f', hf', a', ha', o, ho, haddress, rfl⟩)
      rcases hvalue with h | h | h
      · exact .inl h
      · cases h
      · exact .inr h
  · intro hagree
    refine ⟨hshown, fun w hw => ?_⟩
    by_cases hbottom : w = .bottom
    · exact hbottom ▸ Value.bottom_le _
    · obtain ⟨f', hf', a', ha', o, ho, haddress, rfl⟩ := (shownAt_iff_valueOf hr hbottom).mp hw
      rw [(hagree f' hf' a' ha' o ho haddress).resolve_left hbottom]
      exact Value.le_refl _

/-- One of the instructions before a call writes a register twice, and a call of another function has the same address
but for the mode bit. -/
def constantThenCall : Program where
  arch := .arm32
  blocks := #[
    ⟨0x1000, [⟨0x1000, 4, "ldr", [.clobber 0]⟩, ⟨0x1004, 4, "mov", [.copy 0 1, .immediate 0 0x100000005]⟩,
      ⟨0x1008, 4, "add", [.offset 1 0 1 32]⟩, ⟨0x100c, 4, "bl", [.clobber 14]⟩]⟩,
    ⟨0x100d, [⟨0x100d, 2, "bl", [.clobber 14]⟩]⟩,
    ⟨0x2000, []⟩]
  edges := [⟨⟨0⟩, ⟨2⟩, .call⟩, ⟨⟨1⟩, ⟨2⟩, .call⟩]
  functions := [⟨"once", ⟨0⟩, [⟨0⟩], [(1, 9)]⟩, ⟨"thumb", ⟨1⟩, [⟨1⟩], [(1, 9)]⟩]

/-- The constant is cut to the width of the register, and the other call says nothing about it. -/
theorem constantThenCall_constant : ⟨⟨0x100c, 0⟩, 5, 32⟩ ∈ (constantThenCall.analyze {}).facts.facts := by
  obtain ⟨g, hg⟩ := FlowGraph.exists_build_of_wellFormed
    (p := constantThenCall) (f := ⟨"once", ⟨0⟩, [⟨0⟩], [(1, 9)]⟩) ⟨by decide, by decide, by decide, by decide⟩
  obtain ⟨a, ha, rfl⟩ := FunctionAnalysis.exists_analyze (c := {}) hg (by decide)
  have hcall : constantThenCall.IsCallSite ⟨0⟩ := ⟨⟨⟨0⟩, ⟨2⟩, .call⟩, by decide, rfl, rfl⟩
  have hlast : (constantThenCall.instructions ⟨0⟩).getLast? = some ⟨0x100c, 4, "bl", [.clobber 14]⟩ := rfl
  have hfact := constant_mem_facts_iff (r := 0) (v := 0x100000005) List.mem_cons_self ha (FlowGraph.reaches_entry hg)
    hcall hlast (by decide) (by decide)
  have hvalue : BitVec.ofNat 64 ((0x100000005 : Word).toNat % 2 ^ constantThenCall.arch.registerBits) = 5 := by decide
  have haddress : constantThenCall.arch.normalize 0x100c = 0x100c := by decide
  rw [hvalue, haddress] at hfact
  refine hfact.mpr fun f hf a' ha' o ho _ => ?_
  have hshown : ∀ f ∈ constantThenCall.functions, ∀ os ∈
      (FunctionAnalysis.analyze constantThenCall (.ofProgram constantThenCall) {} f).toOption.map
        FunctionAnalysis.observations, ∀ o ∈ os, o.valueOf 0 = .bottom ∨ o.valueOf 0 = .exact 5 32 := by
    decide +kernel
  exact hshown f hf a'.observations (by rw [ha']; rfl) o ho

end Program

end CallFacts
