import CallFacts.Proofs.Gathering
import CallFacts.Proofs.Machine

/-!
# Facts hold in every run

A value describes the content of a register: `bottom` says that it is undefined, an exact value that
it is undefined or holds that pattern. Instructions, ways and joins keep states that describe the
register files of runs; so the least states describe every run that gets to a block, and a fact,
which is above all that is observed at its site, holds there in every run.
-/

namespace CallFacts

variable {bits : Nat}

/-! ### Arithmetic on words and on register contents -/

namespace Word

theorem setWidth_ofInt_of_le {k width : Nat} (h : k ≤ width) (n : Int) :
    (BitVec.ofInt width n).setWidth k = BitVec.ofInt k n := by
  apply BitVec.eq_of_toNat_eq
  have hdvd : ((2 ^ k : Nat) : Int) ∣ ((2 ^ width : Nat) : Int) :=
    Int.natCast_dvd_natCast.mpr (Nat.pow_dvd_pow 2 h)
  zify
  rw [BitVec.toNat_setWidth, Int.natCast_emod, BitVec.toNat_ofInt, BitVec.toNat_ofInt,
    Int.toNat_of_nonneg, Int.toNat_of_nonneg, Int.emod_emod_of_dvd _ hdvd]
  all_goals exact Int.emod_nonneg _ (by positivity)

/-- Wrapping a number to a width is cutting down its word. -/
theorem setWidth_wrapped (h : bits ≤ 64) (width : Nat) (n : Int) :
    (Effect.wrapped bits width n).setWidth 64 = keepLow bits (keepLow width (BitVec.ofInt 64 n)) := by
  simp only [Effect.wrapped, keepLow_eq_setWidth]
  by_cases hwidth : width ≤ 64
  · rw [setWidth_ofInt_of_le hwidth, BitVec.setWidth_setWidth (u := width) (v := 64) (by omega)]
  · rw [setWidth_ofInt_of_le (show bits ≤ width by omega),
      BitVec.setWidth_setWidth (u := 64) (v := width) (by omega),
      BitVec.setWidth_setWidth (u := 64) (v := 64) (by omega), setWidth_ofInt_of_le h]

theorem ofInt_reading (h : bits ≤ 64) (source : Nat) (signed : Bool) (z : BitVec bits) :
    BitVec.ofInt 64 (Effect.reading source signed z) =
      (if signed then signExtendLow source else keepLow source) (z.setWidth 64) := by
  cases signed with
  | true =>
    simp only [Effect.reading, if_true, signExtendLow_eq_signExtend]
    rw [BitVec.setWidth_setWidth (u := bits) (v := 64) (by omega)]
    rfl
  | false =>
    simp only [Effect.reading, Bool.false_eq_true, if_false, keepLow_eq_setWidth]
    rw [BitVec.setWidth_setWidth (u := bits) (v := 64) (by omega), BitVec.ofInt_natCast, BitVec.ofNat_toNat]

theorem ofInt_affine (z : BitVec bits) (multiplier offset : Word) :
    BitVec.ofInt 64 (z.toNat * multiplier.toInt + offset.toInt) = z.setWidth 64 * multiplier + offset := by
  rw [BitVec.ofInt_add, BitVec.ofInt_mul, BitVec.ofInt_toInt, BitVec.ofInt_toInt, BitVec.ofInt_natCast,
    BitVec.ofNat_toNat]

end Word

/-! ### Values and states that describe -/

/-- The value is right about the content of a register. -/
def Value.Describes : Value → Option (BitVec bits) → Prop
  | bottom, x => x = none
  | exact pattern _, x => ∀ y, x = some y → y.setWidth 64 = pattern
  | top, _ => True

namespace Value

variable {v w : Value} {x : Option (BitVec bits)}

theorem Describes.mono (hx : v.Describes x) (h : v ≤ w) : w.Describes x := by
  rcases h with rfl | rfl | rfl
  · cases w with
    | bottom => exact hx
    | exact pattern width =>
      intro y hy
      cases hx.symm.trans hy
    | top => trivial
  · trivial
  · exact hx

theorem describes_ofWord (word : Word) :
    (ofWord word bits).Describes (some (word.setWidth bits)) := by
  intro y hy
  cases hy
  exact (Word.keepLow_eq_setWidth bits word).symm

/-- A function of patterns, seen at the width of a full register, describes the function of register
contents that it stands for. -/
theorem Describes.mapExact {f : Word → Word} {content : BitVec bits → BitVec bits} {width : Nat}
    (hf : ∀ z, (content z).setWidth 64 = Word.keepLow bits (Word.keepLow width (f (z.setWidth 64))))
    (hx : v.Describes x) : ((Value.mapExact f width v).widen bits).Describes (x.map content) := by
  cases v with
  | bottom =>
    have hnone : x = none := hx
    rw [hnone]
    rfl
  | exact pattern _ =>
    intro y hy
    obtain ⟨z, hz, rfl⟩ := Option.map_eq_some_iff.mp hy
    have hpattern : z.setWidth 64 = pattern := hx z hz
    rw [hf, hpattern]
    rfl
  | top => trivial

end Value

/-- The values of all registers are right about a register file. -/
def State.Describes (s : State) (σ : RegisterFile bits) : Prop := ∀ r, (s.get r).Describes (σ r)

namespace State

variable {s t : State} {σ τ now next : RegisterFile bits}

theorem Describes.mono (h : s.Describes σ) (hst : s.Below t) : t.Describes σ :=
  fun r => (h r).mono (hst.get r)

/-- Whatever an effect writes is described by its value in a state that describes what it reads. -/
theorem Describes.evaluate (hbits : bits ≤ 64) (h : s.Describes σ) {e : Effect} {x : Option (BitVec bits)}
    (hx : e.MayYield σ x) : (s.evaluate bits e).Describes x := by
  cases e with
  | immediate dst value =>
    cases hx
    exact Value.describes_ofWord value
  | copy dst src =>
    cases hx
    exact h src
  | extend dst src source target signed =>
    cases hx
    refine Value.Describes.mapExact ?_ (h src)
    intro z
    rw [Word.setWidth_wrapped hbits, Word.ofInt_reading hbits]
  | affine dst src multiplier offset width =>
    cases hx
    refine Value.Describes.mapExact ?_ (h src)
    intro z
    rw [Word.setWidth_wrapped hbits, Word.ofInt_affine]
  | clobber dst => trivial
  | unmodeled written => trivial

theorem Describes.assign (h : s.Describes now) {set : RegisterSet} {v : Value}
    (hset : ∀ r ∈ set, v.Describes (next r)) (hrest : ∀ r, r ∉ set → next r = now r) :
    (s.assign set v).Describes next := by
  intro r
  rw [get_assign]
  by_cases hr : r ∈ set
  · by_cases hs : r ∈ s.tracked
    · simpa [hr, hs] using hset r hr
    · simp [hs, get_of_not_mem hs, Value.Describes]
  · rw [if_neg fun h => hr h.2, hrest r hr]
    exact h r

theorem Describes.writes (hbits : bits ≤ 64) (h : s.Describes σ) {es : List Effect} (hnow : t.Describes now)
    (hes : InTurn (Effect.Writes σ) es now next) :
    (es.foldl (fun u e => u.assign e.written (s.evaluate bits e)) t).Describes next := by
  induction hes generalizing t with
  | done => exact hnow
  | next hstep hrest ih =>
    rw [List.foldl_cons]
    exact ih (hnow.assign (fun r hr => h.evaluate hbits (hstep.1 r hr)) hstep.2)

theorem Describes.apply (hbits : bits ≤ 64) (h : s.Describes σ) {i : Instruction} (hi : i.Executes σ τ) :
    (s.apply bits i).Describes τ := h.writes hbits h hi

theorem Describes.applyAll (hbits : bits ≤ 64) (h : s.Describes σ) {is : List Instruction}
    (his : Executes is σ τ) : (s.applyAll bits is).Describes τ := by
  induction his generalizing s with
  | done => exact h
  | next hstep hrest ih => exact ih (h.apply hbits hstep)

end State

/-! ### Runs along paths -/

namespace FunctionAnalysis

variable {p : Program} {ix : EdgeIndex} {c : Config} {f : Function} {g : FlowGraph} {a : FunctionAnalysis}

/-- The last of several entry values for one register counts. -/
theorem get_initialState (arch : Arch) {tracked : RegisterSet} (f : Function) {r : Register}
    (hr : r ∈ tracked) :
    (initialState arch tracked f).get r =
      match f.entryValues.reverse.lookup r with
      | some value => .ofWord value arch.registerBits
      | none => .bottom := by
  rw [initialState]
  generalize f.entryValues = values
  induction values using List.reverseRecOn with
  | nil => exact State.get_new hr
  | append_singleton values last ih =>
    obtain ⟨q, value⟩ := last
    rw [List.foldl_append, List.reverse_concat]
    show (State.set _ q (.ofWord value arch.registerBits)).get r = _
    rw [State.get_set, tracked_foldl_set, State.tracked_new]
    by_cases hq : r = q
    · subst hq
      simp [hr]
    · have hlookup : (r == q) = false := by simpa using hq
      rw [List.lookup_cons, hlookup, if_neg (by simpa [hr] using hq)]
      exact ih

theorem describes_initialState {σ : RegisterFile p.arch.registerBits}
    (hσ : ∀ r ∈ c.trackedFor p.arch, σ r = f.entryContent p.arch.registerBits r) :
    (initialState p.arch (c.trackedFor p.arch) f).Describes σ := by
  intro r
  by_cases hr : r ∈ c.trackedFor p.arch
  · rw [get_initialState p.arch f hr, hσ r hr, Function.entryContent]
    cases f.entryValues.reverse.lookup r with
    | none => rfl
    | some value => exact Value.describes_ofWord value
  · rw [State.get_of_not_mem (by simpa using hr)]
    trivial

theorem describes_carry {s : State} {way : Successor g.members.size}
    {σ τ : RegisterFile p.arch.registerBits} (h : s.Describes σ)
    (hpasses : way.Passes (c.callPolicy.clobbered p.arch (c.trackedFor p.arch)) σ τ) :
    ((problem p c f g).carry way s).Describes τ := by
  simp only [Dataflow.carry]
  split
  · exact h.assign (fun r _ => trivial) fun r hr => hpasses r fun _ => hr
  · next hafter =>
    intro r
    rw [hpasses r fun h => absurd h hafter]
    exact h r

/-- States that are closed under the flow of a function describe every run along every path. -/
theorem describes_of_arrives {φ : Fin g.members.size → State} (hφ : (problem p c f g).Solution φ)
    {i : Fin g.members.size} {path : g.Path i} {σ : RegisterFile p.arch.registerBits}
    (h : path.Arrives p c f σ) : (φ i).Describes σ := by
  induction h with
  | entry hentry => exact (describes_initialState hentry).mono hφ.start
  | @extend i path way hway σ τ υ _ hblock hpasses ih =>
    have hreachable : (problem p c f g).Reachable i := reachable_problem_iff.mpr ⟨path⟩
    refine State.Describes.mono ?_ (hφ.flow i hreachable way hway)
    exact describes_carry (ih.applyAll p.arch.registerBits_le hblock) hpasses

/-- The entry states of an analyzed function describe every run along every path. -/
theorem describes_entry (h : analyze p ix c f = .ok a) {i : Fin a.graph.members.size} {s : State}
    (hs : a.run.entries.get i = some s) {path : a.graph.Path i} {σ : RegisterFile p.arch.registerBits}
    (harrives : path.Arrives p c f σ) : s.Describes σ := by
  have hdescribes := describes_of_arrives (solution_of_analyze h (.new ∅)) harrives
  rwa [hs] at hdescribes

end FunctionAnalysis

/-! ### Facts -/

namespace Program

variable {p : Program} {c : Config} {fact : Fact} {f : Function} {a : FunctionAnalysis}

/-- Whatever path a run of an analyzed function follows to an observed instruction at the address of
a fact, just before that instruction the register of the fact is undefined or holds its value. -/
theorem fact_holds (hfact : fact ∈ (p.analyze c).facts.facts) (hf : f ∈ p.functions)
    (ha : FunctionAnalysis.analyze p (.ofProgram p) c f = .ok a) {i : Fin a.graph.members.size}
    (path : a.graph.Path i) (hobserved : FunctionAnalysis.ObservedAt p c a.graph i fact.site.address)
    {start before : RegisterFile p.arch.registerBits} (harrives : path.Arrives p c f start)
    (hblock : Executes (p.instructions (a.graph.member i)).dropLast start before) :
    before fact.site.register = none ∨
      ∃ w, before fact.site.register = some w ∧ w.toNat = fact.value.toNat := by
  obtain ⟨s, hs⟩ := (FunctionAnalysis.exists_entry_iff ha).mpr ⟨path⟩
  have hdescribes := (FunctionAnalysis.describes_entry ha hs harrives).applyAll p.arch.registerBits_le hblock
  have hexact := (hdescribes fact.site.register).mono (observed_le_fact hfact hf ha hobserved hs)
  cases hcontent : before fact.site.register with
  | none => exact .inl rfl
  | some w =>
    refine .inr ⟨w, rfl, ?_⟩
    have hlt : w.toNat < 2 ^ 64 :=
      Nat.lt_of_lt_of_le w.isLt (Nat.pow_le_pow_right (by decide) p.arch.registerBits_le)
    rw [← hexact w hcontent, BitVec.toNat_setWidth, Nat.mod_eq_of_lt hlt]

/-- A block that sets a register before a call may be skipped. -/
def skippedMove : Program where
  arch := .arm32
  blocks := #[
    ⟨0x1000, [⟨0x1000, 4, "beq", []⟩]⟩,
    ⟨0x1004, [⟨0x1004, 4, "mov", [.immediate 0 5]⟩]⟩,
    ⟨0x1008, [⟨0x1008, 4, "bl", [.clobber 14]⟩]⟩,
    ⟨0x100c, [⟨0x100c, 4, "bx", []⟩]⟩,
    ⟨0x2000, [⟨0x2000, 4, "bx", []⟩]⟩]
  edges := [⟨⟨0⟩, ⟨2⟩, .branch⟩, ⟨⟨0⟩, ⟨1⟩, .fallthrough⟩, ⟨⟨1⟩, ⟨2⟩, .fallthrough⟩, ⟨⟨2⟩, ⟨3⟩, .fallthrough⟩,
    ⟨⟨2⟩, ⟨4⟩, .call⟩]
  functions := [⟨"skip", ⟨0⟩, [⟨0⟩, ⟨1⟩, ⟨2⟩, ⟨3⟩], []⟩, ⟨"fun", ⟨4⟩, [⟨4⟩], []⟩]

/-- The function that calls. -/
def skippedMoveFunction : Function := ⟨"skip", ⟨0⟩, [⟨0⟩, ⟨1⟩, ⟨2⟩, ⟨3⟩], []⟩

/-- The flow graph of that function. -/
def skippedMoveGraph : FlowGraph where
  members := #[⟨0⟩, ⟨1⟩, ⟨2⟩, ⟨3⟩]
  entry := (0 : Fin 4)
  successors := #v[[⟨(2 : Fin 4), false⟩, ⟨(1 : Fin 4), false⟩], [⟨(2 : Fin 4), false⟩],
    [⟨(3 : Fin 4), true⟩], []]
  callSites := #v[false, false, true, false]

theorem build_skippedMove :
    FlowGraph.build skippedMove (.ofProgram skippedMove) skippedMoveFunction = .ok skippedMoveGraph := by
  cbv

theorem fact_skippedMove : ⟨⟨0x1008, 0⟩, 5, 32⟩ ∈ (skippedMove.analyze {}).facts.facts := by
  decide +kernel

theorem exists_analyze_skippedMove :
    ∃ a, FunctionAnalysis.analyze skippedMove (.ofProgram skippedMove) {} skippedMoveFunction = .ok a ∧
      a.graph = skippedMoveGraph :=
  FunctionAnalysis.exists_analyze build_skippedMove (by decide)

theorem observedAt_skippedMove :
    FunctionAnalysis.ObservedAt skippedMove {} skippedMoveGraph (2 : Fin 4) 0x1008 :=
  ⟨by decide, _, rfl, by decide⟩

/-- The path to the call through the block that sets the register. -/
def pathThroughMove : skippedMoveGraph.Path (2 : Fin 4) :=
  .extend (g := skippedMoveGraph) (.extend (g := skippedMoveGraph) .entry ⟨(1 : Fin 4), false⟩ (by decide))
    ⟨(2 : Fin 4), false⟩ (by decide)

/-- The path to the call that skips the block. -/
def pathAroundMove : skippedMoveGraph.Path (2 : Fin 4) :=
  .extend (g := skippedMoveGraph) .entry ⟨(2 : Fin 4), false⟩ (by decide)

theorem arrives_pathThroughMove :
    pathThroughMove.Arrives skippedMove {} skippedMoveFunction fun r => if r = 0 then some 5 else none := by
  refine .extend (σ := fun _ => none) (τ := fun r => if r = 0 then some 5 else none) ?_ ?_ fun _ _ => rfl
  · -- The first block writes nothing.
    refine .extend (σ := fun _ => none) (.entry fun r _ => rfl) ?_ fun _ _ => rfl
    exact .next (.done _) (.done _)
  · refine .next (.next ⟨?_, ?_⟩ (.done _)) (.done _)
    · intro r hr
      have hzero : r = 0 := by revert r; decide
      rw [hzero]
      rfl
    · intro r hr
      have hother : r ≠ 0 := by revert r; decide
      exact if_neg hother

/-- The run that passes the block gets to the call with the value of the fact. -/
theorem skippedMove_fact_holds :
    ∃ a, FunctionAnalysis.analyze skippedMove (.ofProgram skippedMove) {} skippedMoveFunction = .ok a ∧
      ∃ (i : Fin a.graph.members.size) (path : a.graph.Path i) (before : RegisterFile 32),
        path.Arrives skippedMove {} skippedMoveFunction before ∧
        (before 0 = none ∨ ∃ w, before 0 = some w ∧ w.toNat = 5) := by
  obtain ⟨⟨name, g, run, observations, diagnostics⟩, ha, hgraph⟩ := exists_analyze_skippedMove
  dsimp only at hgraph
  subst hgraph
  have harrives := arrives_pathThroughMove
  refine ⟨_, ha, _, pathThroughMove, _, harrives, ?_⟩
  exact fact_holds fact_skippedMove List.mem_cons_self ha pathThroughMove observedAt_skippedMove
    harrives (.done _)

end Program

end CallFacts
