import CallFacts.Proofs.Width

/-!
# Where joining loses nothing

The engine joins states where paths meet and goes on with the join. For effects that keep different
patterns different this gives the same result as following every path by itself and joining only at
its end: constants, copies, unknown values, and multiplication by an odd number, which is injective
modulo a power of two, with an offset. In a function of such effects the entry state of a block is
the pointwise join of the states that the paths to it yield, however many these are.
-/

namespace CallFacts

/-! ### Arithmetic that keeps patterns apart -/

namespace Word

theorem eq_of_keepLow_mul_add_eq {bits : Nat} {multiplier : Word} (hodd : Odd multiplier.toNat)
    (hbits : bits ≤ 64) (offset : Word) {x y : Word} (hx : keepLow bits x = x) (hy : keepLow bits y = y)
    (h : keepLow bits (x * multiplier + offset) = keepLow bits (y * multiplier + offset)) : x = y := by
  have hdvd : Nat.pow 2 bits ∣ 2 ^ 64 := Nat.pow_dvd_pow 2 hbits
  have hmod : (x.toNat * multiplier.toNat + offset.toNat) ≡ (y.toNat * multiplier.toNat + offset.toNat)
      [MOD Nat.pow 2 bits] := by
    have hnat := congrArg BitVec.toNat h
    simp only [toNat_keepLow, BitVec.toNat_add, BitVec.toNat_mul, Nat.mod_add_mod,
      Nat.mod_mod_of_dvd _ hdvd] at hnat
    exact hnat
  have hcoprime : (Nat.pow 2 bits).gcd multiplier.toNat = 1 := Nat.Coprime.pow_left bits hodd.coprime_two_left
  have hxy : x.toNat ≡ y.toNat [MOD Nat.pow 2 bits] :=
    (Nat.ModEq.add_right_cancel' _ hmod).cancel_right_of_coprime hcoprime
  rw [← hx, ← hy]
  apply BitVec.eq_of_toNat_eq
  rw [toNat_keepLow, toNat_keepLow]
  exact hxy

theorem keepLow_keepLow_of_le {bits width : Nat} (h : bits ≤ width) (w : Word) :
    keepLow bits (keepLow width w) = keepLow bits w := by
  apply BitVec.eq_of_toNat_eq
  simp only [toNat_keepLow]
  exact Nat.mod_mod_of_dvd _ (Nat.pow_dvd_pow 2 h)

end Word

namespace Value

variable {bits width : Nat} {v w : Value}

/-- A function that keeps register patterns apart commutes with joining them. -/
theorem mapExact_join {f : Word → Word}
    (hf : ∀ x y, Word.keepLow bits x = x → Word.keepLow bits y = y →
      Word.keepLow bits (Word.keepLow width (f x)) = Word.keepLow bits (Word.keepLow width (f y)) → x = y)
    (hv : v.OfWidth bits) (hw : w.OfWidth bits) :
    (mapExact f width (v.join w)).widen bits =
      ((mapExact f width v).widen bits).join ((mapExact f width w).widen bits) := by
  cases v with
  | bottom => rfl
  | top => simp [mapExact, widen]
  | exact x xwidth =>
    cases w with
    | bottom => rfl
    | top => rfl
    | exact y ywidth =>
      obtain ⟨rfl, hx⟩ := hv
      obtain ⟨rfl, hy⟩ := hw
      by_cases hxy : x = y
      · subst hxy
        simp
      · have hne := mt (hf x y hx hy) hxy
        simp [join, hxy, mapExact, widen, ofWord, hne]

end Value

/-! ### Distributive effects -/

/-- The effect writes a constant or an unknown value, or keeps the patterns of a register of `bits` bits
apart. -/
def Effect.IsDistributive (bits : Nat) : Effect → Prop
  | extend _ _ _ _ _ => False
  | affine _ _ multiplier _ width => Odd multiplier.toNat ∧ bits ≤ width
  | _ => True

instance (bits : Nat) (e : Effect) : Decidable (e.IsDistributive bits) :=
  match e with
  | .extend _ _ _ _ _ => .isFalse id
  | .affine _ _ multiplier _ width => inferInstanceAs (Decidable (Odd multiplier.toNat ∧ bits ≤ width))
  | .immediate _ _ | .copy _ _ | .clobber _ | .unmodeled _ => .isTrue trivial

def Instruction.IsDistributive (bits : Nat) (i : Instruction) : Prop := ∀ e ∈ i.effects, e.IsDistributive bits

instance (bits : Nat) (i : Instruction) : Decidable (i.IsDistributive bits) :=
  inferInstanceAs (Decidable (∀ e ∈ i.effects, e.IsDistributive bits))

namespace State

variable {bits : Nat} {s t now later : State}

/-- Joining acts on every register, as those that are not followed are unknown. -/
theorem get_join_eq (s t : State) (r : Register) : (s.join t).get r = (s.get r).join (t.get r) := by
  by_cases hr : r ∈ s.tracked
  · exact get_join hr
  · rw [get_of_not_mem (by simpa using hr), get_of_not_mem hr, Value.top_join]

theorem assign_join (h : t.tracked = s.tracked) (set : RegisterSet) (v w : Value) :
    (s.join t).assign set (v.join w) = (s.assign set v).join (t.assign set w) := by
  refine ext_get (by simp) ?_
  intro r hr
  have hs : r ∈ s.tracked := by simpa using hr
  have ht : r ∈ t.tracked := h ▸ hs
  rw [get_join (by simpa using hs), get_assign, get_assign, get_assign, get_join hs]
  by_cases hset : r ∈ set <;> simp [hs, ht, hset]

theorem evaluate_join (hbits : bits ≤ 64) (hs : s.OfWidth bits) (ht : t.OfWidth bits) {e : Effect}
    (he : e.IsDistributive bits) :
    (s.join t).evaluate bits e = (s.evaluate bits e).join (t.evaluate bits e) := by
  cases e with
  | immediate dst value => simp [evaluate]
  | copy dst src => exact get_join_eq s t src
  | extend dst src source target signed => exact he.elim
  | affine dst src multiplier offset width =>
    simp only [evaluate, Value.affine, get_join_eq]
    refine Value.mapExact_join ?_ (hs src) (ht src)
    intro x y hx hy hxy
    rw [Word.keepLow_keepLow_of_le he.2, Word.keepLow_keepLow_of_le he.2] at hxy
    exact Word.eq_of_keepLow_mul_add_eq he.1 hbits offset hx hy hxy
  | clobber dst => simp [evaluate]
  | unmodeled written => simp [evaluate]

/-- The writes of one instruction, done in order on states that have come from `s` and `t`. -/
theorem writes_join (hbits : bits ≤ 64) (hs : s.OfWidth bits) (ht : t.OfWidth bits) {es : List Effect}
    (hes : ∀ e ∈ es, e.IsDistributive bits) (hnow : later.tracked = now.tracked) :
    es.foldl (fun u e => u.assign e.written ((s.join t).evaluate bits e)) (now.join later) =
      (es.foldl (fun u e => u.assign e.written (s.evaluate bits e)) now).join
        (es.foldl (fun u e => u.assign e.written (t.evaluate bits e)) later) := by
  induction es generalizing now later with
  | nil => rfl
  | cons e es ih =>
    have he := hes e List.mem_cons_self
    simp only [List.foldl_cons]
    rw [evaluate_join hbits hs ht he, assign_join hnow]
    exact ih (fun e' he' => hes e' (List.mem_cons_of_mem _ he')) (by simpa using hnow)

theorem apply_join (hbits : bits ≤ 64) (htracked : t.tracked = s.tracked) (hs : s.OfWidth bits)
    (ht : t.OfWidth bits) {i : Instruction} (hi : i.IsDistributive bits) :
    (s.join t).apply bits i = (s.apply bits i).join (t.apply bits i) :=
  writes_join hbits hs ht hi htracked

theorem applyAll_join (hbits : bits ≤ 64) (htracked : t.tracked = s.tracked) (hs : s.OfWidth bits)
    (ht : t.OfWidth bits) {is : List Instruction} (his : ∀ i ∈ is, i.IsDistributive bits) :
    (s.join t).applyAll bits is = (s.applyAll bits is).join (t.applyAll bits is) := by
  induction is generalizing s t with
  | nil => rfl
  | cons i is ih =>
    have hi := apply_join hbits htracked hs ht (his i List.mem_cons_self)
    show ((s.join t).apply bits i).applyAll bits is = _
    rw [hi]
    exact ih (by simpa using htracked) (hs.apply i) (ht.apply i) fun j hj => his j (List.mem_cons_of_mem _ hj)

end State

theorem Dataflow.carry_join {n : Nat} (d : Dataflow n) (way : Successor n) {s t : State}
    (h : t.tracked = s.tracked) : d.carry way (s.join t) = (d.carry way s).join (d.carry way t) := by
  simp only [carry]
  split
  · have hclobber := State.assign_join h d.clobbered .top .top
    rwa [Value.join_self] at hclobber
  · rfl

/-! ### Joins over paths -/

/-- The state is the pointwise join of a family of states over the same registers. -/
structure State.IsJoin {ι : Type} (s : State) (family : ι → State) : Prop where
  tracked : ∀ x, (family x).tracked = s.tracked
  get : ∀ r, IsLUB (Set.range fun x => (family x).get r) (s.get r)

namespace FunctionAnalysis

variable {p : Program} {ix : EdgeIndex} {c : Config} {f : Function} {g : FlowGraph} {a : FunctionAnalysis}

/-- The states of single paths to a member, and their joins. -/
inductive PathJoin (p : Program) (c : Config) (f : Function) {g : FlowGraph} (i : Fin g.members.size) :
    State → Prop where
  | path (path : g.Path i) : PathJoin p c f i (pathState p c f path)
  | join {s t : State} (hs : PathJoin p c f i s) (ht : PathJoin p c f i t) : PathJoin p c f i (s.join t)

theorem tracked_pathState {i : Fin g.members.size} (path : g.Path i) :
    (pathState p c f path).tracked = c.trackedFor p.arch := by
  induction path with
  | entry => exact tracked_initialState _ _ _
  | extend path way hway ih =>
    rw [pathState, Dataflow.tracked_carry, (regular_problem p c f g).tracked_transfer, ih]

namespace PathJoin

variable {i : Fin g.members.size} {s : State}

theorem nonempty (h : PathJoin p c f i s) : Nonempty (g.Path i) := by
  induction h with
  | path path => exact ⟨path⟩
  | join hs ht ihs iht => exact ihs

theorem tracked (h : PathJoin p c f i s) : s.tracked = c.trackedFor p.arch := by
  induction h with
  | path path => exact tracked_pathState path
  | join hs ht ihs iht => rw [State.tracked_join, ihs]

theorem ofWidth (h : PathJoin p c f i s) : s.OfWidth p.arch.registerBits := by
  induction h with
  | path path => exact ofWidth_pathState path
  | join hs ht ihs iht => exact ihs.join iht

/-- A bound of what all paths yield for a register is above what their joins have there. -/
theorem get_le (h : PathJoin p c f i s) {r : Register} {v : Value}
    (hv : ∀ path : g.Path i, (pathState p c f path).get r ≤ v) : s.get r ≤ v := by
  induction h with
  | path path => exact hv path
  | join hs ht ihs iht =>
    rw [State.get_join_eq]
    exact Value.join_le ihs iht

/-- Going on from a block of distributive effects takes joins over paths to joins over their
extensions. -/
theorem extend (h : PathJoin p c f i s)
    (hblock : ∀ j ∈ p.instructions (g.member i), j.IsDistributive p.arch.registerBits)
    {way : Successor g.members.size} (hway : way ∈ g.successors.get i) :
    PathJoin p c f way.target ((problem p c f g).carry way ((problem p c f g).transfer i s)) := by
  induction h with
  | path path => exact .path (path.extend way hway)
  | @join s t hs ht ihs iht =>
    have htracked : t.tracked = s.tracked := ht.tracked.trans hs.tracked.symm
    have hexit : (problem p c f g).transfer i (s.join t) =
        ((problem p c f g).transfer i s).join ((problem p c f g).transfer i t) :=
      State.applyAll_join p.arch.registerBits_le htracked hs.ofWidth ht.ofWidth hblock
    have hsame : ((problem p c f g).transfer i t).tracked = ((problem p c f g).transfer i s).tracked := by
      simp only [(regular_problem p c f g).tracked_transfer, htracked]
    rw [hexit, Dataflow.carry_join _ way hsame]
    exact .join ihs iht

end PathJoin

/-- In a run over blocks of distributive effects every entry state is a join over paths. -/
theorem pathJoin_of_runs (hblocks : ∀ b, g.Reaches b → ∀ i ∈ p.instructions b, i.IsDistributive p.arch.registerBits)
    {run : Run g.members.size} (hrun : (problem p c f g).Runs run) : run.All (PathJoin p c f) := by
  refine hrun.all ?_ (.path .entry) ?_
  · intro i s t hs ht
    exact hs.join ht
  · intro i s hs way hway
    exact hs.extend (hblocks (g.member i) ⟨i, rfl, hs.nonempty⟩) hway

/-- In an analyzed function whose reached blocks have distributive effects only, every block to which
paths lead has the join of what they yield as its entry state. -/
theorem entryState_isJoin_of_distributive (h : analyze p ix c f = .ok a)
    (hblocks : ∀ b, a.graph.Reaches b → ∀ i ∈ p.instructions b, i.IsDistributive p.arch.registerBits)
    (i : Fin a.graph.members.size) (hi : Nonempty (a.graph.Path i)) :
    ∃ s, a.entryState? (a.graph.member i) = some s ∧
      s.IsJoin fun path : a.graph.Path i => pathState p c f path := by
  obtain ⟨hbuild, hstable, -⟩ := analyze_eq_ok h
  obtain ⟨s, hs⟩ := (exists_entry_iff h).mpr hi
  refine ⟨s, (entryState?_member hbuild i).trans hs, ?_, ?_⟩
  · intro path
    exact (tracked_pathState path).trans (tracked_entries h hs).symm
  · intro r
    constructor
    · rintro _ ⟨path, rfl⟩
      exact (pathState_below_entry h path hs).get r
    · intro v hv
      have hjoin := pathJoin_of_runs hblocks (Dataflow.runs_of_stable hstable) i s hs
      exact hjoin.get_le fun path => hv ⟨path, rfl⟩

/-- The counting loop multiplies by one only, so at its head the analysis finds what all numbers of
rounds together yield. -/
theorem countingLoop_head_isJoin :
    ∃ a, analyze countingLoop (.ofProgram countingLoop) {} countingLoopFunction = .ok a ∧
      ∃ (i : Fin a.graph.members.size) (s : State), a.graph.member i = ⟨1⟩ ∧
        a.entryState? ⟨1⟩ = some s ∧
        s.IsJoin fun path : a.graph.Path i => pathState countingLoop {} countingLoopFunction path := by
  obtain ⟨⟨name, g, run, observations, diagnostics⟩, ha, hgraph⟩ := exists_analyze_countingLoop
  dsimp only at hgraph
  subst hgraph
  obtain ⟨i, hmember, hpath⟩ := countingLoopGraph_reaches_head
  have hblocks : ∀ b, countingLoopGraph.Reaches b → ∀ j ∈ countingLoop.instructions b, j.IsDistributive 32 := by
    rintro b ⟨k, rfl, -⟩
    revert k
    decide
  obtain ⟨s, hs, hjoin⟩ := entryState_isJoin_of_distributive ha hblocks i hpath
  exact ⟨_, ha, i, s, hmember, hmember ▸ hs, hjoin⟩

end FunctionAnalysis

end CallFacts
