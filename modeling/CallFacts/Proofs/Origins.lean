import CallFacts.Proofs.Soundness

/-!
# Where the content of a register comes from

Along a path, the content of a register is a constant, comes from what some register held at first,
or is unknown. This is traced through the effects without any values. The state that one path yields
tells the origins apart: `bottom` stands for the first content of a followed register without an
entry value, an exact value for constants and entry values. A join absorbs `bottom`, so a fact is
justified on the paths that do not yield it, and only on those.
-/

namespace CallFacts

/-- Where the content of a register comes from, perhaps through copies and arithmetic. -/
inductive Origin where
  /-- A constant of an instruction. -/
  | constant
  /-- What a register held when the function was entered. -/
  | initial (r : Register)
  /-- A write that is not known. -/
  | unknown
deriving DecidableEq

namespace Origin

/-- The content is settled by constants and the entry values of a function. -/
def Determined (f : Function) : Origin → Prop
  | constant => True
  | initial r => ∃ value, (r, value) ∈ f.entryValues
  | unknown => False

/-- The content comes from a followed register that has no entry value. -/
def IsUnset (tracked : RegisterSet) (f : Function) : Origin → Prop
  | initial r => r ∈ tracked ∧ ∀ value, (r, value) ∉ f.entryValues
  | _ => False

/-- What a value of a path says about the origin of the content that it is the value of. -/
def Explains (tracked : RegisterSet) (f : Function) (o : Origin) : Value → Prop
  | .bottom => o.IsUnset tracked f
  | .exact _ _ => o.Determined f
  | .top => True

variable {tracked : RegisterSet} {f : Function} {o : Origin} {v : Value}

theorem not_determined_of_isUnset (h : o.IsUnset tracked f) : ¬ o.Determined f := by
  cases o with
  | constant => exact h.elim
  | initial r =>
    rintro ⟨value, hvalue⟩
    exact h.2 value hvalue
  | unknown => exact h.elim

/-- Arithmetic on a value keeps what it says about the origin. -/
theorem Explains.mapExact (h : o.Explains tracked f v) (g : Word → Word) (width bits : Nat) :
    o.Explains tracked f ((Value.mapExact g width v).widen bits) := by
  cases v with
  | bottom => exact h
  | exact => exact h
  | top => trivial

end Origin

/-- The origins of the contents of all registers. -/
abbrev Origins := Register → Origin

/-- The origin of what an effect writes if its instruction has found the given origins. -/
def Effect.origin (found : Origins) : Effect → Origin
  | immediate _ _ => .constant
  | copy _ src | extend _ src _ _ _ | affine _ src _ _ _ => found src
  | clobber _ | unmodeled _ => .unknown

namespace Origins

/-- The origins after all registers of a set have been written from one origin. -/
def assign (os : Origins) (set : RegisterSet) (o : Origin) : Origins := fun r => if r ∈ set then o else os r

/-- The origins after an instruction. -/
def apply (os : Origins) (i : Instruction) : Origins :=
  i.effects.foldl (fun now e => now.assign e.written (e.origin os)) os

/-- The origins after a sequence of instructions. -/
def applyAll (os : Origins) (is : List Instruction) : Origins := is.foldl apply os

/-- The values of a state say what the origins are. -/
def Explain (os : Origins) (tracked : RegisterSet) (f : Function) (s : State) : Prop :=
  ∀ r, (os r).Explains tracked f (s.get r)

variable {tracked : RegisterSet} {f : Function} {os now : Origins} {s t : State}

theorem Explain.evaluate (h : os.Explain tracked f s) (bits : Nat) (e : Effect) :
    (e.origin os).Explains tracked f (s.evaluate bits e) := by
  cases e with
  | immediate dst value => trivial
  | copy dst src => exact h src
  | extend dst src source target signed => exact (h src).mapExact _ _ _
  | affine dst src multiplier offset width => exact (h src).mapExact _ _ _
  | clobber dst => trivial
  | unmodeled written => trivial

theorem Explain.assign (h : os.Explain tracked f s) {o : Origin} {v : Value} (hv : o.Explains tracked f v)
    (set : RegisterSet) : (os.assign set o).Explain tracked f (s.assign set v) := by
  intro r
  rw [State.get_assign, Origins.assign]
  by_cases hr : r ∈ set
  · by_cases hs : r ∈ s.tracked
    · simpa [hr, hs] using hv
    · simp [hs, State.get_of_not_mem hs, Origin.Explains]
  · simpa [hr] using h r

theorem Explain.writes (h : os.Explain tracked f s) (bits : Nat) (es : List Effect)
    (hnow : now.Explain tracked f t) :
    (es.foldl (fun now e => now.assign e.written (e.origin os)) now).Explain tracked f
      (es.foldl (fun u e => u.assign e.written (s.evaluate bits e)) t) := by
  induction es generalizing now t with
  | nil => exact hnow
  | cons e es ih =>
    rw [List.foldl_cons, List.foldl_cons]
    exact ih (hnow.assign (h.evaluate bits e) e.written)

theorem Explain.apply (h : os.Explain tracked f s) (bits : Nat) (i : Instruction) :
    (os.apply i).Explain tracked f (s.apply bits i) := h.writes bits i.effects h

theorem Explain.applyAll (h : os.Explain tracked f s) (bits : Nat) (is : List Instruction) :
    (os.applyAll is).Explain tracked f (s.applyAll bits is) := by
  induction is generalizing os s with
  | nil => exact h
  | cons i is ih => exact ih (h.apply bits i)

end Origins

/-! ### Origins along paths -/

namespace FunctionAnalysis

variable {p : Program} {ix : EdgeIndex} {c : Config} {f : Function} {g : FlowGraph} {a : FunctionAnalysis}

/-- The origins at the start of the last member of a path. After a call the registers that the policy
names are unknown. -/
def pathOrigins (p : Program) (c : Config) {g : FlowGraph} : {i : Fin g.members.size} → g.Path i → Origins
  | _, .entry => .initial
  | _, .extend (i := i) path way _ =>
    let exit := (pathOrigins p c path).applyAll (p.instructions (g.member i))
    if way.afterCall then exit.assign (c.callPolicy.clobbered p.arch (c.trackedFor p.arch)) .unknown else exit

/-- The origins before the last instruction of the last member of a path. -/
def originsBeforeLast (p : Program) (c : Config) {g : FlowGraph} {i : Fin g.members.size} (path : g.Path i) :
    Origins := (pathOrigins p c path).applyAll (p.instructions (g.member i)).dropLast

theorem explain_initialState :
    Origins.Explain .initial (c.trackedFor p.arch) f (initialState p.arch (c.trackedFor p.arch) f) := by
  intro r
  by_cases hr : r ∈ c.trackedFor p.arch
  · rw [get_initialState p.arch f hr]
    cases hlookup : f.entryValues.reverse.lookup r with
    | none =>
      refine ⟨hr, ?_⟩
      intro value hvalue
      have hother := List.lookup_eq_none_iff.mp hlookup (r, value) (List.mem_reverse.mpr hvalue)
      simp at hother
    | some value =>
      obtain ⟨before, after, hvalues, -⟩ := List.lookup_eq_some_iff.mp hlookup
      refine ⟨value, List.mem_reverse.mp ?_⟩
      simp [hvalues]
  · rw [State.get_of_not_mem (by simpa using hr)]
    trivial

theorem explain_pathState {i : Fin g.members.size} (path : g.Path i) :
    (pathOrigins p c path).Explain (c.trackedFor p.arch) f (pathState p c f path) := by
  induction path with
  | entry => exact explain_initialState
  | @extend i path way hway ih =>
    have hexit := ih.applyAll p.arch.registerBits (p.instructions (g.member i))
    simp only [pathOrigins, pathState, Dataflow.carry]
    split
    · exact hexit.assign (v := .top) trivial _
    · exact hexit

theorem explain_beforeLast {i : Fin g.members.size} (path : g.Path i) :
    (originsBeforeLast p c path).Explain (c.trackedFor p.arch) f (beforeLast p g i (pathState p c f path)) :=
  (explain_pathState path).applyAll _ _

end FunctionAnalysis

/-! ### Facts -/

namespace Program

variable {p : Program} {c : Config} {fact : Fact} {f : Function} {a : FunctionAnalysis}

/-- On a path to an observed instruction at the address of a fact, the path by itself yields `bottom`
for the register of the fact, and its content comes from a followed register without an entry value,
or it does not, and the content is determined by constants and entry values. -/
theorem determined_or_unset (hfact : fact ∈ (p.analyze c).facts.facts) (hf : f ∈ p.functions)
    (ha : FunctionAnalysis.analyze p (.ofProgram p) c f = .ok a) {i : Fin a.graph.members.size}
    (path : a.graph.Path i) (hobserved : FunctionAnalysis.ObservedAt p c a.graph i fact.site.address)
    {v : Value} (hv : (FunctionAnalysis.beforeLast p a.graph i (FunctionAnalysis.pathState p c f path)).get
      fact.site.register = v) :
    v ≠ .bottom ∧ (FunctionAnalysis.originsBeforeLast p c path fact.site.register).Determined f ∨
      v = .bottom ∧ (FunctionAnalysis.originsBeforeLast p c path fact.site.register).IsUnset
        (c.trackedFor p.arch) f := by
  have hexplains := FunctionAnalysis.explain_beforeLast (p := p) (c := c) (f := f) path fact.site.register
  rw [hv] at hexplains
  obtain ⟨s, hs⟩ := (FunctionAnalysis.exists_entry_iff ha).mpr ⟨path⟩
  have hpath := FunctionAnalysis.pathState_below_entry ha path hs
  -- The value of the path is below that of the fact, so it is not unknown.
  have hvalue : v ≤ .exact fact.value fact.bits := by
    rw [← hv]
    exact Value.le_trans ((hpath.applyAll _ _).get _) (observed_le_fact hfact hf ha hobserved hs)
  cases v with
  | bottom => exact .inr ⟨rfl, hexplains⟩
  | exact pattern bits => exact .inl ⟨Value.noConfusion, hexplains⟩
  | top => rcases hvalue with h | h | h <;> cases h

/-- On every path of every analyzed function to an observed instruction at the address of a fact, the
content of its register is determined by constants and entry values and does not come from a followed
register without an entry value. -/
def FactsDetermined (p : Program) (c : Config) : Prop :=
  ∀ fact ∈ (p.analyze c).facts.facts, ∀ f ∈ p.functions, ∀ a,
    FunctionAnalysis.analyze p (.ofProgram p) c f = .ok a →
    ∀ (i : Fin a.graph.members.size) (path : a.graph.Path i),
      FunctionAnalysis.ObservedAt p c a.graph i fact.site.address →
      (FunctionAnalysis.originsBeforeLast p c path fact.site.register).Determined f ∧
      ¬ (FunctionAnalysis.originsBeforeLast p c path fact.site.register).IsUnset (c.trackedFor p.arch) f

/-- The facts are determined on all paths exactly if no path to the place of a fact by itself yields
`bottom` for its register. A join with the values of other paths hides such a path. -/
theorem factsDetermined_iff (p : Program) (c : Config) :
    FactsDetermined p c ↔
      ∀ fact ∈ (p.analyze c).facts.facts, ∀ f ∈ p.functions, ∀ a,
        FunctionAnalysis.analyze p (.ofProgram p) c f = .ok a →
        ∀ (i : Fin a.graph.members.size) (path : a.graph.Path i),
          FunctionAnalysis.ObservedAt p c a.graph i fact.site.address →
          (FunctionAnalysis.beforeLast p a.graph i (FunctionAnalysis.pathState p c f path)).get
            fact.site.register ≠ .bottom := by
  constructor
  · intro h fact hfact f hf a ha i path hobserved
    rcases determined_or_unset hfact hf ha path hobserved rfl with ⟨hvalue, -⟩ | ⟨-, hunset⟩
    · exact hvalue
    · exact absurd hunset (h fact hfact f hf a ha i path hobserved).2
  · intro h fact hfact f hf a ha i path hobserved
    rcases determined_or_unset hfact hf ha path hobserved rfl with ⟨-, hdetermined⟩ | ⟨hvalue, -⟩
    · exact ⟨hdetermined, fun hunset => Origin.not_determined_of_isUnset hunset hdetermined⟩
    · exact absurd hvalue (h fact hfact f hf a ha i path hobserved)

/-- The register of the fact is set in the skipped block only; on the other path the call finds there
what the caller has left. -/
theorem skippedMove_not_factsDetermined : ¬ FactsDetermined skippedMove {} := by
  intro h
  obtain ⟨⟨name, g, run, observations, diagnostics⟩, ha, hgraph⟩ := exists_analyze_skippedMove
  dsimp only at hgraph
  subst hgraph
  have hdetermined : (Origin.initial 0).Determined skippedMoveFunction :=
    (h _ fact_skippedMove _ List.mem_cons_self _ ha _ pathAroundMove observedAt_skippedMove).1
  obtain ⟨value, hvalue⟩ := hdetermined
  cases hvalue

end Program

end CallFacts
