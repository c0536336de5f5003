import CallFacts.Proofs.LeastStates

/-!
# The width of exact values

Effects may name any width and any constant. Still every exact value of a state is a pattern of a
full register, tagged with that width and without a bit beyond it: the entry values are, whatever an
effect writes is, and joins, instructions and ways keep it.
-/

namespace CallFacts

/-- The value, if it is exact, is a pattern of `bits` bits. -/
def Value.OfWidth (bits : Nat) : Value → Prop
  | exact pattern width => width = bits ∧ Word.keepLow bits pattern = pattern
  | _ => True

namespace Value

variable {bits : Nat} {v w : Value}

theorem ofWidth_exact_iff {pattern : Word} {width : Nat} :
    (exact pattern width).OfWidth bits ↔ width = bits ∧ pattern.toNat < 2 ^ bits := by
  show width = bits ∧ Word.keepLow bits pattern = pattern ↔ _
  refine and_congr_right fun _ => ?_
  have hpos : 0 < 2 ^ bits := Nat.two_pow_pos bits
  rw [BitVec.toNat_eq, Word.toNat_keepLow]
  show pattern.toNat % 2 ^ bits = pattern.toNat ↔ _
  constructor
  · intro h
    rw [← h]
    exact Nat.mod_lt _ hpos
  · exact Nat.mod_eq_of_lt

theorem ofWidth_ofWord (word : Word) (bits : Nat) : (ofWord word bits).OfWidth bits :=
  ⟨rfl, Word.keepLow_keepLow bits word⟩

theorem ofWidth_widen (v : Value) (bits : Nat) : (v.widen bits).OfWidth bits := by
  cases v with
  | bottom => trivial
  | exact pattern width => exact ofWidth_ofWord pattern bits
  | top => trivial

theorem OfWidth.join (hv : v.OfWidth bits) (hw : w.OfWidth bits) : (v.join w).OfWidth bits := by
  cases v with
  | bottom => exact hw
  | exact pattern width =>
    cases w with
    | bottom => exact hv
    | exact pattern' width' =>
      simp only [Value.join]
      split
      · exact hv
      · trivial
    | top => trivial
  | top =>
    rw [top_join]
    trivial

end Value

/-- The exact values of all registers are patterns of `bits` bits. -/
def State.OfWidth (bits : Nat) (s : State) : Prop := ∀ r, (s.get r).OfWidth bits

namespace State

variable {bits : Nat} {s t : State}

theorem ofWidth_new (tracked : RegisterSet) (bits : Nat) : (new tracked).OfWidth bits := by
  intro r
  by_cases hr : r ∈ tracked
  · rw [get_new hr]
    trivial
  · rw [get_of_not_mem (by simpa using hr)]
    trivial

theorem OfWidth.join (hs : s.OfWidth bits) (ht : t.OfWidth bits) : (s.join t).OfWidth bits := by
  intro r
  by_cases hr : r ∈ s.tracked
  · rw [get_join hr]
    exact (hs r).join (ht r)
  · rw [get_of_not_mem (by simpa using hr)]
    trivial

theorem OfWidth.assign (h : s.OfWidth bits) {v : Value} (hv : v.OfWidth bits) (set : RegisterSet) :
    (s.assign set v).OfWidth bits := by
  intro r
  rw [get_assign]
  split
  · exact hv
  · exact h r

theorem OfWidth.evaluate (h : s.OfWidth bits) (e : Effect) : (s.evaluate bits e).OfWidth bits := by
  cases e with
  | immediate dst value => exact Value.ofWidth_ofWord value bits
  | copy dst src => exact h src
  | extend dst src source target signed => exact Value.ofWidth_widen _ bits
  | affine dst src multiplier offset width => exact Value.ofWidth_widen _ bits
  | clobber dst => trivial
  | unmodeled written => trivial

theorem OfWidth.apply (h : s.OfWidth bits) (i : Instruction) : (s.apply bits i).OfWidth bits := by
  refine List.foldlRecOn i.effects _ h ?_
  intro t ht e _
  exact ht.assign (h.evaluate e) e.written

theorem OfWidth.applyAll (h : s.OfWidth bits) (is : List Instruction) : (s.applyAll bits is).OfWidth bits := by
  refine List.foldlRecOn is _ h ?_
  intro t ht i _
  exact ht.apply i

end State

theorem Dataflow.ofWidth_carry {n bits : Nat} (d : Dataflow n) {s : State} (h : s.OfWidth bits)
    (way : Successor n) : (d.carry way s).OfWidth bits := by
  simp only [carry]
  split
  · exact h.assign (v := .top) trivial _
  · exact h

namespace FunctionAnalysis

variable {p : Program} {c : Config} {f : Function} {g : FlowGraph}

theorem ofWidth_initialState (arch : Arch) (tracked : RegisterSet) (f : Function) :
    (initialState arch tracked f).OfWidth arch.registerBits := by
  rw [initialState]
  generalize f.entryValues = values
  induction values using List.reverseRecOn with
  | nil => exact State.ofWidth_new tracked _
  | append_singleton values last ih =>
    rw [List.foldl_append]
    exact ih.assign (Value.ofWidth_ofWord _ _) _

theorem ofWidth_pathState {i : Fin g.members.size} (path : g.Path i) :
    (pathState p c f path).OfWidth p.arch.registerBits := by
  induction path with
  | entry => exact ofWidth_initialState _ _ _
  | extend path way hway ih => exact Dataflow.ofWidth_carry _ (ih.applyAll _) way

end FunctionAnalysis

end CallFacts
