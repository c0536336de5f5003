import CallFacts.Proofs.Order

/-!
# What an instruction may change

An instruction changes only the registers that its effects write, so the state after it is below the state
in which these registers have become unknown. If every effect writes an unknown value, the two states are
the same.
-/

namespace CallFacts

variable {bits : Nat} {r : Register} {i : Instruction}

namespace Effect

theorem mem_foldl_written {es : List Effect} {set : RegisterSet} :
    r ∈ es.foldl (fun s e => s ∪ e.written) set ↔ r ∈ set ∨ ∃ e ∈ es, r ∈ e.written := by
  induction es generalizing set with
  | nil => simp
  | cons e es ih => simp [ih, or_assoc]

@[simp] theorem written_clobber (q : Register) : (clobber q).written = RegisterSet.insert ∅ q := rfl

/-- The register that an effect reads. -/
def source? : Effect → Option Register
  | copy _ src | extend _ src _ _ _ | affine _ src _ _ _ => some src
  | immediate _ _ | clobber _ | unmodeled _ => none

end Effect

theorem Instruction.mem_written : r ∈ i.written ↔ ∃ e ∈ i.effects, r ∈ e.written := by
  simp [written, Effect.mem_foldl_written]

namespace State

variable {s : State}

theorem get_clobber (s : State) (set : RegisterSet) (r : Register) :
    (s.clobber set).get r = if r ∈ s.tracked ∧ r ∈ set then .top else s.get r := get_assign s set .top r

theorem below_clobber (s : State) (set : RegisterSet) : s.Below (s.clobber set) := by
  refine below_of_le (by simp) (le_iff.mpr ?_)
  intro r _
  rw [get_clobber]
  split
  · exact Value.le_top _
  · exact Value.le_refl _

/-- Writes leave the registers alone that none of the effects writes. -/
theorem get_writes_of_not_mem {es : List Effect} {value : Effect → Value} (h : ∀ e ∈ es, r ∉ e.written) :
    (es.foldl (fun u e => u.assign e.written (value e)) s).get r = s.get r := by
  induction es generalizing s with
  | nil => rfl
  | cons e es ih =>
    rw [List.foldl_cons, ih fun e' he' => h e' (List.mem_cons_of_mem _ he'), get_assign,
      if_neg fun hr => h e List.mem_cons_self hr.2]

theorem get_apply_of_not_mem (hr : r ∉ i.written) : (s.apply bits i).get r = s.get r :=
  get_writes_of_not_mem fun e he hmem => hr (Instruction.mem_written.mpr ⟨e, he, hmem⟩)

/-- An instruction changes at most what it writes. -/
theorem apply_below_clobber (s : State) (bits : Nat) (i : Instruction) :
    (s.apply bits i).Below (s.clobber i.written) := by
  refine below_of_le (by simp) (le_iff.mpr ?_)
  intro r hr
  rw [tracked_apply] at hr
  rw [get_clobber]
  split
  · exact Value.le_top _
  · next hnot =>
    rw [get_apply_of_not_mem fun hwritten => hnot ⟨hr, hwritten⟩]
    exact Value.le_refl _

theorem clobber_clobber (s : State) (set set' : RegisterSet) :
    (s.clobber set).clobber set' = s.clobber (set ∪ set') := by
  refine ext_get (by simp) ?_
  intro r _
  simp only [get_clobber, tracked_clobber, RegisterSet.mem_union]
  grind

theorem clobber_empty (s : State) : s.clobber ∅ = s := ext_get (by simp) fun r _ => by simp [get_clobber]

theorem writes_top {es : List Effect} {value : Effect → Value} (h : ∀ e ∈ es, value e = .top) (set : RegisterSet) :
    es.foldl (fun u e => u.assign e.written (value e)) (s.clobber set) =
      s.clobber (es.foldl (fun u e => u ∪ e.written) set) := by
  induction es generalizing set with
  | nil => rfl
  | cons e es ih =>
    have hnext : (s.clobber set).assign e.written .top = s.clobber (set ∪ e.written) := clobber_clobber s set e.written
    rw [List.foldl_cons, List.foldl_cons, h e List.mem_cons_self, hnext]
    exact ih (fun e' he' => h e' (List.mem_cons_of_mem _ he')) _

/-- An instruction that writes nothing but unknown values makes what it writes unknown. -/
theorem apply_eq_clobber (h : ∀ e ∈ i.effects, s.evaluate bits e = .top) : s.apply bits i = s.clobber i.written := by
  have hwrites := writes_top (s := s) h ∅
  rwa [clobber_empty] at hwrites

end State

end CallFacts
