import CallFacts.Proofs.Order

/-!
# Taking in a state

A state takes in another register by register, and a flag says whether a register has changed. The
outcome is the join of the two states: every register is visited once, so what it takes in is joined
with the value that it had at first. Over one set of tracked registers `≤` is a partial order, the join
is the least state above both, and the flag is down exactly if there was nothing to take in.
-/

namespace CallFacts

theorem Value.join_right_comm (u v w : Value) : (u.join v).join w = (u.join w).join v := by
  have hle (v w : Value) : (u.join v).join w ≤ (u.join w).join v := by
    refine join_le (join_le ?_ (le_join_right _ v)) ?_
    · exact le_trans (le_join_left u w) (le_join_left _ v)
    · exact le_trans (le_join_right u w) (le_join_left _ v)
  exact le_antisymm (hle v w) (hle w v)

namespace State

variable {s t u : State} {tracked : RegisterSet}

/-! ### Register by register -/

@[simp] theorem tracked_raise (t : State) (u : State × Bool) (r : Register) : (raise t u r).1.tracked = u.1.tracked := by
  simp only [raise]
  split
  · rfl
  · exact tracked_set _ _ _

/-- Leaving a register alone that would not change is the same as writing it. -/
theorem get_raise (t : State) {u : State × Bool} {r : Register} (hr : r ∈ u.1.tracked) (q : Register) :
    (raise t u r).1.get q = if q = r then (u.1.get r).join (t.get r) else u.1.get q := by
  by_cases hq : q = r
  · subst hq
    rw [if_pos rfl, raise]
    split
    · next hsame => exact hsame.symm
    · rw [get_set, if_pos ⟨hr, rfl⟩]
  · rw [if_neg hq, raise]
    split
    · rfl
    · rw [get_set, if_neg fun h => hq h.2]

theorem changed_raise (t : State) (u : State × Bool) (r : Register) :
    (raise t u r).2 = true ↔ u.2 = true ∨ (u.1.get r).join (t.get r) ≠ u.1.get r := by
  simp only [raise]
  split
  · next hsame => simp [hsame]
  · next hrisen => simp [hrisen]

/-- The registers of a list have taken in their values in `t` and the others are as in `s`; the flag is up
if that has changed one of them. -/
structure Absorbs (s t : State) (done : List Register) (u : State × Bool) : Prop where
  tracked : u.1.tracked = s.tracked
  taken : ∀ q ∈ done, u.1.get q = (s.get q).join (t.get q)
  kept : ∀ q, q ∉ done → u.1.get q = s.get q
  changed : u.2 = true ↔ ∃ q ∈ done, (s.get q).join (t.get q) ≠ s.get q

theorem absorbs_nil (s t : State) : Absorbs s t [] (s, false) := ⟨rfl, nofun, fun _ _ => rfl, by simp⟩

theorem Absorbs.raise {done : List Register} {u : State × Bool} (h : Absorbs s t done u) {r : Register}
    (hr : r ∈ s.tracked) (hnew : r ∉ done) : Absorbs s t (done ++ [r]) (raise t u r) := by
  have hold : u.1.get r = s.get r := h.kept r hnew
  have hget := get_raise t (h.tracked ▸ hr : r ∈ u.1.tracked)
  constructor
  · rw [tracked_raise, h.tracked]
  · intro q hq
    rw [hget]
    split
    · next heq => rw [heq, hold]
    · next hne => exact h.taken q (by simpa [hne] using hq)
  · intro q hq
    rw [List.mem_append, List.mem_singleton, not_or] at hq
    rw [hget, if_neg hq.2, h.kept q hq.1]
  · rw [changed_raise, h.changed, hold]
    simp [or_and_right, exists_or]

theorem Absorbs.foldl {done rest : List Register} {u : State × Bool} (h : Absorbs s t done u)
    (htracked : ∀ r ∈ rest, r ∈ s.tracked) (hnodup : (done ++ rest).Nodup) :
    Absorbs s t (done ++ rest) (rest.foldl (State.raise t) u) := by
  induction rest generalizing done u with
  | nil => rwa [List.append_nil]
  | cons r rest ih =>
    rw [List.append_cons] at hnodup ⊢
    have hnew : r ∉ done := by
      intro hr
      have hparts := List.nodup_append.mp (List.nodup_append.mp hnodup).1
      exact hparts.2.2 r hr r List.mem_cons_self rfl
    have hstep := h.raise (htracked r List.mem_cons_self) hnew
    exact ih hstep (fun q hq => htracked q (List.mem_cons_of_mem r hq)) hnodup

theorem absorbs_absorb (s t : State) : Absorbs s t s.tracked.toList (s.absorb t) :=
  (absorbs_nil s t).foldl (fun _ hr => RegisterSet.mem_toList.mp hr) s.tracked.nodup_toList

theorem join_eq_self_iff_forall (s t : State) : s.join t = s ↔ ∀ r ∈ s.tracked, (s.get r).join (t.get r) = s.get r := by
  constructor
  · intro heq r hr
    rw [← get_join hr, heq]
  · intro h
    refine ext_get (tracked_join s t) fun r hr => ?_
    rw [tracked_join] at hr
    rw [get_join hr, h r hr]

/-- Taking in a state is joining it, with a flag for whether that changes anything. -/
theorem absorb_eq (s t : State) : s.absorb t = (s.join t, decide (s.join t ≠ s)) := by
  have h := absorbs_absorb s t
  have hjoin : (s.absorb t).1 = s.join t := by
    refine ext_get (by rw [h.tracked, tracked_join]) fun r hr => ?_
    rw [h.tracked] at hr
    rw [h.taken r (RegisterSet.mem_toList.mpr hr), get_join hr]
  refine Prod.ext hjoin (Bool.eq_iff_iff.mpr ?_)
  rw [h.changed, decide_eq_true_eq, ne_eq, join_eq_self_iff_forall]
  simp

/-! ### The least state above two -/

theorem join_eq_self_iff (htracked : t.tracked = s.tracked) : s.join t = s ↔ t ≤ s := by
  constructor
  · intro heq
    exact (heq ▸ below_join_right (s := s) (t := t) fun r hr => htracked ▸ hr).le
  · intro hle
    have hts : t.Below s := below_of_le (fun r hr => htracked ▸ hr) hle
    exact (join_below (.refl s) hts).antisymm (below_join_left s t)

theorem join_right_comm (s t u : State) : (s.join t).join u = (s.join u).join t := by
  refine ext_get (by simp only [tracked_join]) fun r hr => ?_
  have hr' : r ∈ s.tracked := by simpa using hr
  simp only [get_join, tracked_join, hr', Value.join_right_comm]

/-- The states that a tracked set gives rise to: nothing is written at first, and every operation leads on. -/
inductive Reached (tracked : RegisterSet) : State → Prop where
  | new : Reached tracked (new tracked)
  | set {s : State} (hs : Reached tracked s) (r : Register) (v : Value) : Reached tracked (s.set r v)
  | clobber {s : State} (hs : Reached tracked s) (set : RegisterSet) : Reached tracked (s.clobber set)
  | apply {s : State} (hs : Reached tracked s) (registerBits : Nat) (i : Instruction) :
    Reached tracked (s.apply registerBits i)
  | absorb {s : State} (hs : Reached tracked s) (t : State) : Reached tracked (s.absorb t).1

theorem Reached.tracked_eq (h : Reached tracked s) : s.tracked = tracked := by
  induction h with
  | new => exact tracked_new tracked
  | set _ r v ih => rw [tracked_set, ih]
  | clobber _ set ih => rw [tracked_clobber, ih]
  | apply _ registerBits i ih => rw [tracked_apply, ih]
  | absorb _ t ih => rw [absorb_eq, tracked_join, ih]

theorem Reached.below_of_le (hs : Reached tracked s) (ht : Reached tracked t) (h : s ≤ t) : s.Below t :=
  (below_iff_le (ht.tracked_eq.trans hs.tracked_eq.symm)).mpr h

/-- The state that has taken in a list of states, one after the other. -/
def absorbAll (s : State) (ts : List State) : State := ts.foldl (fun s t => (s.absorb t).1) s

theorem absorbAll_perm {ts ts' : List State} (h : ts.Perm ts') (s : State) : s.absorbAll ts = s.absorbAll ts' := by
  refine h.foldl_eq' ?_ s
  intro t _ u _ s
  simp only [absorb_eq]
  exact join_right_comm s t u

/-- Among the states of one tracked set `≤` is a partial order that tells all of them apart. A state that
takes in another becomes the least state above both, and reports that exactly if it changes, which it does
exactly if the other was not below it. The order in which several states are taken in does not matter. -/
theorem absorb_least (hs : Reached tracked s) (ht : Reached tracked t) (hu : Reached tracked u) :
    (s ≤ s ∧ (s ≤ t → t ≤ u → s ≤ u) ∧ (s ≤ t ∧ t ≤ s ↔ s = t)) ∧
      (Reached tracked (s.absorb t).1 ∧ s ≤ (s.absorb t).1 ∧ t ≤ (s.absorb t).1 ∧
        (s ≤ u → t ≤ u → (s.absorb t).1 ≤ u)) ∧
      ((s.absorb t).2 = true ↔ (s.absorb t).1 ≠ s) ∧ ((s.absorb t).2 = true ↔ ¬ t ≤ s) ∧
      ∀ ts ts' : List State, ts.Perm ts' → s.absorbAll ts = s.absorbAll ts' := by
  have htracked : t.tracked = s.tracked := ht.tracked_eq.trans hs.tracked_eq.symm
  have hflag : (s.absorb t).2 = true ↔ (s.absorb t).1 ≠ s := by rw [absorb_eq, decide_eq_true_eq]
  refine ⟨⟨(Below.refl s).le, ?_, ?_⟩, ⟨hs.absorb t, ?_⟩, hflag, ?_, fun ts ts' h => absorbAll_perm h s⟩
  · intro h h'
    exact ((hs.below_of_le ht h).trans (ht.below_of_le hu h')).le
  · constructor
    · rintro ⟨h, h'⟩
      exact (hs.below_of_le ht h).antisymm (ht.below_of_le hs h')
    · rintro rfl
      exact ⟨(Below.refl s).le, (Below.refl s).le⟩
  · rw [absorb_eq]
    refine ⟨(below_join_left s t).le, (below_join_right fun r hr => htracked ▸ hr).le, ?_⟩
    intro h h'
    exact (join_below (hs.below_of_le hu h) (ht.below_of_le hu h')).le
  · rw [hflag, absorb_eq, ne_eq, join_eq_self_iff htracked]

/-- Register 0 holds five. -/
def five : State := (new (.below 2)).set 0 (.ofWord 5 32)

/-- Register 0 holds seven and register 1 one. -/
def sevenAndOne : State := ((new (.below 2)).set 0 (.ofWord 7 32)).set 1 (.ofWord 1 32)

/-- Five and seven disagree, so register 0 becomes unknown; register 1 has only been written on one side. -/
theorem five_absorbs_sevenAndOne :
    (five.absorb sevenAndOne).2 = true ∧ ¬ sevenAndOne ≤ five ∧
      (five.absorb sevenAndOne).1.toList = [(0, .top), (1, .ofWord 1 32)] ∧
      (five.absorb sevenAndOne).1 ≤ sevenAndOne.clobber (.below 1) ∧
      five.absorbAll [sevenAndOne, new (.below 2)] = five.absorbAll [new (.below 2), sevenAndOne] := by
  have hfive : Reached (.below 2) five := .set .new 0 _
  have hseven : Reached (.below 2) sevenAndOne := .set (.set .new 0 _) 1 _
  obtain ⟨-, ⟨-, -, -, hleast⟩, -, hflag, hperm⟩ := absorb_least hfive hseven (hseven.clobber (.below 1))
  have hnew : ¬ sevenAndOne ≤ five := by decide +kernel
  exact ⟨hflag.mpr hnew, hnew, by decide +kernel, hleast (by decide +kernel) (by decide +kernel),
    hperm _ _ (.swap _ _ _)⟩

end State

end CallFacts
