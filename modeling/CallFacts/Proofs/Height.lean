import CallFacts.Proofs.Worklist
import Mathlib

/-!
# The height of states

A value rises at most twice, so a state over `t` registers rises at most `2 * t` times. A node pays
for its first visit with having been reached and for every further visit with a rise of its entry
state; so no node is visited more than `2 * t + 1` times, and with a limit above that the iteration
ends in a stable run.
-/

namespace CallFacts

/-- How far a value has risen. -/
def Value.height : Value → Nat
  | bottom => 0
  | exact _ _ => 1
  | top => 2

theorem Value.height_le_two (v : Value) : v.height ≤ 2 := by
  cases v <;> simp [height]

theorem Value.height_mono {v w : Value} (h : v ≤ w) : v.height ≤ w.height := by
  rcases h with rfl | rfl | rfl
  · exact Nat.zero_le _
  · exact height_le_two v
  · exact Nat.le_refl _

theorem Value.height_lt {v w : Value} (h : v ≤ w) (hne : v ≠ w) : v.height < w.height := by
  rcases h with rfl | rfl | rfl
  · cases w with
    | bottom => exact absurd rfl hne
    | exact => simp [height]
    | top => simp [height]
  · cases v with
    | bottom => simp [height]
    | exact => simp [height]
    | top => exact absurd rfl hne
  · exact absurd rfl hne

namespace State

/-- How far the registers of a state have risen in all. -/
def height (s : State) : Nat := (s.tracked.toList.map fun r => (s.get r).height).sum

theorem height_le (s : State) : s.height ≤ 2 * s.tracked.size := by
  have hbound := List.sum_le_card_nsmul (s.tracked.toList.map fun r => (s.get r).height) 2 (by
    intro k hk
    obtain ⟨r, -, rfl⟩ := List.mem_map.mp hk
    exact (s.get r).height_le_two)
  rw [List.length_map, Nat.nsmul_eq_mul, Nat.mul_comm] at hbound
  rwa [← RegisterSet.length_toList]

/-- A state that joining changes rises in some register and falls in none. -/
theorem height_lt_join {s t : State} (hne : s.join t ≠ s) : s.height < (s.join t).height := by
  have hrises (r : Register) : s.get r ≤ (s.join t).get r := (below_join_left s t).get r
  rw [height, height, tracked_join]
  refine List.sum_lt_sum _ _ (fun r _ => Value.height_mono (hrises r)) ?_
  by_contra hflat
  refine hne (ext_get (tracked_join s t) fun r hr => ?_)
  by_contra hr'
  refine hflat ⟨r, ?_, Value.height_lt (hrises r) fun heq => hr' heq.symm⟩
  exact RegisterSet.mem_toList.mpr (by simpa using hr)

end State

namespace Frontier

variable {n : Nat} {fr : Frontier n} {visits : Vector Nat n} {i : Fin n} {s : State}

/-- The visits that a node has a right to: one for having been reached and one for each rise. -/
def credit (fr : Frontier n) (i : Fin n) : Nat :=
  match fr.entries.get i with
  | none => 0
  | some s => s.height + 1

/-- No node waits twice, and none has used up more visits than it has a right to when the visit it
waits for is counted as made. -/
structure Paid (visits : Vector Nat n) (fr : Frontier n) : Prop where
  nodup : fr.queue.Nodup
  paid : ∀ i, visits.get i + (if i ∈ fr.queue then 1 else 0) ≤ fr.credit i

theorem nodup_enqueue {queue : List (Fin n)} (h : queue.Nodup) (i : Fin n) : (enqueue queue i).Nodup := by
  unfold enqueue
  split
  · exact h
  · next hi =>
    refine List.nodup_append.mpr ⟨h, List.nodup_singleton i, ?_⟩
    intro j hj k hk heq
    rw [heq, List.mem_singleton.mp hk] at hj
    exact hi hj

/-- A node that has gained a right may wait for another visit. -/
theorem Paid.set (h : Paid visits fr) {new : State} (hnew : fr.credit i < new.height + 1) :
    Paid visits ⟨enqueue fr.queue i, fr.entries.set i (some new) i.isLt⟩ where
  nodup := nodup_enqueue h.nodup i
  paid j := by
    have hj := h.paid j
    by_cases hij : i = j
    · subst hij
      have hafter : credit ⟨enqueue fr.queue i, fr.entries.set i (some new) i.isLt⟩ i = new.height + 1 := by
        simp [credit]
      rw [hafter, if_pos (mem_enqueue.mpr (.inr rfl))]
      omega
    · have hafter : credit ⟨enqueue fr.queue i, fr.entries.set i (some new) i.isLt⟩ j = fr.credit j := by
        simp [credit, hij]
      have hqueue : j ∈ enqueue fr.queue i ↔ j ∈ fr.queue :=
        mem_enqueue.trans (or_iff_left (Ne.symm hij))
      simpa only [hafter, hqueue] using hj

theorem Paid.arrive (h : Paid visits fr) (i : Fin n) (s : State) : Paid visits (fr.arrive i s) := by
  have harrival := arrival fr i s
  generalize fr.arrive i s = after at harrival ⊢
  cases harrival with
  | absorbed => exact h
  | first hnone => exact h.set (by simp [credit, hnone])
  | risen old hold hne =>
    refine h.set ?_
    simpa [credit, hold] using State.height_lt_join hne

end Frontier

namespace Dataflow

variable {n : Nat} {p : Dataflow n} {run : Run n} {i : Fin n}

/-! ### Counting visits along a run -/

theorem Runs.paid (h : p.Runs run) : Frontier.Paid run.visits run.toFrontier := by
  induction h using Runs.ready_induct with
  | begin =>
    refine ⟨List.nodup_singleton _, ?_⟩
    intro i
    by_cases hi : p.start = i
    · simp [Dataflow.begin, Frontier.credit, ← hi]
    · simp [Dataflow.begin, Frontier.credit, hi, Ne.symm hi]
  | @visit run i rest s _ hqueue _ hs ih =>
    have hnodup := List.nodup_cons.mp (hqueue ▸ ih.nodup)
    rw [visits_visit, visit_frontier hs]
    refine send_keeps (Q := Frontier.Paid _) ?_ ⟨hnodup.2, ?_⟩
    · intro fr hfr way _
      exact hfr.arrive way.target _
    · intro j
      have hj := ih.paid j
      by_cases hij : i = j
      · -- The visit that the node waited for is now made.
        subst hij
        simpa [hqueue, hnodup.1, Frontier.credit] using hj
      · simpa [hqueue, Ne.symm hij, hij, Frontier.credit] using hj

theorem Runs.visits_eq_count (h : p.Runs run) (i : Fin n) :
    run.visits.get i = (run.trail.map Prod.fst).count i := by
  induction h using Runs.ready_induct with
  | begin => simp [Dataflow.begin]
  | @visit run j rest s _ _ _ hs ih =>
    rw [visits_visit, visit_trail hs, List.map_cons, List.count_cons]
    by_cases hij : j = i
    · subst hij
      simp [← ih]
    · simpa [hij] using ih

theorem Runs.visits_pos_of_exit (h : p.Runs run) (hi : run.exits.get i ≠ none) : 0 < run.visits.get i := by
  induction h using Runs.ready_induct generalizing i with
  | begin => simp [Dataflow.begin] at hi
  | @visit run j rest s _ _ _ hs ih =>
    rw [visits_visit]
    by_cases hij : j = i
    · subst hij
      simp
    · rw [visit_exits hs] at hi
      simpa [hij] using ih (by simpa [hij] using hi)

theorem Runs.credit_le (hp : p.Regular) (h : p.Runs run) (i : Fin n) :
    run.credit i ≤ 2 * p.initial.tracked.size + 1 := by
  unfold Frontier.credit
  split
  · exact Nat.zero_le _
  · next s hs =>
    have hheight := s.height_le
    rw [h.tracked hp i s hs] at hheight
    omega

theorem Runs.visits_le (hp : p.Regular) (h : p.Runs run) (i : Fin n) :
    run.visits.get i ≤ 2 * p.initial.tracked.size + 1 := by
  have hpaid := h.paid.paid i
  have hcredit := h.credit_le hp i
  omega

theorem Runs.visits_eq_zero (h : p.Runs run) (hi : run.entries.get i = none) : run.visits.get i = 0 := by
  have hpaid := h.paid.paid i
  simp only [Frontier.credit, hi] at hpaid
  omega

/-- A node that waits has a visit left, so a limit above the bound is never reached. -/
theorem solve_eq_stable (hp : p.Regular) (hlimit : 2 * p.initial.tracked.size < p.limit) :
    ∃ run, p.solve = .stable run := by
  cases hsolve : p.solve with
  | stable run => exact ⟨run, rfl⟩
  | exhausted run i =>
    have hruns : p.Runs run := by
      have hruns := p.runs_of_solve
      rwa [hsolve] at hruns
    obtain ⟨hwaits, hspent⟩ := limit_of_iterate_exhausted hsolve
    have hpaid := hruns.paid.paid i
    have hcredit := hruns.credit_le hp i
    rw [if_pos hwaits] at hpaid
    omega

end Dataflow

end CallFacts
