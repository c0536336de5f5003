import CallFacts.Fixpoint
import CallFacts.Proofs.Joining

/-!
# Runs of the worklist

What one arrival, one visit and a whole run of visits do to the entry states. An arrival only raises
the state of its node, and a node whose state has changed waits; so a node that does not wait is
settled, that is, its last exit state is that of its entry state and has been taken in wherever it
goes. Any property that the initial state has, that a visit carries along the ways and that joining
keeps holds of every entry state of every run.
-/

namespace CallFacts

/-! ### Entries of vectors -/

section Vector

variable {α : Type} {n : Nat} {i j : Fin n}

@[simp] theorem get_set_self (xs : Vector α n) (x : α) (h : i.val < n) : (xs.set i x h).get i = x :=
  Vector.getElem_set_self h

@[simp] theorem get_set_of_ne (xs : Vector α n) (x : α) (h : i.val < n) (hij : i ≠ j) :
    (xs.set i x h).get j = xs.get j :=
  Vector.getElem_set_ne h j.isLt (Fin.val_ne_of_ne hij)

@[simp] theorem get_replicate (x : α) : (Vector.replicate n x).get i = x := Vector.getElem_replicate i.isLt

end Vector

namespace Frontier

variable {n : Nat} {fr fr' fr'' : Frontier n} {i j : Fin n} {s t : State}

/-! ### One arrival -/

theorem mem_enqueue {queue : List (Fin n)} : j ∈ enqueue queue i ↔ j ∈ queue ∨ j = i := by
  unfold enqueue
  split
  · next hwaits =>
    constructor
    · intro hj
      exact .inl hj
    · rintro (hj | rfl)
      · exact hj
      · exact hwaits
  · simp

/-- What the arrival of a state at a node can do to a frontier. -/
inductive Arrival (fr : Frontier n) (i : Fin n) (s : State) : Frontier n → Prop where
  /-- The node has a state that is above the one that arrives. -/
  | absorbed (old : State) (hold : fr.entries.get i = some old) (heq : old.join s = old) :
    Arrival fr i s fr
  /-- Nothing has arrived here before. -/
  | first (hnone : fr.entries.get i = none) :
    Arrival fr i s ⟨enqueue fr.queue i, fr.entries.set i (some s) i.isLt⟩
  /-- The state of the node rises. -/
  | risen (old : State) (hold : fr.entries.get i = some old) (hne : old.join s ≠ old) :
    Arrival fr i s ⟨enqueue fr.queue i, fr.entries.set i (some (old.join s)) i.isLt⟩

theorem arrival (fr : Frontier n) (i : Fin n) (s : State) : Arrival fr i s (fr.arrive i s) := by
  simp only [arrive, State.absorb_eq, decide_eq_true_eq]
  split
  · next h => exact .first h
  · next old h =>
    split
    · next hne => exact .risen old h hne
    · next heq => exact .absorbed old h (Decidable.not_not.mp heq)

/-- The node has an entry state above the given one. -/
def Covers (fr : Frontier n) (i : Fin n) (s : State) : Prop := ∃ t, fr.entries.get i = some t ∧ s.Below t

/-- States only rise, nodes go on waiting, and a node whose state has changed waits. -/
structure Grows (fr fr' : Frontier n) : Prop where
  queue : ∀ i ∈ fr.queue, i ∈ fr'.queue
  entries : ∀ i s, fr.entries.get i = some s → fr'.Covers i s
  changed : ∀ i, i ∉ fr'.queue → fr'.entries.get i = fr.entries.get i

theorem Covers.mono (h : fr.Covers i s) (hg : fr.Grows fr') : fr'.Covers i s := by
  obtain ⟨t, ht, hst⟩ := h
  obtain ⟨u, hu, htu⟩ := hg.entries i t ht
  exact ⟨u, hu, hst.trans htu⟩

theorem Grows.refl (fr : Frontier n) : fr.Grows fr where
  queue _ hi := hi
  entries _ s hs := ⟨s, hs, .refl s⟩
  changed _ _ := rfl

theorem Grows.trans (h : fr.Grows fr') (h' : fr'.Grows fr'') : fr.Grows fr'' where
  queue i hi := h'.queue i (h.queue i hi)
  entries i s hs := (h.entries i s hs).mono h'
  changed i hi := (h'.changed i hi).trans (h.changed i fun hm => hi (h'.queue i hm))

theorem grows_set {new : State} (hnew : ∀ old, fr.entries.get i = some old → old.Below new) :
    fr.Grows ⟨enqueue fr.queue i, fr.entries.set i (some new) i.isLt⟩ where
  queue j hj := mem_enqueue.mpr (.inl hj)
  entries j s hs := by
    by_cases hij : i = j
    · subst hij
      exact ⟨new, by simp, hnew s hs⟩
    · exact ⟨s, by simpa [hij] using hs, .refl s⟩
  changed j hj := by
    have hij : i ≠ j := fun h => hj (mem_enqueue.mpr (.inr h.symm))
    simp [hij]

theorem grows_arrive (fr : Frontier n) (i : Fin n) (s : State) : fr.Grows (fr.arrive i s) := by
  have harrival := arrival fr i s
  generalize fr.arrive i s = after at harrival ⊢
  cases harrival with
  | absorbed => exact .refl fr
  | first hnone => exact grows_set fun old hold => by simp [hnone] at hold
  | risen old hold =>
    refine grows_set fun old' hold' => ?_
    cases hold.symm.trans hold'
    exact State.below_join_left old s

/-- What has arrived is covered, if the node follows no register that the arriving state does not. -/
theorem covers_arrive (hover : ∀ old, fr.entries.get i = some old → old.tracked = s.tracked) :
    (fr.arrive i s).Covers i s := by
  have harrival := arrival fr i s
  generalize fr.arrive i s = after at harrival ⊢
  cases harrival with
  | absorbed old hold heq =>
    refine ⟨old, hold, ?_⟩
    have hbelow : s.Below (old.join s) := State.below_join_right fun r hr => hover old hold ▸ hr
    exact heq ▸ hbelow
  | first => exact ⟨s, by simp, .refl s⟩
  | risen old hold =>
    exact ⟨old.join s, by simp, State.below_join_right fun r hr => hover old hold ▸ hr⟩

/-- Every node that waits has an entry state. -/
def Ready (fr : Frontier n) : Prop := ∀ i ∈ fr.queue, ∃ s, fr.entries.get i = some s

theorem Ready.set {new : State} (h : fr.Ready) :
    Ready ⟨enqueue fr.queue i, fr.entries.set i (some new) i.isLt⟩ := by
  intro j hj
  by_cases hij : i = j
  · subst hij
    exact ⟨new, by simp⟩
  · obtain ⟨s, hs⟩ := h j ((mem_enqueue.mp hj).resolve_right (Ne.symm hij))
    exact ⟨s, by simpa [hij] using hs⟩

theorem Ready.arrive (h : fr.Ready) (i : Fin n) (s : State) : (fr.arrive i s).Ready := by
  have harrival := arrival fr i s
  generalize fr.arrive i s = after at harrival ⊢
  cases harrival with
  | absorbed => exact h
  | first => exact h.set
  | risen => exact h.set

/-- Every entry state has a property that may depend on the node. -/
def All (fr : Frontier n) (P : Fin n → State → Prop) : Prop := ∀ i s, fr.entries.get i = some s → P i s

theorem All.set {P : Fin n → State → Prop} (h : fr.All P) {new : State} (hnew : P i new)
    (queue : List (Fin n)) : All ⟨queue, fr.entries.set i (some new) i.isLt⟩ P := by
  intro j s hs
  by_cases hij : i = j
  · subst hij
    simp only [get_set_self, Option.some.injEq] at hs
    exact hs ▸ hnew
  · exact h j s (by simpa [hij] using hs)

theorem All.arrive {P : Fin n → State → Prop} (hjoin : ∀ i s t, P i s → P i t → P i (s.join t))
    (h : fr.All P) (hs : P i s) : (fr.arrive i s).All P := by
  have harrival := arrival fr i s
  generalize fr.arrive i s = after at harrival ⊢
  cases harrival with
  | absorbed => exact h
  | first => exact h.set hs _
  | risen old hold => exact h.set (hjoin i old s (h i old hold) hs) _

end Frontier

namespace Dataflow

variable {n : Nat} (p : Dataflow n)

/-- The nodes that chains of ways lead to from the start. -/
inductive Reachable : Fin n → Prop where
  | start : Reachable p.start
  | along {i : Fin n} {way : Successor n} (hi : Reachable i) (hway : way ∈ p.successors i) :
    Reachable way.target

/-- Visiting a node keeps the followed registers and the order of states. -/
structure Regular : Prop where
  tracked_transfer : ∀ i s, (p.transfer i s).tracked = s.tracked
  transfer_below : ∀ i s t, s.Below t → (p.transfer i s).Below (p.transfer i t)

/-- States for the reachable nodes that take in the initial state and all that goes out along the
ways. They may leave registers aside that the initial state follows. -/
structure Solution (φ : Fin n → State) : Prop where
  start : p.initial.Below (φ p.start)
  flow : ∀ i, p.Reachable i → ∀ way ∈ p.successors i,
    (p.carry way (p.transfer i (φ i))).Below (φ way.target)

/-- The last exit state of a node is that of the given entry state, and has been taken in wherever
it goes. -/
def Settled (run : Run n) (i : Fin n) (s : State) : Prop :=
  run.exits.get i = some (p.transfer i s) ∧
    ∀ way ∈ p.successors i, run.Covers way.target (p.carry way (p.transfer i s))

variable {p} {fr : Frontier n} {run : Run n} {i : Fin n} {rest : List (Fin n)} {s : State}

@[simp] theorem tracked_carry (way : Successor n) (s : State) : (p.carry way s).tracked = s.tracked := by
  simp only [carry]
  split
  · exact State.tracked_clobber s p.clobbered
  · rfl

theorem carry_below {s t : State} (h : s.Below t) (way : Successor n) :
    (p.carry way s).Below (p.carry way t) := by
  simp only [carry]
  split
  · exact h.clobber p.clobbered
  · exact h

/-! ### One visit -/

/-- What every arrival keeps, sending a state along several ways keeps. -/
theorem send_keeps {Q : Frontier n → Prop} {ways : List (Successor n)} {exit : State}
    (harrive : ∀ fr, Q fr → ∀ way ∈ ways, Q (fr.arrive way.target (p.carry way exit))) (h : Q fr) :
    Q (p.send ways exit fr) := by
  induction ways generalizing fr with
  | nil => exact h
  | cons way ways ih =>
    refine ih (fun fr hfr w hw => harrive fr hfr w (List.mem_cons_of_mem _ hw)) ?_
    exact harrive fr h way List.mem_cons_self

theorem grows_send (ways : List (Successor n)) (exit : State) (fr : Frontier n) :
    fr.Grows (p.send ways exit fr) :=
  send_keeps (fun fr' h way _ => h.trans (Frontier.grows_arrive fr' way.target _)) (.refl fr)

theorem all_send {P : Fin n → State → Prop} (hjoin : ∀ i s t, P i s → P i t → P i (s.join t))
    {ways : List (Successor n)} {exit : State}
    (hways : ∀ way ∈ ways, P way.target (p.carry way exit)) (h : fr.All P) :
    (p.send ways exit fr).All P :=
  send_keeps (Q := fun fr => fr.All P) (fun _ hfr way hway => hfr.arrive hjoin (hways way hway)) h

/-- What goes out along a way is covered at its target, whatever goes out along the other ways. -/
theorem covers_send {ways : List (Successor n)} {exit : State} {way : Successor n} (hway : way ∈ ways)
    (hover : fr.All fun _ t => t.tracked = exit.tracked) :
    (p.send ways exit fr).Covers way.target (p.carry way exit) := by
  induction ways generalizing fr with
  | nil => cases hway
  | cons w ways ih =>
    have hafter : (fr.arrive w.target (p.carry w exit)).All fun _ t => t.tracked = exit.tracked :=
      hover.arrive (fun _ s t hs _ => (State.tracked_join s t).trans hs) (tracked_carry w exit)
    rcases List.mem_cons.mp hway with rfl | hway
    · refine Frontier.Covers.mono ?_ (grows_send ways exit _)
      exact Frontier.covers_arrive fun old hold => (hover _ old hold).trans (tracked_carry _ exit).symm
    · exact ih hway hafter

theorem visit_frontier (h : run.entries.get i = some s) :
    (p.visit run i rest).toFrontier = p.send (p.successors i) (p.transfer i s) ⟨rest, run.entries⟩ := by
  simp only [visit, h]

theorem visit_exits (h : run.entries.get i = some s) :
    (p.visit run i rest).exits = run.exits.set i (some (p.transfer i s)) i.isLt := by
  simp only [visit, h]

theorem visit_trail (h : run.entries.get i = some s) :
    (p.visit run i rest).trail = (i, s) :: run.trail := by
  simp only [visit, h]

theorem grows_visit (h : run.entries.get i = some s) (rest : List (Fin n)) :
    Frontier.Grows ⟨rest, run.entries⟩ (p.visit run i rest).toFrontier := by
  rw [visit_frontier h]
  exact grows_send _ _ _

/-! ### Runs of visits -/

/-- The runs that visits lead to from the beginning, each node visited in its turn. -/
inductive Runs (p : Dataflow n) : Run n → Prop where
  | begin : Runs p p.begin
  | visit {run : Run n} {i : Fin n} {rest : List (Fin n)} (h : Runs p run) (hqueue : run.queue = i :: rest)
      (hlimit : run.visits.get i < p.limit) : Runs p (p.visit run i rest)

theorem runs_iterate (h : p.Runs run) : p.Runs (p.iterate run).run := by
  fun_induction iterate p run with
  | case1 run hqueue => exact h
  | case2 run i rest hqueue hlimit ih => exact ih (h.visit hqueue hlimit)
  | case3 run i rest hqueue hlimit => exact h

theorem queue_of_iterate_stable {final : Run n} (h : p.iterate run = .stable final) : final.queue = [] := by
  fun_induction iterate p run with
  | case1 run hqueue => cases h; exact hqueue
  | case2 run i rest hqueue hlimit ih => exact ih h
  | case3 run i rest hqueue hlimit => cases h

theorem limit_of_iterate_exhausted {final : Run n} (h : p.iterate run = .exhausted final i) :
    i ∈ final.queue ∧ p.limit ≤ final.visits.get i := by
  fun_induction iterate p run with
  | case1 run hqueue => cases h
  | case2 run i rest hqueue hlimit ih => exact ih h
  | case3 run i rest hqueue hlimit => cases h; exact ⟨by simp [hqueue], Nat.le_of_not_lt hlimit⟩

/-! ### What holds in every run -/

theorem entries_begin (p : Dataflow n) (i : Fin n) :
    p.begin.entries.get i = if p.start = i then some p.initial else none := by
  by_cases h : p.start = i
  · subst h
    simp [begin]
  · simp [begin, h]

theorem Runs.queued (h : p.Runs run) : run.Ready := by
  induction h with
  | begin =>
    intro i hi
    exact ⟨p.initial, by rw [entries_begin, if_pos (List.mem_singleton.mp hi).symm]⟩
  | @visit run i rest h hqueue hlimit ih =>
    obtain ⟨s, hs⟩ := ih i (by simp [hqueue])
    rw [visit_frontier hs]
    refine send_keeps (Q := Frontier.Ready) ?_ ?_
    · intro fr hfr way _
      exact hfr.arrive way.target _
    · intro j hj
      exact ih j (by simp [hqueue, hj])

/-- Induction over the visits of a run, each of a node with an entry state. -/
theorem Runs.ready_induct {Q : ∀ run, p.Runs run → Prop} (begin : Q p.begin .begin)
    (visit : ∀ {run i rest s} (h : p.Runs run) (hqueue : run.queue = i :: rest)
      (hlimit : run.visits.get i < p.limit) (_ : run.entries.get i = some s) (_ : Q run h),
      Q (p.visit run i rest) (h.visit hqueue hlimit)) (h : p.Runs run) : Q run h := by
  induction h with
  | begin => exact begin
  | @visit run i rest h hqueue hlimit ih =>
    obtain ⟨s, hs⟩ := h.queued i (by simp [hqueue])
    exact visit h hqueue hlimit hs ih

/-- What the initial state has, what visits carry along the ways and what joining keeps, every entry
state has. -/
theorem Runs.all {P : Fin n → State → Prop} (hjoin : ∀ i s t, P i s → P i t → P i (s.join t))
    (hstart : P p.start p.initial)
    (hflow : ∀ i s, P i s → ∀ way ∈ p.successors i, P way.target (p.carry way (p.transfer i s)))
    (h : p.Runs run) : run.All P := by
  induction h using Runs.ready_induct with
  | begin =>
    intro i s hs
    rw [entries_begin] at hs
    split at hs
    · next heq => cases hs; exact heq ▸ hstart
    · cases hs
  | @visit run i rest s _ _ _ hs ih =>
    rw [visit_frontier hs]
    exact all_send hjoin (hflow i s (ih i s hs)) ih

theorem Runs.tracked (hp : p.Regular) (h : p.Runs run) :
    run.All fun _ s => s.tracked = p.initial.tracked := by
  refine h.all ?_ rfl ?_
  · intro i s t hs _
    rw [State.tracked_join, hs]
  · intro i s hs way _
    rw [tracked_carry, hp.tracked_transfer, hs]

theorem Runs.reachable (h : p.Runs run) : run.All fun i _ => p.Reachable i := by
  refine h.all ?_ .start ?_
  · intro i _ _ hi _
    exact hi
  · intro i _ hi way hway
    exact hi.along hway

/-- No entry state rises above what any solution has there. -/
theorem Runs.below_solution (hp : p.Regular) {φ : Fin n → State} (hφ : p.Solution φ) (h : p.Runs run) :
    run.All fun i s => p.Reachable i ∧ s.Below (φ i) := by
  refine h.all ?_ ⟨.start, hφ.start⟩ ?_
  · intro i s t ⟨hi, hs⟩ ⟨_, ht⟩
    exact ⟨hi, State.join_below hs ht⟩
  · intro i s ⟨hi, hs⟩ way hway
    have hexit : (p.transfer i s).Below (p.transfer i (φ i)) := hp.transfer_below i s (φ i) hs
    exact ⟨hi.along hway, (carry_below hexit way).trans (hφ.flow i hi way hway)⟩

theorem Runs.covers_start (h : p.Runs run) : run.Covers p.start p.initial := by
  induction h using Runs.ready_induct with
  | begin => exact ⟨p.initial, by rw [entries_begin, if_pos rfl], .refl _⟩
  | @visit run i rest s _ hqueue _ hs ih =>
    have hcovers : Frontier.Covers ⟨rest, run.entries⟩ p.start p.initial := ih
    exact hcovers.mono (grows_visit hs rest)

/-- A node that does not wait is settled. -/
theorem Runs.settled (hp : p.Regular) (h : p.Runs run) (hs : run.entries.get i = some s)
    (hi : i ∉ run.queue) : p.Settled run i s := by
  induction h using Runs.ready_induct generalizing i s with
  | begin =>
    rw [entries_begin, if_neg fun heq => hi (by simp [Dataflow.begin, heq])] at hs
    cases hs
  | @visit run j rest t hrun hqueue _ ht ih =>
    have hgrows := grows_visit (p := p) ht rest
    -- The node does not wait, so the visit has left its entry state as it was.
    have hs' : run.entries.get i = some s := (hgrows.changed i hi).symm.trans hs
    by_cases hij : j = i
    · subst hij
      cases ht.symm.trans hs'
      refine ⟨by simp [visit_exits ht], ?_⟩
      intro way hway
      rw [visit_frontier ht]
      refine covers_send hway ?_
      intro k u hu
      rw [hp.tracked_transfer, hrun.tracked hp j t ht, hrun.tracked hp k u hu]
    · have hwaits : i ∉ run.queue := by
        rw [hqueue]
        intro hmem
        rcases List.mem_cons.mp hmem with heq | hrest
        · exact hij heq.symm
        · exact hi (hgrows.queue i hrest)
      obtain ⟨hexit, hways⟩ := ih hs' hwaits
      refine ⟨by simpa [visit_exits ht, hij] using hexit, ?_⟩
      intro way hway
      have hcovers : Frontier.Covers ⟨rest, run.entries⟩ way.target (p.carry way (p.transfer i s)) :=
        hways way hway
      exact hcovers.mono hgrows

theorem Runs.exits_eq_none (h : p.Runs run) (hi : run.entries.get i = none) : run.exits.get i = none := by
  induction h using Runs.ready_induct generalizing i with
  | begin => simp [Dataflow.begin]
  | @visit run j rest t _ _ _ ht ih =>
    have hgrows := grows_visit (p := p) ht rest
    have hbefore : run.entries.get i = none := by
      rw [Option.eq_none_iff_forall_ne_some]
      intro s hs
      obtain ⟨u, hu, -⟩ := hgrows.entries i s hs
      exact absurd hu (by simp [hi])
    have hij : j ≠ i := fun heq => by simp [← heq, ht] at hbefore
    simpa [visit_exits ht, hij] using ih hbefore

/-! ### Stable runs -/

theorem runs_of_solve (p : Dataflow n) : p.Runs p.solve.run := runs_iterate .begin

theorem runs_of_stable (h : p.solve = .stable run) : p.Runs run := by
  have hruns := p.runs_of_solve
  rwa [h] at hruns

section

variable (hp : p.Regular) (h : p.solve = .stable run)

include hp h

theorem settled_of_stable (hs : run.entries.get i = some s) : p.Settled run i s := by
  refine (runs_of_stable h).settled hp hs ?_
  simp [queue_of_iterate_stable h]

theorem isSome_entries_iff : (run.entries.get i).isSome ↔ p.Reachable i := by
  rw [Option.isSome_iff_exists]
  constructor
  · intro ⟨s, hs⟩
    exact (runs_of_stable h).reachable i s hs
  · intro hi
    induction hi with
    | start =>
      obtain ⟨s, hs, -⟩ := (runs_of_stable h).covers_start
      exact ⟨s, hs⟩
    | along _ hway ih =>
      obtain ⟨s, hs⟩ := ih
      obtain ⟨t, ht, -⟩ := (settled_of_stable hp h hs).2 _ hway
      exact ⟨t, ht⟩

theorem exits_eq_map_entries (i : Fin n) : run.exits.get i = (run.entries.get i).map (p.transfer i) := by
  cases hs : run.entries.get i with
  | none => exact (runs_of_stable h).exits_eq_none hs
  | some s => exact (settled_of_stable hp h hs).1

/-- The entry states of a stable run are a solution, whatever stands for the nodes not reached. -/
theorem solution_of_stable (default : State) : p.Solution fun i => (run.entries.get i).getD default where
  start := by
    obtain ⟨s, hs, hstart⟩ := (runs_of_stable h).covers_start
    simpa [hs] using hstart
  flow i hi way hway := by
    obtain ⟨s, hs⟩ := Option.isSome_iff_exists.mp ((isSome_entries_iff hp h).mpr hi)
    obtain ⟨t, ht, hflow⟩ := (settled_of_stable hp h hs).2 way hway
    simpa [hs, ht] using hflow

end

end Dataflow

end CallFacts
