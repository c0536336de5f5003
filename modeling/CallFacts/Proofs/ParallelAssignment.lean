import CallFacts.Proofs.LastWrites

/-!
# An instruction as a parallel assignment

All effects of an instruction are evaluated in the state before it, and of several effects that write one register the
last one decides. So the state after an instruction can be told register by register, whatever the effects write and
in whatever order: what it holds is assigned by the last effect that writes it, or kept.
-/

namespace CallFacts

namespace Effect

variable {es : List Effect} {e : Effect} {r : Register}

/-- The last write of a register is a write behind which there is none. -/
theorem lastWrite?_eq_some_iff : lastWrite? es r = some e ↔
    ∃ before after, es = before ++ e :: after ∧ r ∈ e.written ∧ ∀ e' ∈ after, r ∉ e'.written := by
  constructor
  · intro h
    obtain ⟨earlier, hfilter⟩ := List.getLast?_eq_some_iff.mp h
    obtain ⟨front, back, rfl, -, hback⟩ := List.filter_eq_append_iff.mp hfilter
    obtain ⟨before, after, rfl, -, he, hafter⟩ := List.filter_eq_cons_iff.mp hback
    refine ⟨front ++ before, after, by simp, by simpa using he, ?_⟩
    simpa using hafter
  · rintro ⟨before, after, rfl, he, hafter⟩
    have hnone : lastWrite? after r = none := lastWrite?_eq_none_iff.mpr hafter
    have hself : lastWrite? [e] r = some e := by simp [lastWrite?, he]
    rw [List.append_cons, lastWrite?_append, hnone, Option.none_or, lastWrite?_append, hself, Option.some_or]

end Effect

namespace State

variable {s : State} {bits : Nat} {es : List Effect} {r : Register} {v : Value}

/-- What a register holds after effects that are all evaluated in the state before them. -/
inductive Assigned (s : State) (bits : Nat) (es : List Effect) (r : Register) : Value → Prop
  /-- Registers that are not followed stay unknown. -/
  | untracked (h : r ∉ s.tracked) : Assigned s bits es r .top
  | kept (h : r ∈ s.tracked) (hnone : ∀ e ∈ es, r ∉ e.written) : Assigned s bits es r (s.get r)
  | written {before after : List Effect} {e : Effect} (h : r ∈ s.tracked) (hes : es = before ++ e :: after)
    (he : r ∈ e.written) (hlast : ∀ e' ∈ after, r ∉ e'.written) : Assigned s bits es r (s.evaluate bits e)

theorem assigned_get_apply (s : State) (bits : Nat) (i : Instruction) (r : Register) :
    Assigned s bits i.effects r ((s.apply bits i).get r) := by
  by_cases hr : r ∈ s.tracked
  · cases hlast : Effect.lastWrite? i.effects r with
    | none =>
      have hnone := Effect.lastWrite?_eq_none_iff.mp hlast
      rw [apply, get_writes_of_not_mem hnone]
      exact .kept hr hnone
    | some e =>
      obtain ⟨before, after, hes, he, hafter⟩ := Effect.lastWrite?_eq_some_iff.mp hlast
      rw [apply, get_writes_of_lastWrite? hr hlast]
      exact .written hr hes he hafter
  · rw [get_of_not_mem (by rwa [tracked_apply])]
    exact .untracked hr

theorem Assigned.eq_get_apply {i : Instruction} (h : Assigned s bits i.effects r v) : (s.apply bits i).get r = v := by
  cases h with
  | untracked h => exact get_of_not_mem (by rwa [tracked_apply])
  | kept h hnone => exact get_writes_of_not_mem hnone
  | written h hes he hlast =>
    exact get_writes_of_lastWrite? h (Effect.lastWrite?_eq_some_iff.mpr ⟨_, _, hes, he, hlast⟩)

/-- Nothing is known of what an effect writes that is not understood or reads a register that is not followed. -/
theorem evaluate_eq_top {e : Effect}
    (h : e.isUnmodeled = true ∨ ∃ src, e.source? = some src ∧ src ∉ s.tracked) : s.evaluate bits e = .top := by
  rcases h with h | ⟨src, hsrc, huntracked⟩
  · cases e with
    | unmodeled => rfl
    | immediate | copy | extend | affine | clobber => cases h
  · cases e with
    | immediate | clobber | unmodeled => cases hsrc
    | copy =>
      cases hsrc
      exact get_of_not_mem huntracked
    | extend | affine =>
      cases hsrc
      rw [evaluate, get_of_not_mem huntracked]
      rfl

/-- After an instruction every register holds what the effects assign to it, all of them evaluated in the state before,
the same registers are followed, and only registers that the instruction writes have changed. -/
theorem apply_assigns (s : State) (bits : Nat) (i : Instruction) :
    (∀ r v, (s.apply bits i).get r = v ↔ Assigned s bits i.effects r v) ∧
    (∀ e, (e.isUnmodeled = true ∨ ∃ src, e.source? = some src ∧ src ∉ s.tracked) → s.evaluate bits e = .top) ∧
    (s.apply bits i).tracked = s.tracked ∧
    {r | (s.apply bits i).get r ≠ s.get r} ⊆ {r | r ∈ i.written} := by
  refine ⟨fun r v => ⟨?_, Assigned.eq_get_apply⟩, fun e => evaluate_eq_top, tracked_apply s bits i, ?_⟩
  · rintro rfl
    exact assigned_get_apply s bits i r
  · intro r hchanged
    by_contra hkept
    exact hchanged (get_apply_of_not_mem hkept)

/-- Two registers are swapped, a constant is made unknown together with another register, a register is written after
it has been made unknown, and one is copied from a register that is not followed. -/
def tangledWrites : Instruction :=
  ⟨0x1000, 4, "swap", [.copy 0 1, .copy 1 0, .immediate 2 7, .unmodeled ((RegisterSet.insert ∅ 2).insert 3),
    .offset 3 0 1 32, .copy 4 9]⟩

/-- The state before: the first two registers hold constants. -/
def twoConstants : State := ofFn (.below 5) fun r => if r.val < 2 then .exact (BitVec.ofNat 64 r.val) 32 else .bottom

theorem tangledWrites_assigned :
    (twoConstants.apply 32 tangledWrites).get 0 = .exact 1 32 ∧ (twoConstants.apply 32 tangledWrites).get 2 = .top ∧
      (twoConstants.apply 32 tangledWrites).get 3 = .exact 1 32 ∧ (twoConstants.apply 32 tangledWrites).get 4 = .top := by
  obtain ⟨hassigned, htop, -, -⟩ := apply_assigns twoConstants 32 tangledWrites
  have hlast {r : Register} {before after : List Effect} {e : Effect} (hr : r ∈ twoConstants.tracked)
      (hes : tangledWrites.effects = before ++ e :: after) (he : r ∈ e.written) (hafter : ∀ e' ∈ after, r ∉ e'.written) :
      (twoConstants.apply 32 tangledWrites).get r = twoConstants.evaluate 32 e :=
    (hassigned r _).mpr (.written hr hes he hafter)
  have hswap := hlast (r := 0) (by decide) (List.nil_append _).symm (by decide) (by decide)
  have hgap := hlast (r := 2) (e := .unmodeled ((RegisterSet.insert ∅ 2).insert 3)) (by decide)
    (show _ = [.copy 0 1, .copy 1 0, .immediate 2 7] ++ _ :: [.offset 3 0 1 32, .copy 4 9] from rfl) (by decide) (by decide)
  have hoffset := hlast (r := 3) (e := .offset 3 0 1 32) (by decide)
    (show _ = tangledWrites.effects.take 4 ++ _ :: [.copy 4 9] from rfl) (by decide) (by decide)
  have huntracked := hlast (r := 4) (e := .copy 4 9) (by decide)
    (show _ = tangledWrites.effects.take 5 ++ _ :: [] from rfl) (by decide) (by decide)
  exact ⟨hswap.trans (by decide), hgap.trans (htop _ (.inl rfl)), hoffset.trans (by decide),
    huntracked.trans (htop _ (.inr ⟨9, rfl, by decide⟩))⟩

end State

end CallFacts
