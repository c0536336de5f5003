import CallFacts.State

/-!
# The order of states

`s.Below t` compares two states over all registers at once. It is a preorder also between states
that follow different registers, agrees with `≤` where the upper state follows no more than the
lower one, and is kept by every operation on states: writing, joining, a whole instruction and a
whole block.
-/

namespace CallFacts

namespace Value

theorem mapExact_le {v w : Value} (h : v ≤ w) (f : Word → Word) (bits : Nat) :
    mapExact f bits v ≤ mapExact f bits w := by
  rcases h with rfl | rfl | rfl
  · exact bottom_le _
  · exact le_top _
  · exact le_refl _

end Value

namespace State

/-! ### Relations that instructions keep -/

section

variable {R : State → State → Prop} {V : Value → Value → Prop} {registerBits : Nat} {s t : State}
  (evaluate : ∀ {s t}, R s t → ∀ e, V (s.evaluate registerBits e) (t.evaluate registerBits e))
  (assign : ∀ {s t}, R s t → ∀ {v w}, V v w → ∀ set, R (s.assign set v) (t.assign set w))

include evaluate assign

/-- If effects write related values in related states, and writing related values leaves them related,
then an instruction does. -/
theorem rel_apply (h : R s t) (i : Instruction) : R (s.apply registerBits i) (t.apply registerBits i) := by
  -- All effects read `s` and `t`, while the states that they write to go on.
  refine List.foldl_rel h ?_
  intro e _ now later hnow
  exact assign hnow (evaluate h e) e.written

theorem rel_applyAll (h : R s t) (is : List Instruction) :
    R (s.applyAll registerBits is) (t.applyAll registerBits is) := by
  refine List.foldl_rel h ?_
  intro i _ s t hst
  exact rel_apply evaluate assign hst i

end

/-! ### The order -/

/-- The upper state follows only registers that the lower one follows, and its value of each
register is above the lower one's. -/
structure Below (s t : State) : Prop where
  tracked : ∀ r ∈ t.tracked, r ∈ s.tracked
  get : ∀ r, s.get r ≤ t.get r

variable {s t u : State}

theorem Below.refl (s : State) : s.Below s := ⟨fun _ h => h, fun _ => Value.le_refl _⟩

theorem Below.trans (h : s.Below t) (h' : t.Below u) : s.Below u :=
  ⟨fun r hr => h.tracked r (h'.tracked r hr), fun r => Value.le_trans (h.get r) (h'.get r)⟩

theorem Below.antisymm (h : s.Below t) (h' : t.Below s) : s = t := by
  refine ext_get (RegisterSet.ext fun r => ⟨h'.tracked r, h.tracked r⟩) ?_
  intro r _
  exact Value.le_antisymm (h.get r) (h'.get r)

/-- States that may be missing are the same if wherever one is there, the other is and is above it. -/
theorem eq_of_below_of_below {o o' : Option State} (h : ∀ s, o = some s → ∃ t, o' = some t ∧ s.Below t)
    (h' : ∀ t, o' = some t → ∃ s, o = some s ∧ t.Below s) : o = o' := by
  cases o with
  | none =>
    cases o' with
    | none => rfl
    | some t =>
      obtain ⟨s, hs, -⟩ := h' t rfl
      cases hs
  | some s =>
    obtain ⟨t, rfl, hst⟩ := h s rfl
    obtain ⟨u, hu, htu⟩ := h' t rfl
    cases hu
    rw [hst.antisymm htu]

theorem Below.le (h : s.Below t) : s ≤ t := le_iff.mpr fun r _ => h.get r

/-- Where the upper state follows no more registers, nothing is lost in comparing only those that
the lower state follows: the others are unknown in both. -/
theorem below_of_le (htracked : ∀ r ∈ t.tracked, r ∈ s.tracked) (h : s ≤ t) : s.Below t := by
  refine ⟨htracked, ?_⟩
  intro r
  by_cases hr : r ∈ s.tracked
  · exact le_iff.mp h r hr
  · rw [get_of_not_mem (fun ht => hr (htracked r ht))]
    exact Value.le_top _

theorem below_iff_le (htracked : t.tracked = s.tracked) : s.Below t ↔ s ≤ t :=
  ⟨Below.le, below_of_le fun _ hr => htracked ▸ hr⟩

/-! ### Joining -/

theorem below_join_left (s t : State) : s.Below (s.join t) := by
  constructor
  · intro r hr
    simpa using hr
  · intro r
    by_cases hr : r ∈ s.tracked
    · rw [get_join hr]
      exact Value.le_join_left _ _
    · rw [get_of_not_mem (s := s.join t) (by simpa using hr)]
      exact Value.le_top _

theorem below_join_right (htracked : ∀ r ∈ s.tracked, r ∈ t.tracked) : t.Below (s.join t) := by
  constructor
  · intro r hr
    exact htracked r (by simpa using hr)
  · intro r
    by_cases hr : r ∈ s.tracked
    · rw [get_join hr]
      exact Value.le_join_right _ _
    · rw [get_of_not_mem (s := s.join t) (by simpa using hr)]
      exact Value.le_top _

theorem join_below (hs : s.Below u) (ht : t.Below u) : (s.join t).Below u := by
  constructor
  · intro r hr
    simpa using hs.tracked r hr
  · intro r
    by_cases hr : r ∈ s.tracked
    · rw [get_join hr]
      exact Value.join_le (hs.get r) (ht.get r)
    · rw [get_of_not_mem (s := u) fun hu => hr (hs.tracked r hu)]
      exact Value.le_top _

/-! ### Writing and instructions -/

theorem Below.assign (h : s.Below t) {v w : Value} (hvw : v ≤ w) (set : RegisterSet) :
    (s.assign set v).Below (t.assign set w) := by
  constructor
  · intro r hr
    simpa using h.tracked r (by simpa using hr)
  · intro r
    rw [get_assign, get_assign]
    by_cases ht : r ∈ t.tracked
    · have hs : r ∈ s.tracked := h.tracked r ht
      by_cases hr : r ∈ set
      · simpa [hs, ht, hr] using hvw
      · simpa [hr] using h.get r
    · simp [ht, get_of_not_mem ht]

theorem Below.clobber (h : s.Below t) (set : RegisterSet) : (s.clobber set).Below (t.clobber set) :=
  h.assign (Value.le_refl _) set

theorem Below.evaluate (h : s.Below t) (registerBits : Nat) (e : Effect) :
    s.evaluate registerBits e ≤ t.evaluate registerBits e := by
  cases e with
  | immediate dst value => exact Value.le_refl _
  | copy dst src => exact h.get src
  | extend dst src source target signed =>
    exact Value.mapExact_le (Value.mapExact_le (h.get src) _ _) _ _
  | affine dst src multiplier offset bits =>
    exact Value.mapExact_le (Value.mapExact_le (h.get src) _ _) _ _
  | clobber dst => exact Value.le_refl _
  | unmodeled written => exact Value.le_refl _

theorem Below.apply (h : s.Below t) (registerBits : Nat) (i : Instruction) :
    (s.apply registerBits i).Below (t.apply registerBits i) :=
  rel_apply (fun h => h.evaluate registerBits) Below.assign h i

theorem Below.applyAll (h : s.Below t) (registerBits : Nat) (is : List Instruction) :
    (s.applyAll registerBits is).Below (t.applyAll registerBits is) :=
  rel_applyAll (fun h => h.evaluate registerBits) Below.assign h is

/-- Over one set of tracked registers a block and a clobber keep the order of states. -/
theorem transfer_mono (htracked : s.tracked = t.tracked) (hle : s ≤ t) (registerBits : Nat)
    (is : List Instruction) (set : RegisterSet) :
    s.applyAll registerBits is ≤ t.applyAll registerBits is ∧ s.clobber set ≤ t.clobber set := by
  have hbelow : s.Below t := (below_iff_le htracked.symm).mpr hle
  exact ⟨(hbelow.applyAll registerBits is).le, (hbelow.clobber set).le⟩

/-- Registers 0 and 1 are exchanged, one of them with a factor; register 2 receives one that is not tracked
and register 3 the low byte of the old register 1. -/
def exchange : Instruction :=
  ⟨0x1000, 4, "exchange", [.copy 0 1, .affine 1 0 4 8 32, .copy 2 9, .extend 3 1 8 32 true]⟩

/-- Registers 0 and 1 are known. -/
def knownPair : State := ((new (.below 4)).set 0 (.ofWord 5 32)).set 1 (.ofWord 0x80 32)

/-- What is unknown of one register stays so wherever the exchange moves it. -/
theorem exchange_mono : knownPair ≤ knownPair.clobber (.below 1) ∧
    knownPair.applyAll 32 [exchange, exchange] ≤ (knownPair.clobber (.below 1)).applyAll 32 [exchange, exchange] ∧
    knownPair.clobber (.below 2) ≤ (knownPair.clobber (.below 1)).clobber (.below 2) := by
  have hle : knownPair ≤ knownPair.clobber (.below 1) := by decide +kernel
  exact ⟨hle, transfer_mono (tracked_clobber _ _).symm hle 32 [exchange, exchange] (.below 2)⟩

/-! ### The followed registers stay -/

@[simp] theorem tracked_set (s : State) (r : Register) (v : Value) : (s.set r v).tracked = s.tracked :=
  tracked_assign s _ v

theorem tracked_writes (es : List Effect) (value : Effect → Value) (s : State) :
    (es.foldl (fun u e => u.assign e.written (value e)) s).tracked = s.tracked := by
  induction es generalizing s with
  | nil => rfl
  | cons e es ih => rw [List.foldl_cons, ih, tracked_assign]

@[simp] theorem tracked_apply (s : State) (registerBits : Nat) (i : Instruction) :
    (s.apply registerBits i).tracked = s.tracked := tracked_writes _ _ _

@[simp] theorem tracked_applyAll (s : State) (registerBits : Nat) (is : List Instruction) :
    (s.applyAll registerBits is).tracked = s.tracked := by
  induction is generalizing s with
  | nil => rfl
  | cons i is ih => exact (ih (s.apply registerBits i)).trans (tracked_apply s registerBits i)

end State

end CallFacts
