import CallFacts.Proofs.SiteValues
import CallFacts.Proofs.Soundness

/-!
# Coarser configurations

A configuration that follows fewer registers, or lets a call make more of them unknown, blurs the
states of a function: every register keeps its value or becomes unknown, and `bottom` stays `bottom`.
Two runs of the worklist under the two configurations need not resemble each other, so this is shown
of the least states: those of the coarser configuration are above those of the finer one, and not
further than where the finer states are blurred in the same registers. Hence a fact of the coarser
configuration is one of the finer.
-/

namespace CallFacts

/-! ### Configurations -/

/-- How much a call makes unknown, on a scale of three. -/
def CallPolicy.strength : CallPolicy → Nat
  | preserve => 0
  | clobberCallerSaved => 1
  | clobberAll => 2

/-- The first configuration follows registers of the second only and clobbers at least as much at
calls; for the rest they are alike. -/
structure Config.Coarsens (arch : Arch) (c d : Config) : Prop where
  tracked : ∀ r ∈ c.trackedFor arch, r ∈ d.trackedFor arch
  callPolicy : d.callPolicy.strength ≤ c.callPolicy.strength
  observe : c.observe = d.observe
  visitMultiplier : c.visitMultiplier = d.visitMultiplier

namespace Config.Coarsens

variable {arch : Arch} {c d : Config} (h : c.Coarsens arch d)

include h

theorem clobbered {r : Register} (hr : r ∈ c.trackedFor arch)
    (hd : r ∈ d.callPolicy.clobbered arch (d.trackedFor arch)) :
    r ∈ c.callPolicy.clobbered arch (c.trackedFor arch) := by
  have hstrength := h.callPolicy
  cases hc : c.callPolicy with
  | clobberAll => exact hr
  | clobberCallerSaved =>
    cases hd' : d.callPolicy with
    | clobberAll => simp [hc, hd', CallPolicy.strength] at hstrength
    | clobberCallerSaved =>
      rw [hd'] at hd
      exact RegisterSet.mem_inter.mpr ⟨(RegisterSet.mem_inter.mp hd).1, hr⟩
    | preserve => simp [hd', CallPolicy.clobbered] at hd
  | preserve =>
    cases hd' : d.callPolicy with
    | clobberAll => simp [hc, hd', CallPolicy.strength] at hstrength
    | clobberCallerSaved => simp [hc, hd', CallPolicy.strength] at hstrength
    | preserve => simp [hd', CallPolicy.clobbered] at hd

theorem leavesRoom (hd : d.LeavesRoom arch) : c.LeavesRoom arch := by
  have hsize : (c.trackedFor arch).size ≤ (d.trackedFor arch).size := by
    refine List.countP_mono_left fun r _ hr => ?_
    exact decide_eq_true (h.tracked r (of_decide_eq_true hr))
  refine ⟨h.visitMultiplier ▸ hd.multiplier, ?_⟩
  rw [h.visitMultiplier]
  exact Nat.lt_of_le_of_lt (Nat.mul_le_mul_left _ (Nat.succ_le_succ hsize)) hd.fits

end Config.Coarsens

/-! ### Blurred states -/

/-- The first value is the second or unknown. -/
def Value.Blurs (v w : Value) : Prop := v = top ∨ v = w

namespace Value

variable {u v w : Value}

theorem blurs_refl (v : Value) : v.Blurs v := .inr rfl

theorem Blurs.trans (h : u.Blurs v) (h' : v.Blurs w) : u.Blurs w := by
  rcases h with rfl | rfl
  · exact .inl rfl
  · exact h'

theorem Blurs.le (h : v.Blurs w) : w ≤ v := by
  rcases h with rfl | rfl
  · exact le_top w
  · exact le_refl v

theorem Blurs.mapExact (h : v.Blurs w) (f : Word → Word) (bits : Nat) :
    (Value.mapExact f bits v).Blurs (Value.mapExact f bits w) := by
  rcases h with rfl | rfl
  · exact .inl rfl
  · exact blurs_refl _

end Value

namespace State

/-- The first state follows registers of the second only, and gives each the value it has there or says
that it is unknown. -/
structure Blurs (s t : State) : Prop where
  tracked : ∀ r ∈ s.tracked, r ∈ t.tracked
  get : ∀ r, (s.get r).Blurs (t.get r)

variable {s t u : State}

theorem Blurs.refl (s : State) : s.Blurs s := ⟨fun _ h => h, fun r => Value.blurs_refl (s.get r)⟩

theorem Blurs.trans (h : s.Blurs t) (h' : t.Blurs u) : s.Blurs u :=
  ⟨fun r hr => h'.tracked r (h.tracked r hr), fun r => (h.get r).trans (h'.get r)⟩

theorem Blurs.below (h : s.Blurs t) : t.Below s := ⟨h.tracked, fun r => (h.get r).le⟩

theorem Blurs.assign (h : s.Blurs t) {v w : Value} (hvw : v.Blurs w) (set : RegisterSet) :
    (s.assign set v).Blurs (t.assign set w) := by
  constructor
  · intro r hr
    simpa using h.tracked r (by simpa using hr)
  · intro r
    by_cases hs : r ∈ s.tracked
    · rw [get_assign, get_assign]
      by_cases hr : r ∈ set
      · simpa [hs, h.tracked r hs, hr] using hvw
      · simpa [hr] using h.get r
    · exact .inl (get_of_not_mem (by simpa using hs))

theorem Blurs.evaluate (h : s.Blurs t) (bits : Nat) (e : Effect) : (s.evaluate bits e).Blurs (t.evaluate bits e) := by
  cases e with
  | immediate dst value => exact Value.blurs_refl _
  | copy dst src => exact h.get src
  | extend dst src source target signed => exact ((h.get src).mapExact _ _).mapExact _ _
  | affine dst src multiplier offset width => exact ((h.get src).mapExact _ _).mapExact _ _
  | clobber dst => exact Value.blurs_refl _
  | unmodeled written => exact Value.blurs_refl _

theorem Blurs.applyAll (h : s.Blurs t) (bits : Nat) (is : List Instruction) :
    (s.applyAll bits is).Blurs (t.applyAll bits is) :=
  rel_applyAll (fun h => h.evaluate bits) Blurs.assign h is

/-- Clobbering more blurs more. -/
theorem clobber_blurs_clobber {set set' : RegisterSet} (h : ∀ r ∈ s.tracked, r ∈ set → r ∈ set') :
    (s.clobber set').Blurs (s.clobber set) := by
  constructor
  · intro r hr
    simpa using hr
  · intro r
    by_cases hs : r ∈ s.tracked
    · simp only [clobber, get_assign, hs, true_and]
      by_cases hr : r ∈ set'
      · exact .inl (if_pos hr)
      · rw [if_neg hr, if_neg fun hset => hr (h r hs hset)]
        exact Value.blurs_refl _
    · exact .inl (get_of_not_mem (by simpa using hs))

/-! ### Blurring in the same registers -/

/-- The state with those registers unknown that are unknown in another state. -/
def blurredLike (t s : State) : State := ofFn s.tracked fun r => if s.get r = .top then .top else t.get r

@[simp] theorem tracked_blurredLike (t s : State) : (t.blurredLike s).tracked = s.tracked := tracked_ofFn _ _

theorem get_blurredLike (t s : State) (r : Register) :
    (t.blurredLike s).get r = if s.get r = .top then .top else t.get r := by
  by_cases hr : r ∈ s.tracked
  · simp [blurredLike, get_ofFn, hr]
  · rw [get_of_not_mem (by simpa using hr), if_pos (get_of_not_mem hr)]

theorem blurredLike_blurs (h : ∀ r ∈ s.tracked, r ∈ t.tracked) : (t.blurredLike s).Blurs t := by
  constructor
  · intro r hr
    exact h r (by simpa using hr)
  · intro r
    rw [get_blurredLike]
    split
    · exact .inl rfl
    · exact Value.blurs_refl _

theorem blurredLike_below (h : t.Below s) : (t.blurredLike s).Below s := by
  constructor
  · intro r hr
    simpa using hr
  · intro r
    rw [get_blurredLike]
    split
    · next htop => exact htop ▸ Value.le_refl _
    · exact h.get r

/-- A state that blurs one below `t` and is itself below `s` is below `t` blurred like `s`: where `s` is
known, so is the state. -/
theorem below_blurredLike {w : State} (hs : u.Below s) (hw : u.Blurs w) (ht : w.Below t) :
    u.Below (t.blurredLike s) := by
  constructor
  · intro r hr
    exact hs.tracked r (by simpa using hr)
  · intro r
    rw [get_blurredLike]
    split
    · exact Value.le_top _
    · next hknown =>
      rcases hw.get r with htop | heq
      · have hle := hs.get r
        rw [htop] at hle
        rcases hle with h | h | h
        · cases h
        · exact absurd h hknown
        · exact absurd h.symm hknown
      · exact heq ▸ ht.get r

theorem blurs_of_below (h : t.Below s) (h' : s.Below (t.blurredLike s)) : s.Blurs t := by
  refine ⟨h.tracked, ?_⟩
  intro r
  by_cases hknown : s.get r = .top
  · exact .inl hknown
  · have hle := h'.get r
    rw [get_blurredLike, if_neg hknown] at hle
    exact .inr (Value.le_antisymm hle (h.get r))

end State

/-! ### The least states of two configurations -/

namespace FunctionAnalysis

variable {p : Program} {ix : EdgeIndex} {c d : Config} {f : Function} {a a' : FunctionAnalysis}
  {b : BlockId} {afterCall : Bool} {s t : State}

theorem outflow_blurs (h : s.Blurs t) : (outflow p c b afterCall s).Blurs (outflow p c b afterCall t) := by
  have hexit := h.applyAll p.arch.registerBits (p.instructions b)
  simp only [outflow]
  split
  · exact hexit.assign (Value.blurs_refl _) _
  · exact hexit

section

variable (hcd : c.Coarsens p.arch d)

include hcd

theorem outflow_blurs_outflow (hs : s.tracked = c.trackedFor p.arch) :
    (outflow p c b afterCall s).Blurs (outflow p d b afterCall s) := by
  simp only [outflow]
  split
  · refine State.clobber_blurs_clobber fun r hr hclobbered => ?_
    exact hcd.clobbered (by simpa [hs] using hr) hclobbered
  · exact .refl _

theorem initialState_blurs : (initialState p.arch (c.trackedFor p.arch) f).Blurs
    (initialState p.arch (d.trackedFor p.arch) f) := by
  constructor
  · intro r hr
    simpa using hcd.tracked r (by simpa using hr)
  · intro r
    by_cases hr : r ∈ c.trackedFor p.arch
    · rw [get_initialState p.arch f hr, get_initialState p.arch f (hcd.tracked r hr)]
      exact Value.blurs_refl _
    · exact .inl (State.get_of_not_mem (by simpa using hr))

end

/-- The entry state of the second analysis with those registers unknown that are unknown in the first. -/
def blurredState? (a a' : FunctionAnalysis) (b : BlockId) : Option State :=
  Option.map₂ (fun s t => t.blurredLike s) (a.entryState? b) (a'.entryState? b)

theorem blurredState?_eq_some_iff {u : State} : blurredState? a a' b = some u ↔
    ∃ s t, a.entryState? b = some s ∧ a'.entryState? b = some t ∧ t.blurredLike s = u := by
  simp only [blurredState?, Option.map₂_eq_some_iff, Option.mem_def]

variable (h : analyze p ix c f = .ok a) (h' : analyze p ix d f = .ok a')

include h h'

theorem graph_eq_graph : a'.graph = a.graph := by
  have hgraph := (analyze_eq_ok h').1.symm.trans (analyze_eq_ok h).1
  injection hgraph

theorem exists_entryState?_iff_exists : (∃ t, a'.entryState? b = some t) ↔ ∃ s, a.entryState? b = some s := by
  simp only [← Option.isSome_iff_exists, isSome_entryState?_iff h, isSome_entryState?_iff h',
    graph_eq_graph h h']

variable (hcd : c.Coarsens p.arch d)

include hcd

/-- The states of the finer configuration are below. -/
theorem entryState?_below_coarser (hs : a.entryState? b = some s) (ht : a'.entryState? b = some t) :
    t.Below s := by
  obtain ⟨s', hs', hbelow⟩ : ∃ s', a.entryState? b = some s' ∧ t.Below s' := by
    refine exists_above_entryState? h' ?_ ?_ ht
    · obtain ⟨s₀, hs₀, hinitial⟩ := entryState?_entry h
      exact ⟨s₀, hs₀, (initialState_blurs hcd).below.trans hinitial⟩
    · intro b b' afterCall s₁ hs₁ hway
      rw [graph_eq_graph h h'] at hway
      obtain ⟨s₂, hs₂, hflow⟩ := entryState?_along h hs₁ hway
      exact ⟨s₂, hs₂, (outflow_blurs_outflow hcd (tracked_entryState? h hs₁)).below.trans hflow⟩
  rwa [Option.some.inj (hs.symm.trans hs')]

/-- The states of the coarser configuration are not above those of the finer one where they are known,
since the finer ones, with the same registers unknown, take in all that flows. -/
theorem entryState?_below_blurredLike (hs : a.entryState? b = some s) (ht : a'.entryState? b = some t) :
    s.Below (t.blurredLike s) := by
  obtain ⟨u, hu, hbelow⟩ : ∃ u, blurredState? a a' b = some u ∧ s.Below u := by
    refine exists_above_entryState? h ?_ ?_ hs
    · obtain ⟨s₀, hs₀, hinitial⟩ := entryState?_entry h
      obtain ⟨t₀, ht₀, hinitial'⟩ := entryState?_entry h'
      refine ⟨_, blurredState?_eq_some_iff.mpr ⟨s₀, t₀, hs₀, ht₀, rfl⟩, ?_⟩
      exact State.below_blurredLike hinitial (initialState_blurs hcd) hinitial'
    · intro b b' afterCall u hu hway
      obtain ⟨s₁, t₁, hs₁, ht₁, rfl⟩ := blurredState?_eq_some_iff.mp hu
      obtain ⟨s₂, hs₂, hflow⟩ := entryState?_along h hs₁ hway
      obtain ⟨t₂, ht₂, hflow'⟩ := entryState?_along h' ht₁ (graph_eq_graph h h' ▸ hway)
      refine ⟨_, blurredState?_eq_some_iff.mpr ⟨s₂, t₂, hs₂, ht₂, rfl⟩, ?_⟩
      have hfiner := entryState?_below_coarser h h' hcd hs₁ ht₁
      have hblurs : (outflow p c b afterCall (t₁.blurredLike s₁)).Blurs (outflow p d b afterCall t₁) := by
        refine (outflow_blurs_outflow hcd ?_).trans (outflow_blurs (State.blurredLike_blurs hfiner.tracked))
        rw [State.tracked_blurredLike, tracked_entryState? h hs₁]
      have hcoarse := (outflow_below (State.blurredLike_below hfiner)).trans hflow
      exact State.below_blurredLike hcoarse hblurs hflow'
  obtain rfl := Option.some.inj (hu.symm.trans (blurredState?_eq_some_iff.mpr ⟨s, t, hs, ht, rfl⟩))
  exact hbelow

/-- At every block the coarser configuration blurs what the finer one knows. -/
theorem entryState?_blurs (hs : a.entryState? b = some s) (ht : a'.entryState? b = some t) : s.Blurs t :=
  State.blurs_of_below (entryState?_below_coarser h h' hcd hs ht) (entryState?_below_blurredLike h h' hcd hs ht)

end FunctionAnalysis

/-! ### The facts of two configurations -/

namespace Program

section

variable {p : Program} {c d : Config} {f : Function} {site : Site} {v : Value}
  (hcd : c.Coarsens p.arch d) (hroom : d.LeavesRoom p.arch)

include hcd

theorem observes_iff_of_coarsens {b : BlockId} {last : Instruction} : p.Observes c b last ↔ p.Observes d b last := by
  rw [Observes, Observes, hcd.observe]

include hroom

/-- What the coarser configuration shows is unknown or shown by the finer one. -/
theorem shownAt_finer (h : ShownAt p.arch (p.observations c) site v) (hv : v ≠ .top) :
    ShownAt p.arch (p.observations d) site v := by
  obtain ⟨htracked, hbottom, f, hf, a, ha, b, s, last, hs, hobserves, haddress, rfl⟩ :=
    shownAt_observations_iff.mp h
  obtain ⟨a', ha'⟩ := (FunctionAnalysis.exists_analyze_iff hroom).mpr (FunctionAnalysis.wellFormed_of_analyze ha)
  obtain ⟨t, ht⟩ := (FunctionAnalysis.exists_entryState?_iff_exists ha ha').mpr ⟨s, hs⟩
  have hblurs := (FunctionAnalysis.entryState?_blurs ha ha' hcd hs ht).applyAll p.arch.registerBits
    (p.instructions b).dropLast
  have hget : (p.beforeLast b t).get site.register = (p.beforeLast b s).get site.register :=
    ((hblurs.get site.register).resolve_left hv).symm
  exact shownAt_observations_iff.mpr ⟨hcd.tracked _ htracked, hbottom, f, hf, a', ha', b, t, last, ht,
    (observes_iff_of_coarsens hcd).mp hobserves, haddress, hget⟩

/-- What the finer configuration shows, the coarser one blurs. -/
theorem shownAt_coarser (h : ShownAt p.arch (p.observations d) site v) (htracked : site.register ∈ c.trackedFor p.arch) :
    ∃ w, ShownAt p.arch (p.observations c) site w ∧ w.Blurs v := by
  obtain ⟨-, hbottom, f, hf, a', ha', b, t, last, ht, hobserves, haddress, rfl⟩ :=
    shownAt_observations_iff.mp h
  obtain ⟨a, ha⟩ :=
    (FunctionAnalysis.exists_analyze_iff (hcd.leavesRoom hroom)).mpr (FunctionAnalysis.wellFormed_of_analyze ha')
  obtain ⟨s, hs⟩ := (FunctionAnalysis.exists_entryState?_iff_exists ha ha').mp ⟨t, ht⟩
  have hblurs := (FunctionAnalysis.entryState?_blurs ha ha' hcd hs ht).applyAll p.arch.registerBits
    (p.instructions b).dropLast
  have hget : ((p.beforeLast b s).get site.register).Blurs ((p.beforeLast b t).get site.register) :=
    hblurs.get site.register
  refine ⟨_, shownAt_observations_iff.mpr ⟨htracked, ?_, f, hf, a, ha, b, s, last, hs,
    (observes_iff_of_coarsens hcd).mpr hobserves, haddress, rfl⟩, hget⟩
  intro hbottom'
  rcases hget with htop | heq
  · rw [hbottom'] at htop
    cases htop
  · exact hbottom (heq ▸ hbottom')

end

/-- Following more registers and trusting calls more loses no fact, and changes the value and width of
none. -/
theorem facts_mono_of_coarsens {p : Program} {c d : Config} (hcd : c.Coarsens p.arch d)
    (hroom : d.LeavesRoom p.arch) {fact : Fact} (hfact : fact ∈ (p.analyze c).facts.facts) :
    fact ∈ (p.analyze d).facts.facts := by
  obtain ⟨hshown, hle⟩ := mem_facts_analyze_iff.mp hfact
  have htracked := (shownAt_observations_iff.mp hshown).1
  refine mem_facts_analyze_iff.mpr ⟨shownAt_finer hcd hroom hshown Value.noConfusion, ?_⟩
  intro v hv
  obtain ⟨w, hw, hblurs⟩ := shownAt_coarser hcd hroom hv htracked
  exact Value.le_trans hblurs.le (hle w hw)

/-- Follows a single register and lets a call clobber it. -/
def cautious : Config := { tracked := some (.ofList [0]), callPolicy := .clobberAll }

theorem fact_skippedMove_cautious : ⟨⟨0x1008, 0⟩, 5, 32⟩ ∈ (skippedMove.analyze cautious).facts.facts := by
  decide +kernel

/-- The fact that the cautious configuration finds is found by the default one too. -/
theorem skippedMove_fact_kept : ⟨⟨0x1008, 0⟩, 5, 32⟩ ∈ (skippedMove.analyze {}).facts.facts :=
  facts_mono_of_coarsens (c := cautious) (d := {}) ⟨by decide, by decide, rfl, rfl⟩ ⟨by decide, by decide⟩
    fact_skippedMove_cautious

end Program

end CallFacts
