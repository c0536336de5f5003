import CallFacts.Proofs.LeastStates
import CallFacts.Report

/-!
# What a fact rests on

Gathering joins all values observed at a site, so a fact is above every value that any function
shows at its site, and its register is followed. A register that is not listed in an observation
has not been written, and the value of such a register is below everything.
-/

namespace CallFacts

/-! ### Inserting with merging -/

section

variable {α : Type} {rank : α → Nat} {merge : α → α → α} {x y : α} {xs : List α}

theorem mem_insertByRank (h : y ∈ insertByRank rank merge x xs) :
    y = x ∨ y ∈ xs ∨ ∃ z ∈ xs, rank x = rank z ∧ y = merge z x := by
  induction xs with
  | nil => exact .inl (List.mem_singleton.mp h)
  | cons z zs ih =>
    simp only [insertByRank] at h
    split at h
    · rcases List.mem_cons.mp h with rfl | h
      · exact .inl rfl
      · exact .inr (.inl h)
    · split at h
      · next heq =>
        rcases List.mem_cons.mp h with rfl | h
        · exact .inr (.inr ⟨z, List.mem_cons_self, heq, rfl⟩)
        · exact .inr (.inl (List.mem_cons_of_mem _ h))
      · rcases List.mem_cons.mp h with rfl | h
        · exact .inr (.inl List.mem_cons_self)
        · rcases ih h with rfl | h | ⟨w, hw, heq, rfl⟩
          · exact .inl rfl
          · exact .inr (.inl (List.mem_cons_of_mem _ h))
          · exact .inr (.inr ⟨w, List.mem_cons_of_mem _ hw, heq, rfl⟩)

/-- The element that is put in is there afterwards, by itself or merged into one of its rank. -/
theorem inserted_mem_insertByRank :
    x ∈ insertByRank rank merge x xs ∨
      ∃ z ∈ xs, rank x = rank z ∧ merge z x ∈ insertByRank rank merge x xs := by
  induction xs with
  | nil => exact .inl (List.mem_singleton_self x)
  | cons z zs ih =>
    simp only [insertByRank]
    split
    · exact .inl List.mem_cons_self
    · split
      · next heq => exact .inr ⟨z, List.mem_cons_self, heq, List.mem_cons_self⟩
      · rcases ih with h | ⟨w, hw, heq, h⟩
        · exact .inl (List.mem_cons_of_mem _ h)
        · exact .inr ⟨w, List.mem_cons_of_mem _ hw, heq, List.mem_cons_of_mem _ h⟩

/-- The elements that were there stay, but for one of the same rank, which is merged. -/
theorem kept_mem_insertByRank (h : y ∈ xs) :
    y ∈ insertByRank rank merge x xs ∨ (rank x = rank y ∧ merge y x ∈ insertByRank rank merge x xs) := by
  induction xs with
  | nil => cases h
  | cons z zs ih =>
    simp only [insertByRank]
    split
    · exact .inl (List.mem_cons_of_mem _ h)
    · split
      · next heq =>
        rcases List.mem_cons.mp h with rfl | h
        · exact .inr ⟨heq, List.mem_cons_self⟩
        · exact .inl (List.mem_cons_of_mem _ h)
      · rcases List.mem_cons.mp h with rfl | h
        · exact .inl List.mem_cons_self
        · rcases ih h with h | ⟨heq, h⟩
          · exact .inl (List.mem_cons_of_mem _ h)
          · exact .inr ⟨heq, List.mem_cons_of_mem _ h⟩

end

theorem FactTable.mem_of_mem_ofList {fact : Fact} {fs : List Fact} (h : fact ∈ (ofList fs).facts) :
    fact ∈ fs := by
  suffices hgen : ∀ t : FactTable, fact ∈ (fs.foldl insert t).facts → fact ∈ t.facts ∨ fact ∈ fs from
    (hgen empty h).resolve_left List.not_mem_nil
  clear h
  induction fs with
  | nil => exact fun t h => .inl h
  | cons f fs ih =>
    intro t h
    rcases ih (t.insert f) h with h | h
    · rcases mem_insertByRank h with rfl | h | ⟨old, -, heq, rfl⟩
      · exact .inr List.mem_cons_self
      · exact .inl h
      · -- The newcomer replaces a fact at its own site.
        rw [← Site.rank_injective heq]
        exact .inr List.mem_cons_self
    · exact .inr (List.mem_cons_of_mem _ h)

/-! ### Gathering evidence -/

namespace Evidence

variable {e e' : Evidence} {es : List Evidence}

/-- The first evidence is about the site of the second and its joined value is above. -/
def Covers (e e' : Evidence) : Prop := e.site = e'.site ∧ e'.joined ≤ e.joined

theorem covers_merge_left (e e' : Evidence) : (e.merge e').Covers e := ⟨rfl, Value.le_join_left _ _⟩

theorem covers_merge_right (h : e.site = e'.site) : (e.merge e').Covers e' := ⟨h, Value.le_join_right _ _⟩

theorem Covers.trans {e'' : Evidence} (h : e.Covers e') (h' : e'.Covers e'') : e.Covers e'' :=
  ⟨h.1.trans h'.1, Value.le_trans h'.2 h.2⟩

/-- More evidence gathered onto what has been gathered already. -/
def gatherOnto (gathered es : List Evidence) : List Evidence :=
  es.foldl (fun gathered e => insertByRank (fun e => e.site.rank) merge e gathered) gathered

theorem covered_gatherOnto {gathered : List Evidence} (h : e ∈ es ∨ ∃ e' ∈ gathered, e'.Covers e) :
    ∃ e' ∈ gatherOnto gathered es, e'.Covers e := by
  induction es generalizing gathered with
  | nil => exact h.resolve_left List.not_mem_nil
  | cons new es ih =>
    refine ih ?_
    rcases h with h | ⟨e', he', hcovers⟩
    · rcases List.mem_cons.mp h with rfl | h
      · right
        rcases inserted_mem_insertByRank with hnew | ⟨old, -, heq, hmerged⟩
        · exact ⟨e, hnew, rfl, Value.le_refl _⟩
        · exact ⟨_, hmerged, covers_merge_right (Site.rank_injective heq).symm⟩
      · exact .inl h
    · right
      rcases kept_mem_insertByRank he' with hold | ⟨-, hmerged⟩
      · exact ⟨e', hold, hcovers⟩
      · exact ⟨_, hmerged, (covers_merge_left e' new).trans hcovers⟩

/-- Every piece of evidence is covered by what is gathered. -/
theorem covered_gather (he : e ∈ es) : ∃ e' ∈ gather es, e'.Covers e := covered_gatherOnto (.inl he)

theorem site_of_mem_gatherOnto {gathered : List Evidence} (he : e ∈ gatherOnto gathered es) :
    ∃ e', (e' ∈ gathered ∨ e' ∈ es) ∧ e'.site = e.site := by
  induction es generalizing gathered with
  | nil => exact ⟨e, .inl he, rfl⟩
  | cons new es ih =>
    obtain ⟨e', he' | he', hsite⟩ := ih he
    · rcases mem_insertByRank he' with rfl | he' | ⟨old, hold, -, rfl⟩
      · exact ⟨e', .inr List.mem_cons_self, hsite⟩
      · exact ⟨e', .inl he', hsite⟩
      · exact ⟨old, .inl hold, hsite⟩
    · exact ⟨e', .inr (List.mem_cons_of_mem _ he'), hsite⟩

theorem site_of_mem_gather (he : e ∈ gather es) : ∃ e' ∈ es, e'.site = e.site := by
  have hgathered : e ∈ gatherOnto [] es := he
  obtain ⟨e', he', hsite⟩ := site_of_mem_gatherOnto hgathered
  exact ⟨e', he'.resolve_left List.not_mem_nil, hsite⟩

theorem pairwise_gatherOnto {gathered : List Evidence}
    (h : gathered.Pairwise fun e e' => e.site.rank < e'.site.rank) :
    (gatherOnto gathered es).Pairwise fun e e' => e.site.rank < e'.site.rank := by
  induction es generalizing gathered with
  | nil => exact h
  | cons new es ih => exact ih (pairwise_insertByRank (fun _ => rfl) h)

/-- There is one piece of evidence for each site. -/
theorem eq_of_mem_gather (he : e ∈ gather es) (he' : e' ∈ gather es) (hsite : e.site = e'.site) : e = e' := by
  have hascending : (gather es).Pairwise fun e e' => e.site.rank < e'.site.rank := pairwise_gatherOnto .nil
  have hnodup : ((gather es).map fun e => e.site.rank).Nodup :=
    List.pairwise_map.mpr (hascending.imp Nat.ne_of_lt)
  exact List.inj_on_of_nodup_map hnodup he he' (by rw [hsite])

theorem mem_ofObservations {arch : Arch} {os : List (String × Observation)} :
    e ∈ ofObservations arch os ↔ ∃ name o r v, (name, o) ∈ os ∧ (r, v) ∈ o.values ∧
      e = ofValue ⟨arch.normalize o.address, r⟩ name v := by
  simp only [ofObservations, List.mem_flatMap, List.mem_map, Prod.exists]
  constructor
  · rintro ⟨name, o, ho, r, v, hv, rfl⟩
    exact ⟨name, o, r, v, ho, hv, rfl⟩
  · rintro ⟨name, o, r, v, ho, hv, rfl⟩
    exact ⟨name, o, ho, r, v, hv, rfl⟩

end Evidence

/-! ### Observations -/

namespace FunctionAnalysis

variable {p : Program} {ix : EdgeIndex} {c : Config} {f : Function} {a : FunctionAnalysis}

/-- The last instruction of a member is observed, and its address coincides with the given one. -/
def ObservedAt (p : Program) (c : Config) (g : FlowGraph) (i : Fin g.members.size) (address : Word) : Prop :=
  isObserved c g i = true ∧
    ∃ last, (p.instructions (g.member i)).getLast? = some last ∧ p.arch.normalize last.address = address

/-- The state before the last instruction of a member with a given entry state. -/
def beforeLast (p : Program) (g : FlowGraph) (i : Fin g.members.size) (entry : State) : State :=
  entry.applyAll p.arch.registerBits (p.instructions (g.member i)).dropLast

theorem tracked_beforeLast (p : Program) (g : FlowGraph) (i : Fin g.members.size) (s : State) :
    (beforeLast p g i s).tracked = s.tracked := State.tracked_applyAll s _ _

/-- The observations are those of the observed members that have been reached and are not empty. -/
theorem mem_observations_iff (h : analyze p ix c f = .ok a) {o : Observation} :
    o ∈ a.observations ↔ ∃ i s last, a.run.entries.get i = some s ∧ isObserved c a.graph i = true ∧
      (p.instructions (a.graph.member i)).getLast? = some last ∧
      o = ⟨last.address, (beforeLast p a.graph i s).toList⟩ := by
  rw [(analyze_eq_ok h).2.2, observationsOf, List.mem_filterMap]
  constructor
  · rintro ⟨i, -, hi⟩
    split at hi
    · next s hs =>
      split at hi
      · next hobserved =>
        obtain ⟨last, hlast, rfl⟩ := Option.map_eq_some_iff.mp hi
        exact ⟨i, s, last, hs, hobserved, hlast, rfl⟩
      · cases hi
    · cases hi
  · rintro ⟨i, s, last, hs, hobserved, hlast, rfl⟩
    refine ⟨i, List.mem_finRange i, ?_⟩
    simp only [hs, hobserved, if_true, observeBlock?, hlast, Option.map_some, beforeLast]

end FunctionAnalysis

theorem State.mem_toList {s : State} {r : Register} {v : Value} :
    (r, v) ∈ s.toList ↔ r ∈ s.tracked ∧ s.get r = v ∧ v ≠ .bottom := by
  simp only [toList, List.mem_filter, List.mem_map, RegisterSet.mem_toList, Prod.mk.injEq]
  constructor
  · rintro ⟨⟨q, hq, rfl, rfl⟩, hv⟩
    exact ⟨hq, rfl, by simpa using hv⟩
  · rintro ⟨hr, rfl, hv⟩
    exact ⟨⟨r, hr, rfl, rfl⟩, by simpa using hv⟩

/-! ### Facts of a program -/

namespace Program

variable {p : Program} {c : Config} {fact : Fact} {f : Function} {a : FunctionAnalysis}

/-- What is observed in the functions that can be analyzed, in their order. -/
def observations (p : Program) (c : Config) : List (String × Observation) :=
  ((p.functions.map (FunctionAnalysis.analyze p (.ofProgram p) c)).filterMap Except.toOption).flatMap
    fun a => a.observations.map fun o => (a.function, o)

theorem facts_analyze (p : Program) (c : Config) :
    (p.analyze c).facts = (extractFacts p.arch (p.observations c)).1 := by
  simp only [analyze, mapOrdered_eq_map, Report.ofResults, observations]

theorem mem_observations_iff {name : String} {o : Observation} :
    (name, o) ∈ p.observations c ↔ ∃ f ∈ p.functions, ∃ a,
      FunctionAnalysis.analyze p (.ofProgram p) c f = .ok a ∧ o ∈ a.observations ∧ a.function = name := by
  simp only [observations, List.mem_flatMap, List.mem_filterMap, List.mem_map, Prod.mk.injEq]
  constructor
  · rintro ⟨a, ⟨_, ⟨f, hf, rfl⟩, ha⟩, _, ho, rfl, rfl⟩
    refine ⟨f, hf, a, ?_, ho, rfl⟩
    cases hanalyze : FunctionAnalysis.analyze p (.ofProgram p) c f with
    | error e => simp [hanalyze, Except.toOption] at ha
    | ok b => simpa [hanalyze, Except.toOption] using ha
  · rintro ⟨f, hf, a, ha, ho, rfl⟩
    exact ⟨a, ⟨_, ⟨f, hf, rfl⟩, by rw [ha]; rfl⟩, o, ho, rfl, rfl⟩

/-- A fact is the joined value of the evidence that has been gathered at its site. -/
theorem evidence_of_mem_facts (hfact : fact ∈ (p.analyze c).facts.facts) :
    ∃ e ∈ Evidence.gather (Evidence.ofObservations p.arch (p.observations c)),
      e.site = fact.site ∧ e.joined = .exact fact.value fact.bits := by
  rw [facts_analyze, extractFacts] at hfact
  obtain ⟨e, he, hvalue⟩ := List.mem_filterMap.mp (FactTable.mem_of_mem_ofList hfact)
  obtain ⟨⟨value, bits⟩, hknown, rfl⟩ := Option.map_eq_some_iff.mp hvalue
  refine ⟨e, he, rfl, ?_⟩
  cases hjoined : e.joined with
  | exact w b =>
    simp only [hjoined, Value.known?, Option.some.injEq, Prod.mk.injEq] at hknown
    rw [hknown.1, hknown.2]
  | bottom => simp [hjoined, Value.known?] at hknown
  | top => simp [hjoined, Value.known?] at hknown

/-- The register of a fact is followed. -/
theorem tracked_of_mem_facts (hfact : fact ∈ (p.analyze c).facts.facts) :
    fact.site.register ∈ c.trackedFor p.arch := by
  obtain ⟨e, he, hsite, -⟩ := evidence_of_mem_facts hfact
  obtain ⟨e', he', hsite'⟩ := Evidence.site_of_mem_gather he
  obtain ⟨name, o, r, v, ho, hv, rfl⟩ := Evidence.mem_ofObservations.mp he'
  obtain ⟨f, -, a, ha, ho, -⟩ := mem_observations_iff.mp ho
  obtain ⟨i, s, last, hs, -, -, rfl⟩ := (FunctionAnalysis.mem_observations_iff ha).mp ho
  have hr := (State.mem_toList.mp hv).1
  rw [FunctionAnalysis.tracked_beforeLast, FunctionAnalysis.tracked_entries ha hs] at hr
  rw [← hsite, ← hsite']
  exact hr

/-- The value of a fact is above the value of its register wherever its address is observed. -/
theorem observed_le_fact (hfact : fact ∈ (p.analyze c).facts.facts) (hf : f ∈ p.functions)
    (ha : FunctionAnalysis.analyze p (.ofProgram p) c f = .ok a) {i : Fin a.graph.members.size}
    (hobserved : FunctionAnalysis.ObservedAt p c a.graph i fact.site.address) {s : State}
    (hs : a.run.entries.get i = some s) :
    (FunctionAnalysis.beforeLast p a.graph i s).get fact.site.register ≤ .exact fact.value fact.bits := by
  obtain ⟨e, he, hsite, hjoined⟩ := evidence_of_mem_facts hfact
  obtain ⟨hat, last, hlast, haddress⟩ := hobserved
  by_cases hbottom : (FunctionAnalysis.beforeLast p a.graph i s).get fact.site.register = .bottom
  · rw [hbottom]
    exact Value.bottom_le _
  · have htracked : fact.site.register ∈ (FunctionAnalysis.beforeLast p a.graph i s).tracked := by
      rw [FunctionAnalysis.tracked_beforeLast, FunctionAnalysis.tracked_entries ha hs]
      exact tracked_of_mem_facts hfact
    have ho := (FunctionAnalysis.mem_observations_iff ha).mpr ⟨i, s, last, hs, hat, hlast, rfl⟩
    have hvalue := State.mem_toList.mpr ⟨htracked, rfl, hbottom⟩
    obtain ⟨e', he', hsite', hle⟩ := Evidence.covered_gather <| Evidence.mem_ofObservations.mpr
      ⟨a.function, _, _, _, mem_observations_iff.mpr ⟨f, hf, a, ha, ho, rfl⟩, hvalue, rfl⟩
    -- What covers the value is at the site of the fact, so it is the evidence for the fact.
    have heq : e' = e := Evidence.eq_of_mem_gather he' he <| by
      rw [hsite', hsite, haddress]
      rfl
    rw [← hjoined, ← heq]
    exact hle

end Program

end CallFacts
