import CallFacts.Proofs.BlockFlow
import CallFacts.Proofs.Gathering

/-!
# Facts and conflicts from the values at a site

Gathering merges evidence site by site and looks at nothing else. So whether a site has a fact or a
conflict, and which values these name, depends only on the set of values that are shown there: a fact
is the one exact value above all of them, and a conflict lists the exact values where there are two.
For a program, what is shown comes from the entry states of the blocks whose last instruction is
observed.
-/

namespace CallFacts

namespace Value

theorem join_le_iff {u v w : Value} : u.join v ≤ w ↔ u ≤ w ∧ v ≤ w := by
  constructor
  · intro h
    exact ⟨le_trans (le_join_left u v) h, le_trans (le_join_right u v) h⟩
  · rintro ⟨hu, hv⟩
    exact join_le hu hv

theorem known?_eq_some_iff {v : Value} {x : Word × Nat} : v.known? = some x ↔ v = .exact x.1 x.2 := by
  cases v <;> simp [known?, Prod.ext_iff]

end Value

/-! ### Ascending lists -/

section

variable {α : Type} {rank : α → Nat} {merge : α → α → α} {x y : α} {xs : List α}

/-- In an ascending list, what is put in is merged into the element of its rank, if there is one, and
all other elements stay. -/
theorem mem_insertByRank_iff (h : xs.Pairwise fun a b => rank a < rank b) :
    y ∈ insertByRank rank merge x xs ↔
      y ∈ xs ∧ rank y ≠ rank x ∨ (∃ z ∈ xs, rank z = rank x ∧ y = merge z x) ∨
        y = x ∧ ∀ z ∈ xs, rank z ≠ rank x := by
  induction xs with
  | nil => simp [insertByRank]
  | cons z zs ih =>
    obtain ⟨hz, hzs⟩ := List.pairwise_cons.mp h
    simp only [insertByRank]
    split
    · next hlt =>
      have hne : ∀ w ∈ z :: zs, rank w ≠ rank x := by
        intro w hw
        rcases List.mem_cons.mp hw with rfl | hw
        · exact Nat.ne_of_gt hlt
        · exact Nat.ne_of_gt (Nat.lt_trans hlt (hz w hw))
      grind
    · split
      · next heq =>
        have hne : ∀ w ∈ zs, rank w ≠ rank x := fun w hw => heq ▸ Nat.ne_of_gt (hz w hw)
        grind
      · next hne =>
        rw [List.mem_cons, ih hzs]
        grind

/-- Ascending lists with the same elements are the same. -/
theorem eq_of_ascending_of_mem_iff {ys : List α} (hxs : xs.Pairwise fun a b => rank a < rank b)
    (hys : ys.Pairwise fun a b => rank a < rank b) (h : ∀ z, z ∈ xs ↔ z ∈ ys) : xs = ys := by
  have hne : ∀ {a b}, rank a < rank b → a ≠ b := fun hlt heq => Nat.lt_irrefl _ (heq ▸ hlt)
  refine List.Perm.eq_of_pairwise ?_ hxs hys ?_
  · intro a b _ _ hab hba
    exact absurd (Nat.lt_trans hab hba) (Nat.lt_irrefl _)
  · exact (List.perm_ext_iff_of_nodup (hxs.imp hne) (hys.imp hne)).mpr h

theorem insertByRank_eq_append (h : ∀ z ∈ xs, rank z < rank x) : insertByRank rank merge x xs = xs ++ [x] := by
  induction xs with
  | nil => rfl
  | cons z zs ih =>
    have hz := h z List.mem_cons_self
    simp only [insertByRank, if_neg (Nat.lt_asymm hz), if_neg (Nat.ne_of_gt hz)]
    rw [ih fun w hw => h w (List.mem_cons_of_mem _ hw), List.cons_append]

end

namespace FactTable

theorem ext {t u : FactTable} (h : ∀ fact, fact ∈ t.facts ↔ fact ∈ u.facts) : t = u := by
  have hfacts := eq_of_ascending_of_mem_iff t.ascending u.ascending h
  cases t
  cases u
  congr

theorem facts_ofList {fs : List Fact} (h : fs.Pairwise fun a b => a.site.rank < b.site.rank) :
    (ofList fs).facts = fs := by
  induction fs using List.reverseRecOn with
  | nil => rfl
  | append_singleton fs f ih =>
    obtain ⟨hfs, -, hlast⟩ := List.pairwise_append.mp h
    rw [ofList, List.foldl_append]
    show insertByRank _ _ f (ofList fs).facts = fs ++ [f]
    rw [ih hfs]
    exact insertByRank_eq_append fun g hg => hlast g hg f List.mem_cons_self

end FactTable

/-! ### Merging site by site -/

namespace Evidence

variable {e e' : Evidence} {es : List Evidence} {v : Value}

/-- All pieces of evidence in one, in their order. -/
def mergeAll? : List Evidence → Option Evidence
  | [] => none
  | e :: es => some (es.foldl merge e)

theorem mergeAll?_concat (es : List Evidence) (new : Evidence) :
    mergeAll? (es ++ [new]) = some (match mergeAll? es with
      | none => new
      | some e => e.merge new) := by
  cases es with
  | nil => rfl
  | cons e es => simp [mergeAll?, List.foldl_append]

theorem site_foldl_merge (es : List Evidence) (e : Evidence) : (es.foldl merge e).site = e.site := by
  induction es generalizing e with
  | nil => rfl
  | cons e' es ih => exact ih (e.merge e')

theorem site_of_mergeAll? {site : Site} (h : mergeAll? (es.filter fun e' => e'.site = site) = some e) :
    e.site = site := by
  cases hes : es.filter fun e' => e'.site = site with
  | nil => simp [hes, mergeAll?] at h
  | cons e' rest =>
    have hmem : e' ∈ es.filter fun e' => e'.site = site := hes ▸ List.mem_cons_self
    rw [hes, mergeAll?, Option.some.injEq] at h
    rw [← h, site_foldl_merge]
    simpa using (List.mem_filter.mp hmem).2

theorem joined_foldl_merge_le_iff (es : List Evidence) (e : Evidence) :
    (es.foldl merge e).joined ≤ v ↔ e.joined ≤ v ∧ ∀ e' ∈ es, e'.joined ≤ v := by
  induction es generalizing e with
  | nil => simp
  | cons e' es ih =>
    rw [List.foldl_cons, ih, List.forall_mem_cons]
    exact (and_congr_left fun _ => Value.join_le_iff).trans and_assoc

theorem mem_foldl_unseen {x : Word × Nat} (new seen : List (Word × Nat)) :
    x ∈ new.foldl (fun seen v => if v ∈ seen then seen else seen ++ [v]) seen ↔ x ∈ seen ∨ x ∈ new := by
  induction new generalizing seen with
  | nil => simp
  | cons y new ih =>
    rw [List.foldl_cons, ih, List.mem_cons]
    split
    · next hy =>
      constructor
      · rintro (h | h)
        · exact .inl h
        · exact .inr (.inr h)
      · rintro (h | rfl | h)
        · exact .inl h
        · exact .inl hy
        · exact .inr h
    · rw [List.mem_append, List.mem_singleton, or_assoc]

theorem nodup_foldl_unseen (new : List (Word × Nat)) {seen : List (Word × Nat)} (h : seen.Nodup) :
    (new.foldl (fun seen v => if v ∈ seen then seen else seen ++ [v]) seen).Nodup := by
  induction new generalizing seen with
  | nil => exact h
  | cons y new ih =>
    rw [List.foldl_cons]
    split
    · exact ih h
    · next hy =>
      rw [← List.concat_eq_append]
      exact ih (h.concat hy)

theorem mem_exacts_foldl_merge {x : Word × Nat} (es : List Evidence) (e : Evidence) :
    x ∈ (es.foldl merge e).exacts ↔ x ∈ e.exacts ∨ ∃ e' ∈ es, x ∈ e'.exacts := by
  induction es generalizing e with
  | nil => simp
  | cons e' es ih =>
    rw [List.foldl_cons, ih, merge, mem_foldl_unseen]
    simp [or_assoc]

theorem nodup_exacts_foldl_merge (es : List Evidence) (h : e.exacts.Nodup) : (es.foldl merge e).exacts.Nodup := by
  induction es generalizing e with
  | nil => exact h
  | cons e' es ih => exact ih (nodup_foldl_unseen e'.exacts h)

/-- The evidence that is gathered at a site is that of the site, merged in order. -/
theorem mem_gather_iff : e ∈ gather es ↔ mergeAll? (es.filter fun e' => e'.site = e.site) = some e := by
  induction es using List.reverseRecOn generalizing e with
  | nil => simp [gather, mergeAll?]
  | append_singleton es new ih =>
    have hascending : (gather es).Pairwise fun e e' => e.site.rank < e'.site.rank := pairwise_gatherOnto .nil
    have hrank {e e' : Evidence} : e.site.rank = e'.site.rank ↔ e.site = e'.site :=
      ⟨Site.rank_injective, fun h => by rw [h]⟩
    have hgather : gather (es ++ [new]) = insertByRank (fun e => e.site.rank) merge new (gather es) :=
      List.foldl_append
    rw [hgather, mem_insertByRank_iff hascending, List.filter_append]
    simp only [hrank, ne_eq]
    by_cases hsite : new.site = e.site
    · rw [List.filter_singleton, decide_eq_true hsite, cond_true, mergeAll?_concat, Option.some.injEq]
      cases hmerged : mergeAll? (es.filter fun e' => e'.site = e.site) with
      | none =>
        have hfresh : ∀ z ∈ gather es, z.site ≠ new.site := by
          intro z hz heq
          rw [ih, heq, hsite, hmerged] at hz
          cases hz
        grind
      | some old =>
        have hold : old.site = e.site := site_of_mergeAll? hmerged
        have hmem : old ∈ gather es := ih.mpr (by rw [hold, hmerged])
        have honly : ∀ z ∈ gather es, z.site = new.site → z = old := fun z hz heq =>
          eq_of_mem_gather hz hmem (by rw [heq, hsite, hold])
        grind
    · rw [List.filter_singleton, decide_eq_false hsite, cond_false, List.append_nil, ← ih]
      have hmerge : ∀ z, e = merge z new → z.site = new.site → False := by
        rintro z rfl heq
        exact hsite heq.symm
      grind

/-! ### What is gathered at a site -/

theorem joined_le_iff (h : e ∈ gather es) :
    e.joined ≤ v ↔ ∀ e' ∈ es, e'.site = e.site → e'.joined ≤ v := by
  have hmerged := mem_gather_iff.mp h
  have hall : (∀ e' ∈ es, e'.site = e.site → e'.joined ≤ v) ↔
      ∀ e' ∈ es.filter (fun e' => e'.site = e.site), e'.joined ≤ v := by
    simp [List.mem_filter]
  rw [hall]
  cases hes : es.filter fun e' => e'.site = e.site with
  | nil => simp [hes, mergeAll?] at hmerged
  | cons first rest =>
    rw [hes, mergeAll?, Option.some.injEq] at hmerged
    rw [← hmerged, joined_foldl_merge_le_iff, List.forall_mem_cons]

theorem mem_exacts_iff (h : e ∈ gather es) {x : Word × Nat} :
    x ∈ e.exacts ↔ ∃ e' ∈ es, e'.site = e.site ∧ x ∈ e'.exacts := by
  have hmerged := mem_gather_iff.mp h
  have hsome : (∃ e' ∈ es, e'.site = e.site ∧ x ∈ e'.exacts) ↔
      ∃ e' ∈ es.filter (fun e' => e'.site = e.site), x ∈ e'.exacts := by
    simp [List.mem_filter, and_assoc]
  rw [hsome]
  cases hes : es.filter fun e' => e'.site = e.site with
  | nil => simp [hes, mergeAll?] at hmerged
  | cons first rest =>
    rw [hes, mergeAll?, Option.some.injEq] at hmerged
    rw [← hmerged, mem_exacts_foldl_merge, List.exists_mem_cons_iff]

theorem nodup_exacts (h : e ∈ gather es) (hes : ∀ e' ∈ es, e'.exacts.Nodup) : e.exacts.Nodup := by
  have hmerged := mem_gather_iff.mp h
  cases hfilter : es.filter fun e' => e'.site = e.site with
  | nil => simp [hfilter, mergeAll?] at hmerged
  | cons first rest =>
    have hfirst : first ∈ es.filter fun e' => e'.site = e.site := hfilter ▸ List.mem_cons_self
    rw [hfilter, mergeAll?, Option.some.injEq] at hmerged
    rw [← hmerged]
    exact nodup_exacts_foldl_merge rest (hes first (List.mem_of_mem_filter hfirst))

end Evidence

/-! ### Facts and conflicts of observations -/

/-- One of the observations shows the value at the site. -/
def ShownAt (arch : Arch) (os : List (String × Observation)) (site : Site) (v : Value) : Prop :=
  ∃ name o, (name, o) ∈ os ∧ arch.normalize o.address = site.address ∧ (site.register, v) ∈ o.values

section

variable {arch : Arch} {os : List (String × Observation)} {site : Site} {v : Value} {e : Evidence}

theorem shownAt_iff : ShownAt arch os site v ↔
    ∃ e ∈ Evidence.ofObservations arch os, e.site = site ∧ e.joined = v := by
  constructor
  · rintro ⟨name, o, ho, haddress, hv⟩
    exact ⟨_, Evidence.mem_ofObservations.mpr ⟨name, o, _, v, ho, hv, rfl⟩, by rw [haddress]; rfl, rfl⟩
  · rintro ⟨e, he, rfl, rfl⟩
    obtain ⟨name, o, r, v, ho, hv, rfl⟩ := Evidence.mem_ofObservations.mp he
    exact ⟨name, o, ho, rfl, hv⟩

theorem exacts_of_mem_ofObservations (h : e ∈ Evidence.ofObservations arch os) :
    e.exacts = e.joined.known?.toList := by
  obtain ⟨name, o, r, v, -, -, rfl⟩ := Evidence.mem_ofObservations.mp h
  rfl

theorem exists_gathered_of_shownAt (h : ShownAt arch os site v) :
    ∃ e ∈ Evidence.gather (Evidence.ofObservations arch os), e.site = site := by
  obtain ⟨e', he', hsite, -⟩ := shownAt_iff.mp h
  obtain ⟨e, he, hcovers, -⟩ := Evidence.covered_gather he'
  exact ⟨e, he, hcovers.trans hsite⟩

section

variable (he : e ∈ Evidence.gather (Evidence.ofObservations arch os))

include he

theorem joined_le_iff_shownAt : e.joined ≤ v ↔ ∀ w, ShownAt arch os e.site w → w ≤ v := by
  rw [Evidence.joined_le_iff he]
  constructor
  · intro h w hw
    obtain ⟨e', he', hsite, rfl⟩ := shownAt_iff.mp hw
    exact h e' he' hsite
  · intro h e' he' hsite
    exact h e'.joined (shownAt_iff.mpr ⟨e', he', hsite, rfl⟩)

theorem mem_exacts_iff_shownAt {x : Word × Nat} : x ∈ e.exacts ↔ ShownAt arch os e.site (.exact x.1 x.2) := by
  rw [Evidence.mem_exacts_iff he, shownAt_iff]
  refine exists_congr fun e' => and_congr_right fun he' => and_congr_right fun _ => ?_
  rw [exacts_of_mem_ofObservations he', Option.mem_toList, Value.known?_eq_some_iff]

/-- The joined value is exact if that value is shown, and nothing that is not below it. -/
theorem joined_eq_exact_iff {value : Word} {bits : Nat} :
    e.joined = .exact value bits ↔ ShownAt arch os e.site (.exact value bits) ∧
      ∀ w, ShownAt arch os e.site w → w ≤ .exact value bits := by
  constructor
  · intro hjoined
    have hle := (joined_le_iff_shownAt he).mp (Value.le_refl e.joined)
    rw [hjoined] at hle
    refine ⟨?_, hle⟩
    by_contra hother
    have hbottom : e.joined ≤ .bottom := by
      rw [joined_le_iff_shownAt he]
      intro w hw
      rcases hle w hw with rfl | h | rfl
      · exact Value.le_refl _
      · cases h
      · exact absurd hw hother
    rw [hjoined] at hbottom
    rcases hbottom with h | h | h <;> cases h
  · rintro ⟨hshown, hle⟩
    exact Value.le_antisymm ((joined_le_iff_shownAt he).mpr hle)
      ((joined_le_iff_shownAt he).mp (Value.le_refl _) _ hshown)

theorem one_lt_exacts_iff : 1 < e.exacts.length ↔
    ∃ x y : Word × Nat, x ≠ y ∧ ShownAt arch os e.site (.exact x.1 x.2) ∧ ShownAt arch os e.site (.exact y.1 y.2) := by
  have hnodup : e.exacts.Nodup := Evidence.nodup_exacts he fun e' he' => by
    rw [exacts_of_mem_ofObservations he']
    cases e'.joined.known? <;> simp
  rw [← List.toFinset_card_of_nodup hnodup, Finset.one_lt_card_iff]
  simp only [List.mem_toFinset, mem_exacts_iff_shownAt he]
  constructor
  · rintro ⟨x, y, hx, hy, hne⟩
    exact ⟨x, y, hne, hx, hy⟩
  · rintro ⟨x, y, hne, hx, hy⟩
    exact ⟨x, y, hx, hy, hne⟩

theorem isNone_known?_joined (h : 1 < e.exacts.length) : e.joined.known?.isNone = true := by
  obtain ⟨x, y, hne, hx, hy⟩ := (one_lt_exacts_iff he).mp h
  have hjoined := (joined_le_iff_shownAt he).mp (Value.le_refl e.joined)
  cases hknown : e.joined with
  | bottom => rfl
  | top => rfl
  | exact value bits =>
    -- Both values would be below the exact one, so they would be equal.
    have hboth := hknown ▸ And.intro (hjoined _ hx) (hjoined _ hy)
    grind [Value.le_def]

end

theorem facts_extractFacts : (extractFacts arch os).1.facts =
    (Evidence.gather (Evidence.ofObservations arch os)).filterMap Evidence.fact? := by
  refine FactTable.facts_ofList ?_
  refine List.Pairwise.filterMap Evidence.fact? ?_ (Evidence.pairwise_gatherOnto .nil)
  intro e e' hlt fact hfact fact' hfact'
  obtain ⟨_, -, rfl⟩ := Option.map_eq_some_iff.mp hfact
  obtain ⟨_, -, rfl⟩ := Option.map_eq_some_iff.mp hfact'
  exact hlt

/-- A fact is the exact value that is shown at its site and that all others there are below. -/
theorem mem_facts_extractFacts_iff {fact : Fact} : fact ∈ (extractFacts arch os).1.facts ↔
    ShownAt arch os fact.site (.exact fact.value fact.bits) ∧
      ∀ v, ShownAt arch os fact.site v → v ≤ .exact fact.value fact.bits := by
  rw [facts_extractFacts, List.mem_filterMap]
  constructor
  · rintro ⟨e, he, hfact⟩
    obtain ⟨⟨value, bits⟩, hknown, rfl⟩ := Option.map_eq_some_iff.mp hfact
    exact (joined_eq_exact_iff he).mp (Value.known?_eq_some_iff.mp hknown)
  · intro h
    obtain ⟨e, he, hsite⟩ := exists_gathered_of_shownAt h.1
    refine ⟨e, he, ?_⟩
    rw [← hsite, ← joined_eq_exact_iff he] at h
    rw [Evidence.fact?, h, hsite]
    rfl

/-- The sites with a conflict are those that show two exact values, and it lists all that they show. -/
theorem exists_conflict_iff {values : Set Word} :
    (∃ d ∈ (extractFacts arch os).2, ∃ ws, d.finding = .aliasConflict site.address site.register ws ∧
      {w | w ∈ ws} = values) ↔
    (∃ x y : Word × Nat, x ≠ y ∧ ShownAt arch os site (.exact x.1 x.2) ∧ ShownAt arch os site (.exact y.1 y.2)) ∧
      {w | ∃ bits, ShownAt arch os site (.exact w bits)} = values := by
  have hvalues {e : Evidence} (he : e ∈ Evidence.gather (Evidence.ofObservations arch os)) :
      {w | w ∈ e.exacts.map Prod.fst} = {w | ∃ bits, ShownAt arch os e.site (.exact w bits)} := by
    ext w
    simp [mem_exacts_iff_shownAt he]
  simp only [extractFacts, List.mem_filterMap]
  constructor
  · rintro ⟨d, ⟨e, he, hconflict⟩, ws, hfinding, rfl⟩
    simp only [Evidence.conflict?] at hconflict
    split at hconflict
    · next hcond =>
      obtain ⟨address, register⟩ := site
      cases hconflict
      cases hfinding
      exact ⟨(one_lt_exacts_iff he).mp hcond.2, (hvalues he).symm⟩
    · cases hconflict
  · rintro ⟨hdistinct, rfl⟩
    obtain ⟨x, y, hne, hx, hy⟩ := hdistinct
    obtain ⟨e, he, rfl⟩ := exists_gathered_of_shownAt hx
    have hmany := (one_lt_exacts_iff he).mpr ⟨x, y, hne, hx, hy⟩
    exact ⟨_, ⟨e, he, if_pos ⟨isNone_known?_joined he hmany, hmany⟩⟩, _, rfl, hvalues he⟩

end

/-! ### What a program shows -/

namespace Program

/-- The instruction is the last of the block, and the configuration observes it. -/
def Observes (p : Program) (c : Config) (b : BlockId) (last : Instruction) : Prop :=
  (c.observe = .blockExits ∨ p.IsCallSite b) ∧ (p.instructions b).getLast? = some last

/-- The state before the last instruction of a block with a given entry state. -/
def beforeLast (p : Program) (b : BlockId) (entry : State) : State :=
  entry.applyAll p.arch.registerBits (p.instructions b).dropLast

@[simp] theorem tracked_beforeLast (p : Program) (b : BlockId) (s : State) :
    (p.beforeLast b s).tracked = s.tracked := State.tracked_applyAll s _ _

end Program

namespace FunctionAnalysis

variable {p : Program} {ix : EdgeIndex} {c : Config} {f : Function} {g : FlowGraph} {a : FunctionAnalysis}

theorem isObserved_iff (h : FlowGraph.build p (.ofProgram p) f = .ok g) (i : Fin g.members.size) :
    isObserved c g i = true ↔ c.observe = .blockExits ∨ p.IsCallSite (g.member i) := by
  have hexists := (FlowGraph.wellFormed_of_build h).members _ ((FlowGraph.mem_blocks_iff h).mpr ⟨i, rfl⟩)
  rw [isObserved]
  cases c.observe with
  | callSites => simp [FlowGraph.callSites_of_build h, FlowGraph.isCallSite_iff hexists]
  | blockExits => simp

/-- The observations are those before the last instructions of the observed blocks that are reached. -/
theorem mem_observations_iff_observes (h : analyze p (.ofProgram p) c f = .ok a) {o : Observation} :
    o ∈ a.observations ↔ ∃ b s last, a.entryState? b = some s ∧ p.Observes c b last ∧
      o = ⟨last.address, (p.beforeLast b s).toList⟩ := by
  have hbuild := (analyze_eq_ok h).1
  rw [mem_observations_iff h]
  constructor
  · rintro ⟨i, s, last, hs, hobserved, hlast, ho⟩
    exact ⟨_, s, last, (entryState?_member hbuild i).trans hs, ⟨(isObserved_iff hbuild i).mp hobserved, hlast⟩, ho⟩
  · rintro ⟨b, s, last, hs, ⟨hobserved, hlast⟩, ho⟩
    obtain ⟨i, rfl, hi⟩ := member_of_entryState? hbuild hs
    exact ⟨i, s, last, hi, (isObserved_iff hbuild i).mpr hobserved, hlast, ho⟩

end FunctionAnalysis

namespace Program

variable {p : Program} {c : Config} {site : Site} {v : Value}

/-- A program shows the values that the followed registers have before the observed instructions, unless
they have not been written. -/
theorem shownAt_observations_iff : ShownAt p.arch (p.observations c) site v ↔
    site.register ∈ c.trackedFor p.arch ∧ v ≠ .bottom ∧
      ∃ f ∈ p.functions, ∃ a, FunctionAnalysis.analyze p (.ofProgram p) c f = .ok a ∧
        ∃ b s last, a.entryState? b = some s ∧ p.Observes c b last ∧
          p.arch.normalize last.address = site.address ∧ (p.beforeLast b s).get site.register = v := by
  constructor
  · rintro ⟨name, o, ho, haddress, hv⟩
    obtain ⟨f, hf, a, ha, ho, -⟩ := mem_observations_iff.mp ho
    obtain ⟨b, s, last, hs, hobserves, rfl⟩ := (FunctionAnalysis.mem_observations_iff_observes ha).mp ho
    obtain ⟨htracked, hget, hbottom⟩ := State.mem_toList.mp hv
    rw [tracked_beforeLast, FunctionAnalysis.tracked_entryState? ha hs] at htracked
    exact ⟨htracked, hbottom, f, hf, a, ha, b, s, last, hs, hobserves, haddress, hget⟩
  · rintro ⟨htracked, hbottom, f, hf, a, ha, b, s, last, hs, hobserves, haddress, hget⟩
    rw [← FunctionAnalysis.tracked_entryState? ha hs, ← tracked_beforeLast p b s] at htracked
    exact ⟨a.function, _, mem_observations_iff.mpr ⟨f, hf, a, ha,
      (FunctionAnalysis.mem_observations_iff_observes ha).mpr ⟨b, s, last, hs, hobserves, rfl⟩, rfl⟩,
      haddress, State.mem_toList.mpr ⟨htracked, hget, hbottom⟩⟩

theorem mem_facts_analyze_iff {fact : Fact} : fact ∈ (p.analyze c).facts.facts ↔
    ShownAt p.arch (p.observations c) fact.site (.exact fact.value fact.bits) ∧
      ∀ v, ShownAt p.arch (p.observations c) fact.site v → v ≤ .exact fact.value fact.bits := by
  rw [facts_analyze, mem_facts_extractFacts_iff]

end Program

end CallFacts
