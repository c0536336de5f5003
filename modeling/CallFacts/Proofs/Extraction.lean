import CallFacts.Proofs.SiteValues

/-!
# What is extracted from observations

Extraction read backwards: which facts and conflicts come out of a list of observations. At each site
there is a set of values that have been written, and a first order in which exact values were seen. A fact
is the one value of the set, if it is exact; two exact values are a conflict, which bears the name that was
first observed there and lists the exact values as they were seen first. Facts depend on the set alone, so
the order of observations, their repetition and the mode bits of their addresses do not matter.
-/

namespace CallFacts

/-! ### Addresses and sites -/

/-- The addresses differ at most in the bits that only tell the instruction encoding. -/
def Arch.SameButMode (arch : Arch) (a b : Word) : Prop :=
  ∀ i, arch.modeBits.getLsbD i = false → a.getLsbD i = b.getLsbD i

theorem Arch.normalize_eq_normalize_iff {arch : Arch} {a b : Word} :
    arch.normalize a = arch.normalize b ↔ arch.SameButMode a b := by
  constructor
  · intro h i hi
    by_cases hbound : i < 64
    · have hbit := congrArg (fun w => w.getLsbD i) h
      simpa only [normalize, BitVec.getLsbD_and, BitVec.getLsbD_not, hi, hbound, decide_true, Bool.not_false,
        Bool.and_true] using hbit
    · rw [BitVec.getLsbD_of_ge a i (by omega), BitVec.getLsbD_of_ge b i (by omega)]
  · intro h
    apply BitVec.eq_of_getLsbD_eq
    intro i hi
    cases hmode : arch.modeBits.getLsbD i with
    | false => simp [normalize, hmode, h i hmode]
    | true => simp [normalize, hmode]

instance (arch : Arch) (a b : Word) : Decidable (arch.SameButMode a b) :=
  decidable_of_iff _ Arch.normalize_eq_normalize_iff

/-- The order by address, then register. -/
def Site.Before (s t : Site) : Prop := s.address < t.address ∨ s.address = t.address ∧ s.register < t.register

theorem Site.rank_lt_rank_iff {s t : Site} : s.rank < t.rank ↔ s.Before t := by
  obtain ⟨a, r⟩ := s
  obtain ⟨b, q⟩ := t
  have hr := r.isLt
  have hq := q.isLt
  simp only [rank, Before, BitVec.lt_def, BitVec.toNat_eq, Fin.lt_def]
  omega

/-! ### What observations show -/

/-- The values of a register in an observation, as they are listed there. -/
def Observation.valuesAt (arch : Arch) (site : Site) (o : Observation) : List Value :=
  if arch.normalize o.address = site.address then
    (o.values.filter fun (r, _) => r = site.register).map Prod.snd
  else []

/-- The values that observations show at a site, one observation after the other. -/
def valuesShown (arch : Arch) (os : List (String × Observation)) (site : Site) : List Value :=
  os.flatMap fun x => x.2.valuesAt arch site

/-- The values at a site that have been written. -/
def writtenValues (arch : Arch) (os : List (String × Observation)) (site : Site) : Set Value :=
  {v | v ∈ valuesShown arch os site ∧ v ≠ .bottom}

/-- The conflict at a site: under the name of the first observation of the register there, the exact values
in the order in which they were seen first. -/
def conflictAt? (arch : Arch) (os : List (String × Observation)) (site : Site) : Option Diagnostic :=
  (os.find? fun x => x.2.valuesAt arch site ≠ []).map fun x =>
    ⟨x.1, .aliasConflict site.address site.register
      (((valuesShown arch os site).filterMap Value.known?).eraseDups.map Prod.fst)⟩

/-- The site of a conflict. -/
def Diagnostic.conflictSite? (d : Diagnostic) : Option Site :=
  match d.finding with
  | .aliasConflict address register _ => some ⟨address, register⟩
  | _ => none

section

variable {arch : Arch} {os : List (String × Observation)} {site : Site} {v : Value} {e : Evidence}

theorem Observation.mem_valuesAt {o : Observation} : v ∈ o.valuesAt arch site ↔
    arch.normalize o.address = site.address ∧ (site.register, v) ∈ o.values := by
  simp only [valuesAt]
  split
  · next h => simp [h]
  · next h => simp [h]

theorem mem_valuesShown : v ∈ valuesShown arch os site ↔ ShownAt arch os site v := by
  simp [valuesShown, ShownAt, Observation.mem_valuesAt]

theorem mem_writtenValues : v ∈ writtenValues arch os site ↔ ShownAt arch os site v ∧ v ≠ .bottom :=
  and_congr_left' mem_valuesShown

/-! ### What is gathered at a site -/

namespace Evidence

/-- What has been seen before, without repetitions, and then the unseen of what is new. -/
theorem foldl_unseen_eraseDups (new seen : List (Word × Nat)) :
    new.foldl (fun seen v => if v ∈ seen then seen else seen ++ [v]) seen.eraseDups = (seen ++ new).eraseDups := by
  induction new generalizing seen with
  | nil => rw [List.append_nil, List.foldl_nil]
  | cons x new ih =>
    have hstep : (if x ∈ seen.eraseDups then seen.eraseDups else seen.eraseDups ++ [x]) =
        (seen ++ [x]).eraseDups := by
      rw [List.eraseDups_append]
      by_cases hx : x ∈ seen <;> simp [List.removeAll, List.eraseDups_cons, hx]
    rw [List.foldl_cons, hstep, ih, List.append_assoc, List.singleton_append]

theorem exacts_foldl_merge (es : List Evidence) {e : Evidence} {seen : List (Word × Nat)}
    (h : e.exacts = seen.eraseDups) : (es.foldl merge e).exacts = (seen ++ es.flatMap exacts).eraseDups := by
  induction es generalizing e seen with
  | nil => simpa using h
  | cons new es ih =>
    have hmerged : (e.merge new).exacts = (seen ++ new.exacts).eraseDups := by
      rw [merge, h, foldl_unseen_eraseDups]
    rw [List.foldl_cons, ih hmerged, List.flatMap_cons, List.append_assoc]

theorem function_foldl_merge (es : List Evidence) (e : Evidence) : (es.foldl merge e).function = e.function := by
  induction es generalizing e with
  | nil => rfl
  | cons new es ih => exact ih (e.merge new)

/-- The evidence at a site, observation by observation. -/
theorem filter_ofObservations (arch : Arch) (os : List (String × Observation)) (site : Site) :
    (ofObservations arch os).filter (fun e => e.site = site) =
      os.flatMap fun x => (x.2.valuesAt arch site).map (ofValue site x.1) := by
  rw [ofObservations, List.filter_flatMap]
  refine List.flatMap_congr fun x _ => ?_
  obtain ⟨name, o⟩ := x
  obtain ⟨address, register⟩ := site
  by_cases haddress : arch.normalize o.address = address
  · simp only [Observation.valuesAt, haddress, if_true]
    induction o.values with
    | nil => rfl
    | cons value values ih =>
      obtain ⟨r, v⟩ := value
      rw [List.map_cons, List.filter_cons, ih, List.filter_cons]
      by_cases hr : r = register
      · simp [hr, ofValue]
      · simp [hr, ofValue]
  · simp only [Observation.valuesAt, if_neg haddress, List.map_nil]
    rw [List.filter_eq_nil_iff]
    intro e he
    obtain ⟨⟨r, v⟩, -, rfl⟩ := List.mem_map.mp he
    simp [ofValue, haddress]

section

variable (he : e ∈ gather (ofObservations arch os))

include he

theorem mergeAll?_of_mem_gather :
    mergeAll? (os.flatMap fun x => (x.2.valuesAt arch e.site).map (ofValue e.site x.1)) = some e := by
  rw [← filter_ofObservations]
  exact mem_gather_iff.mp he

/-- The exact values are in the order in which they were seen first. -/
theorem exacts_of_mem_gather : e.exacts = ((valuesShown arch os e.site).filterMap Value.known?).eraseDups := by
  have hmerged := mergeAll?_of_mem_gather he
  have hshown : (os.flatMap fun x => (x.2.valuesAt arch e.site).map (ofValue e.site x.1)).flatMap exacts =
      (valuesShown arch os e.site).filterMap Value.known? := by
    simp only [valuesShown, List.flatMap_assoc, List.flatMap_map, ofValue,
      List.filterMap_eq_flatMap_toList]
  rw [← hshown]
  cases hes : os.flatMap fun x => (x.2.valuesAt arch e.site).map (ofValue e.site x.1) with
  | nil => simp [hes, mergeAll?] at hmerged
  | cons first rest =>
    rw [hes, mergeAll?, Option.some.injEq] at hmerged
    have hfirst : first.exacts = first.exacts.eraseDups := by
      have hmem : first ∈ first :: rest := List.mem_cons_self
      rw [← hes] at hmem
      obtain ⟨⟨name, o⟩, -, hvalue⟩ := List.mem_flatMap.mp hmem
      obtain ⟨v, -, rfl⟩ := List.mem_map.mp hvalue
      cases v <;> rfl
    rw [← hmerged, exacts_foldl_merge rest hfirst, List.flatMap_cons]

/-- The name is that of the first observation of the register. -/
theorem function_of_mem_gather :
    (os.find? fun x => x.2.valuesAt arch e.site ≠ []).map Prod.fst = some e.function := by
  have hmerged := mergeAll?_of_mem_gather he
  have hhead : (os.flatMap fun x => (x.2.valuesAt arch e.site).map (ofValue e.site x.1)).head?.map function =
      (os.find? fun x => x.2.valuesAt arch e.site ≠ []).map Prod.fst := by
    clear he hmerged
    induction os with
    | nil => rfl
    | cons x os ih =>
      obtain ⟨name, o⟩ := x
      cases hvalues : o.valuesAt arch e.site with
      | nil => simpa [hvalues] using ih
      | cons v values => simp [hvalues, ofValue]
  rw [← hhead]
  cases hes : os.flatMap fun x => (x.2.valuesAt arch e.site).map (ofValue e.site x.1) with
  | nil => simp [hes, mergeAll?] at hmerged
  | cons first rest =>
    rw [hes, mergeAll?, Option.some.injEq] at hmerged
    rw [List.head?_cons, Option.map_some, ← hmerged, function_foldl_merge]

theorem conflictAt?_of_mem_gather : conflictAt? arch os e.site =
    some ⟨e.function, .aliasConflict e.site.address e.site.register (e.exacts.map Prod.fst)⟩ := by
  obtain ⟨x, hfirst, hname⟩ := Option.map_eq_some_iff.mp (function_of_mem_gather he)
  rw [conflictAt?, hfirst, exacts_of_mem_gather he, ← hname]
  rfl

theorem conflict?_eq_some_iff {d : Diagnostic} : e.conflict? = some d ↔
    1 < e.exacts.length ∧ conflictAt? arch os e.site = some d := by
  rw [conflictAt?_of_mem_gather he, conflict?]
  by_cases h : 1 < e.exacts.length
  · rw [if_pos ⟨isNone_known?_joined he h, h⟩]
    exact (and_iff_right h).symm
  · rw [if_neg fun hcond => h hcond.2]
    simp [h]

end

end Evidence

/-! ### Facts and conflicts -/

/-- A fact is the one value at its site that has been written. -/
theorem mem_facts_iff_writtenValues {fact : Fact} : fact ∈ (extractFacts arch os).1.facts ↔
    writtenValues arch os fact.site = {.exact fact.value fact.bits} := by
  rw [mem_facts_extractFacts_iff, Set.eq_singleton_iff_unique_mem, mem_writtenValues]
  constructor
  · rintro ⟨hshown, hle⟩
    refine ⟨⟨hshown, Value.noConfusion⟩, fun v hv => ?_⟩
    obtain ⟨hv, hbottom⟩ := mem_writtenValues.mp hv
    rcases hle v hv with h | h | h
    · exact absurd h hbottom
    · cases h
    · exact h
  · rintro ⟨⟨hshown, -⟩, honly⟩
    refine ⟨hshown, fun v hv => ?_⟩
    by_cases hbottom : v = .bottom
    · exact .inl hbottom
    · exact .inr (.inr (honly v (mem_writtenValues.mpr ⟨hv, hbottom⟩)))

/-- The conflicts are those at the sites where two exact values have been written. -/
theorem mem_conflicts_iff {d : Diagnostic} : d ∈ (extractFacts arch os).2 ↔
    ∃ site, (∃ x y : Word × Nat, x ≠ y ∧ .exact x.1 x.2 ∈ writtenValues arch os site ∧
      .exact y.1 y.2 ∈ writtenValues arch os site) ∧ conflictAt? arch os site = some d := by
  have hexact {site : Site} {x : Word × Nat} :
      .exact x.1 x.2 ∈ writtenValues arch os site ↔ ShownAt arch os site (.exact x.1 x.2) :=
    mem_writtenValues.trans (and_iff_left Value.noConfusion)
  simp only [hexact, extractFacts, List.mem_filterMap]
  constructor
  · rintro ⟨e, he, hconflict⟩
    obtain ⟨hmany, hd⟩ := (Evidence.conflict?_eq_some_iff he).mp hconflict
    exact ⟨e.site, (one_lt_exacts_iff he).mp hmany, hd⟩
  · rintro ⟨site, ⟨x, y, hne, hx, hy⟩, hd⟩
    obtain ⟨e, he, rfl⟩ := exists_gathered_of_shownAt hx
    exact ⟨e, he, (Evidence.conflict?_eq_some_iff he).mpr ⟨(one_lt_exacts_iff he).mpr ⟨x, y, hne, hx, hy⟩, hd⟩⟩

theorem facts_before (t : FactTable) : t.facts.Pairwise fun f g => f.site.Before g.site :=
  t.ascending.imp Site.rank_lt_rank_iff.mp

theorem conflicts_before : ((extractFacts arch os).2.filterMap Diagnostic.conflictSite?).Pairwise Site.Before := by
  have hsites : (extractFacts arch os).2.filterMap Diagnostic.conflictSite? =
      (Evidence.gather (Evidence.ofObservations arch os)).filterMap fun e => e.conflict?.bind Diagnostic.conflictSite? :=
    List.filterMap_filterMap ..
  rw [hsites]
  refine List.Pairwise.filterMap _ ?_ (Evidence.pairwise_gatherOnto .nil)
  have hsite {e : Evidence} {site : Site} (h : e.conflict?.bind Diagnostic.conflictSite? = some site) :
      e.site = site := by
    simp only [Evidence.conflict?] at h
    split at h
    · exact Option.some.inj h
    · cases h
  intro e e' hlt site h site' h'
  rw [← hsite h, ← hsite h']
  exact Site.rank_lt_rank_iff.mp hlt

end

/-! ### Other observations of the same -/

/-- The observations are the same up to the mode bits of their addresses. -/
def Observation.Alike (arch : Arch) (o o' : Observation) : Prop :=
  arch.SameButMode o.address o'.address ∧ o.values = o'.values

instance (arch : Arch) (o o' : Observation) : Decidable (o.Alike arch o') :=
  inferInstanceAs (Decidable (arch.SameButMode o.address o'.address ∧ o.values = o'.values))

/-- Each observation of either list is alike to one of the other: they may be in another order and repeated,
under other names and with other mode bits. -/
def Reobserves (arch : Arch) (os os' : List (String × Observation)) : Prop :=
  (∀ x ∈ os, ∃ y ∈ os', x.2.Alike arch y.2) ∧ ∀ y ∈ os', ∃ x ∈ os, x.2.Alike arch y.2

instance (arch : Arch) (os os' : List (String × Observation)) : Decidable (Reobserves arch os os') :=
  inferInstanceAs
    (Decidable ((∀ x ∈ os, ∃ y ∈ os', x.2.Alike arch y.2) ∧ ∀ y ∈ os', ∃ x ∈ os, x.2.Alike arch y.2))

section

variable {arch : Arch} {os os' : List (String × Observation)} {site : Site} {v : Value}

theorem Observation.Alike.symm {o o' : Observation} (h : o.Alike arch o') : o'.Alike arch o :=
  ⟨fun i hi => (h.1 i hi).symm, h.2.symm⟩

theorem Reobserves.symm (h : Reobserves arch os os') : Reobserves arch os' os := by
  refine ⟨fun y hy => ?_, fun x hx => ?_⟩
  · obtain ⟨x, hx, hxy⟩ := h.2 y hy
    exact ⟨x, hx, hxy.symm⟩
  · obtain ⟨y, hy, hxy⟩ := h.1 x hx
    exact ⟨y, hy, hxy.symm⟩

theorem Reobserves.shownAt (h : Reobserves arch os os') (hv : ShownAt arch os site v) : ShownAt arch os' site v := by
  obtain ⟨name, o, ho, haddress, hv⟩ := hv
  obtain ⟨⟨name', o'⟩, ho', hmode, hvalues⟩ := h.1 _ ho
  refine ⟨name', o', ho', ?_, hvalues ▸ hv⟩
  rw [← haddress]
  exact (Arch.normalize_eq_normalize_iff.mpr hmode).symm

theorem Reobserves.facts_eq (h : Reobserves arch os os') : (extractFacts arch os').1 = (extractFacts arch os).1 := by
  have hshown (site : Site) (v : Value) : ShownAt arch os' site v ↔ ShownAt arch os site v :=
    ⟨h.symm.shownAt, h.shownAt⟩
  refine FactTable.ext fun fact => ?_
  simp only [mem_facts_extractFacts_iff, hshown]

end

/-- Extraction is exact: a fact for each site where one exact value alone has been written, a conflict for
each where two have been, both in ascending order of their sites; and the facts stay if the observations
are rearranged, repeated or given other mode bits. -/
theorem extractFacts_exact (arch : Arch) (os : List (String × Observation)) :
    (∀ fact, fact ∈ (extractFacts arch os).1.facts ↔
        writtenValues arch os fact.site = {.exact fact.value fact.bits}) ∧
      (∀ d, d ∈ (extractFacts arch os).2 ↔
        ∃ site, (∃ x y : Word × Nat, x ≠ y ∧ .exact x.1 x.2 ∈ writtenValues arch os site ∧
          .exact y.1 y.2 ∈ writtenValues arch os site) ∧ conflictAt? arch os site = some d) ∧
      ((extractFacts arch os).1.facts.Pairwise fun f g => f.site.Before g.site) ∧
      ((extractFacts arch os).2.filterMap Diagnostic.conflictSite?).Pairwise Site.Before ∧
      ∀ os', Reobserves arch os os' → (extractFacts arch os').1 = (extractFacts arch os).1 :=
  ⟨fun _ => mem_facts_iff_writtenValues, fun _ => mem_conflicts_iff, facts_before _, conflicts_before,
    fun _ h => h.facts_eq⟩

/-- Two functions at one address, seen with and without the mode bit. They disagree on the first register
and agree on the second; only one of them has written the third. -/
def aliasedSites : List (String × Observation) :=
  [("odd", ⟨0x1001, [(0, .exact 1 32), (1, .exact 7 32), (2, .bottom)]⟩),
    ("even", ⟨0x1000, [(0, .exact 2 32), (1, .exact 7 32), (2, .exact 3 32)]⟩)]

/-- The same with the mode bits exchanged, in the other order and with a repetition. -/
def aliasedSitesAgain : List (String × Observation) :=
  [("even", ⟨0x1001, [(0, .exact 2 32), (1, .exact 7 32), (2, .exact 3 32)]⟩),
    ("odd", ⟨0x1000, [(0, .exact 1 32), (1, .exact 7 32), (2, .bottom)]⟩),
    ("even", ⟨0x1000, [(0, .exact 2 32), (1, .exact 7 32), (2, .exact 3 32)]⟩)]

theorem aliasedSites_extracted : Reobserves .arm32 aliasedSites aliasedSitesAgain ∧
    (extractFacts .arm32 aliasedSitesAgain).1 = (extractFacts .arm32 aliasedSites).1 ∧
    writtenValues .arm32 aliasedSites ⟨0x1000, 2⟩ = {.exact 3 32} ∧
    ⟨"odd", .aliasConflict 0x1000 0 [1, 2]⟩ ∈ (extractFacts .arm32 aliasedSites).2 := by
  have hagain : Reobserves .arm32 aliasedSites aliasedSitesAgain := by decide
  obtain ⟨hfacts, hconflicts, -, -, hsame⟩ := extractFacts_exact .arm32 aliasedSites
  refine ⟨hagain, hsame _ hagain, (hfacts ⟨⟨0x1000, 2⟩, 3, 32⟩).mp (by decide), ?_⟩
  refine (hconflicts _).mpr ⟨⟨0x1000, 0⟩, ⟨(1, 32), (2, 32), by decide, ?_, ?_⟩, by decide⟩
  · exact ⟨by decide, Value.noConfusion⟩
  · exact ⟨by decide, Value.noConfusion⟩

end CallFacts
