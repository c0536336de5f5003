import CallFacts.Proofs.Findings

/-!
# Cutting a block in two

A block may end anywhere before its last instruction and go on in a block of its own. The first part then
falls through into the second, and all edges that left the block leave the second part, the calls among
them; so falling through between the parts is no return from a call. The least states are the same at the
entries of all old blocks, and the second part is entered with what the first makes of the state of the
whole, so that every call is observed with the same values. Which functions can be analyzed does not change.
-/

namespace CallFacts

namespace Program

/-- The block that control leaves in the place of another, once `b` has been cut: the second part of `b`, or
the block itself. -/
def tailOf (p : Program) (b b' : BlockId) : BlockId := if b' = b then p.nextBlock else b'

/-- The function with the second part of `b`, if it has `b`. -/
def splitFunction (p : Program) (b : BlockId) (f : Function) : Function :=
  if b ∈ f.blocks then f.addBlock p.nextBlock else f

/-- The program with `b` cut in two: `b` keeps the instructions `xs`, a new block at the end receives `ys` and
all edges that left `b`, and `b` falls through into it. -/
def splitBlock (p : Program) (b : BlockId) (xs ys : List Instruction) (address : Word) : Program :=
  let shortened : Program :=
    { p with
      blocks := p.blocks.modify b.index fun block => { block with instructions := xs }
      edges := p.edges.map fun e => { e with source := p.tailOf b e.source }
      functions := p.functions.map (p.splitFunction b) }
  (shortened.addBlock ⟨address, ys⟩).addEdge ⟨b, p.nextBlock, .fallthrough⟩

/-- A block holds `xs` and then `ys`, which is not empty, and nothing refers to the block that comes next. -/
structure CanSplit (p : Program) (b : BlockId) (xs ys : List Instruction) : Prop where
  instructions : p.instructions b = xs ++ ys
  nonempty : ys ≠ []
  edges : ∀ e ∈ p.edges, e.source ≠ p.nextBlock ∧ e.target ≠ p.nextBlock
  functions : ∀ f ∈ p.functions, f.entry ≠ p.nextBlock ∧ p.nextBlock ∉ f.blocks

variable {p : Program} {f : Function} {b b' b'' : BlockId} {xs ys : List Instruction} {address : Word}

/-! ### Blocks and edges -/

theorem contains_splitBlock :
    (p.splitBlock b xs ys address).contains b' = true ↔ p.contains b' = true ∨ b' = p.nextBlock := by
  obtain ⟨i⟩ := b'
  simp only [contains, splitBlock, addEdge, addBlock, nextBlock, Array.size_push, Array.size_modify,
    decide_eq_true_eq, BlockId.mk.injEq]
  omega

theorem mem_edges_splitBlock {e : Edge} : e ∈ (p.splitBlock b xs ys address).edges ↔
    e = ⟨b, p.nextBlock, .fallthrough⟩ ∨ ∃ e' ∈ p.edges, e = { e' with source := p.tailOf b e'.source } := by
  simp only [splitBlock, addEdge, addBlock, List.mem_append, List.mem_map, List.mem_singleton, eq_comm (a := e)]
  exact or_comm

theorem moved_mem_edges {e : Edge} (he : e ∈ p.edges) :
    { e with source := p.tailOf b e.source } ∈ (p.splitBlock b xs ys address).edges :=
  mem_edges_splitBlock.mpr (.inr ⟨e, he, rfl⟩)

@[simp] theorem tailOf_self (p : Program) (b : BlockId) : p.tailOf b b = p.nextBlock := if_pos rfl

theorem tailOf_of_ne (h : b' ≠ b) : p.tailOf b b' = b' := if_neg h

theorem not_contains_nextBlock (p : Program) : ¬ p.contains p.nextBlock = true := by
  simp [contains, nextBlock]

theorem block?_splitBlock : (p.splitBlock b xs ys address).block? b' =
    if b' = p.nextBlock then some ⟨address, ys⟩
    else if b' = b then (p.block? b).map fun block => { block with instructions := xs }
    else p.block? b' := by
  obtain ⟨i⟩ := b'
  obtain ⟨k⟩ := b
  simp only [block?, splitBlock, addEdge, addBlock, nextBlock, Array.getElem?_push, Array.getElem?_modify,
    Array.size_modify, BlockId.mk.injEq, eq_comm (a := i)]
  by_cases hk : k = i
  · subst hk
    simp
  · simp [hk]

theorem instructions_nextBlock : (p.splitBlock b xs ys address).instructions p.nextBlock = ys := by
  rw [instructions, block?_splitBlock, if_pos rfl]

theorem instructions_of_ne (hb : b' ≠ b) (hnext : b' ≠ p.nextBlock) :
    (p.splitBlock b xs ys address).instructions b' = p.instructions b' := by
  rw [instructions, block?_splitBlock, if_neg hnext, if_neg hb, instructions]

theorem tailOf_injective (hb' : b' ≠ p.nextBlock) (hb'' : b'' ≠ p.nextBlock)
    (heq : p.tailOf b b' = p.tailOf b b'') : b' = b'' := by
  rw [tailOf, tailOf] at heq
  split at heq
  · next h' =>
    split at heq
    · next h'' => exact h'.trans h''.symm
    · exact absurd heq.symm hb''
  · split at heq
    · exact absurd heq hb'
    · exact heq

/-- A call that left the block leaves the part that comes last. -/
theorem isCallSite_splitBlock_iff :
    (p.splitBlock b xs ys address).IsCallSite b' ↔ ∃ b₀, b' = p.tailOf b b₀ ∧ p.IsCallSite b₀ := by
  constructor
  · rintro ⟨e, he, rfl, hcall⟩
    rcases mem_edges_splitBlock.mp he with rfl | ⟨e₀, he₀, rfl⟩
    · cases hcall
    · exact ⟨e₀.source, rfl, e₀, he₀, rfl, hcall⟩
  · rintro ⟨b₀, rfl, e, he, rfl, hcall⟩
    exact ⟨_, moved_mem_edges he, rfl, hcall⟩

/-! ### Functions -/

theorem mem_blocks_splitFunction :
    b' ∈ (p.splitFunction b f).blocks ↔ b' ∈ f.blocks ∨ b ∈ f.blocks ∧ b' = p.nextBlock := by
  simp only [splitFunction, Function.addBlock]
  grind

theorem mem_blocks_of_ne (hb' : b' ≠ p.nextBlock) : b' ∈ (p.splitFunction b f).blocks ↔ b' ∈ f.blocks := by
  simp [mem_blocks_splitFunction, hb']

theorem tailOf_mem_blocks (hf : p.nextBlock ∉ f.blocks) (hb' : b' ≠ p.nextBlock) :
    p.tailOf b b' ∈ (p.splitFunction b f).blocks ↔ b' ∈ f.blocks := by
  rw [mem_blocks_splitFunction, tailOf]
  split
  · next heq => simp [heq, hf]
  · simp [hb']

theorem sameHead_splitFunction (p : Program) (b : BlockId) (f : Function) :
    (p.splitFunction b f).name = f.name ∧ (p.splitFunction b f).entry = f.entry ∧
      (p.splitFunction b f).entryValues = f.entryValues := by
  simp only [splitFunction, Function.addBlock]
  grind

@[simp] theorem name_splitFunction (p : Program) (b : BlockId) (f : Function) :
    (p.splitFunction b f).name = f.name := (p.sameHead_splitFunction b f).1

@[simp] theorem entry_splitFunction (p : Program) (b : BlockId) (f : Function) :
    (p.splitFunction b f).entry = f.entry := (p.sameHead_splitFunction b f).2.1

@[simp] theorem entryValues_splitFunction (p : Program) (b : BlockId) (f : Function) :
    (p.splitFunction b f).entryValues = f.entryValues := (p.sameHead_splitFunction b f).2.2

/-! ### A block that can be cut -/

namespace CanSplit

variable (h : p.CanSplit b xs ys)

include h

theorem exists_block : ∃ block, p.block? b = some block := by
  cases hblock : p.block? b with
  | some block => exact ⟨block, rfl⟩
  | none =>
    have hinstructions := h.instructions
    rw [Program.instructions, hblock, eq_comm, List.append_eq_nil_iff] at hinstructions
    exact absurd hinstructions.2 h.nonempty

theorem contains : p.contains b = true := by
  obtain ⟨block, hblock⟩ := h.exists_block
  have hindex := (Array.getElem?_eq_some_iff.mp hblock).1
  simpa [Program.contains] using hindex

theorem ne_nextBlock : b ≠ p.nextBlock := by
  rintro hnext
  exact p.not_contains_nextBlock (hnext ▸ h.contains)

theorem tailOf_ne_self (b' : BlockId) : p.tailOf b b' ≠ b := by
  rw [tailOf]
  split
  · exact h.ne_nextBlock.symm
  · assumption

theorem contains_tailOf (hb' : b' ≠ p.nextBlock) :
    (p.splitBlock b xs ys address).contains (p.tailOf b b') = true ↔ p.contains b' = true := by
  rw [contains_splitBlock, tailOf]
  split
  · next heq => simp [heq, h.contains]
  · simp [hb']

theorem instructions_self : (p.splitBlock b xs ys address).instructions b = xs := by
  obtain ⟨block, hblock⟩ := h.exists_block
  rw [Program.instructions, block?_splitBlock, if_neg h.ne_nextBlock, if_pos rfl, hblock, Option.map_some]

theorem ne_nextBlock_of_isCallSite (hcall : p.IsCallSite b') : b' ≠ p.nextBlock := by
  obtain ⟨e, he, rfl, -⟩ := hcall
  exact (h.edges e he).1

theorem isCallSite_tailOf (hb' : b' ≠ p.nextBlock) :
    (p.splitBlock b xs ys address).IsCallSite (p.tailOf b b') ↔ p.IsCallSite b' := by
  rw [isCallSite_splitBlock_iff]
  constructor
  · rintro ⟨b₀, htail, hcall⟩
    rwa [tailOf_injective hb' (h.ne_nextBlock_of_isCallSite hcall) htail]
  · intro hcall
    exact ⟨b', rfl, hcall⟩

/-- No call leaves the first part, so falling through to the second is no return from one. -/
theorem continues_cut {afterCall : Bool} :
    (p.splitBlock b xs ys address).Continues ⟨b, p.nextBlock, .fallthrough⟩ afterCall ↔ afterCall = false := by
  have hcall : ¬ (p.splitBlock b xs ys address).IsCallSite b := by
    rw [isCallSite_splitBlock_iff]
    rintro ⟨b₀, htail, -⟩
    exact h.tailOf_ne_self b₀ htail.symm
  simp [Continues, hcall, EdgeKind.isIntraprocedural]

theorem continues_moved {e : Edge} {afterCall : Bool} (he : e ∈ p.edges) :
    (p.splitBlock b xs ys address).Continues { e with source := p.tailOf b e.source } afterCall ↔
      p.Continues e afterCall := by
  rw [Continues, Continues, isCallSite_tailOf h (h.edges e he).1]

theorem wellFormed_iff (hentry : f.entry ≠ p.nextBlock) (hf : p.nextBlock ∉ f.blocks) :
    (p.splitFunction b f).WellFormed (p.splitBlock b xs ys address) ↔ f.WellFormed p := by
  have hcontains {b' : BlockId} (hb' : b' ≠ p.nextBlock) :
      (p.splitBlock b xs ys address).contains b' = true ↔ p.contains b' = true := by
    simp [contains_splitBlock, hb']
  constructor
  · intro hwell
    constructor
    · intro b' hb'
      have hne : b' ≠ p.nextBlock := fun heq => hf (heq ▸ hb')
      exact (hcontains hne).mp (hwell.members b' ((mem_blocks_of_ne hne).mpr hb'))
    · rw [← mem_blocks_of_ne hentry, ← entry_splitFunction p b f]
      exact hwell.entry
    · intro e he htarget
      obtain ⟨hsourceNe, htargetNe⟩ := h.edges e he
      rw [← h.contains_tailOf hsourceNe]
      exact hwell.sources _ (moved_mem_edges he) ((mem_blocks_of_ne htargetNe).mpr htarget)
    · intro e he hsource
      obtain ⟨hsourceNe, htargetNe⟩ := h.edges e he
      have htarget := hwell.targets _ (moved_mem_edges he) ((tailOf_mem_blocks hf hsourceNe).mpr hsource)
      exact (hcontains htargetNe).mp htarget
  · intro hwell
    constructor
    · intro b' hb'
      rcases mem_blocks_splitFunction.mp hb' with hb' | ⟨-, rfl⟩
      · exact contains_splitBlock.mpr (.inl (hwell.members b' hb'))
      · exact contains_splitBlock.mpr (.inr rfl)
    · rw [entry_splitFunction, mem_blocks_of_ne hentry]
      exact hwell.entry
    · intro e he htarget
      rcases mem_edges_splitBlock.mp he with rfl | ⟨e₀, he₀, rfl⟩
      · exact contains_splitBlock.mpr (.inl h.contains)
      · obtain ⟨hsourceNe, htargetNe⟩ := h.edges e₀ he₀
        rw [h.contains_tailOf hsourceNe]
        exact hwell.sources e₀ he₀ ((mem_blocks_of_ne htargetNe).mp htarget)
    · intro e he hsource
      rcases mem_edges_splitBlock.mp he with rfl | ⟨e₀, he₀, rfl⟩
      · exact contains_splitBlock.mpr (.inr rfl)
      · obtain ⟨hsourceNe, htargetNe⟩ := h.edges e₀ he₀
        rw [hcontains htargetNe]
        exact hwell.targets e₀ he₀ ((tailOf_mem_blocks hf hsourceNe).mp hsource)

end CanSplit

end Program

/-! ### The ways of a cut function -/

/-- After the cut, a way leads from the first part to the second, and each old way leaves from the part that
comes last. -/
theorem FlowGraph.way_splitBlock_iff {p : Program} {f : Function} {g g' : FlowGraph} {b b' b'' : BlockId}
    {xs ys : List Instruction} {address : Word} {afterCall : Bool} (h : p.CanSplit b xs ys)
    (hf : p.nextBlock ∉ f.blocks) (hbuild : build p (.ofProgram p) f = .ok g)
    (hbuild' : build (p.splitBlock b xs ys address) (.ofProgram (p.splitBlock b xs ys address))
      (p.splitFunction b f) = .ok g') :
    g'.Way b' b'' afterCall ↔ (b ∈ f.blocks ∧ b' = b ∧ b'' = p.nextBlock ∧ afterCall = false) ∨
      ∃ b₀, b' = p.tailOf b b₀ ∧ g.Way b₀ b'' afterCall := by
  rw [way_iff hbuild']
  constructor
  · rintro ⟨hsource, htarget, e, he, rfl, rfl, hcontinues⟩
    rcases Program.mem_edges_splitBlock.mp he with rfl | ⟨e₀, he₀, rfl⟩
    · exact .inl ⟨(Program.mem_blocks_of_ne h.ne_nextBlock).mp hsource, rfl, rfl, h.continues_cut.mp hcontinues⟩
    · obtain ⟨hsourceNe, htargetNe⟩ := h.edges e₀ he₀
      refine .inr ⟨e₀.source, rfl, (way_iff hbuild).mpr ⟨?_, ?_, e₀, he₀, rfl, rfl, ?_⟩⟩
      · exact (Program.tailOf_mem_blocks hf hsourceNe).mp hsource
      · exact (Program.mem_blocks_of_ne htargetNe).mp htarget
      · exact (h.continues_moved he₀).mp hcontinues
  · rintro (⟨hb, rfl, rfl, rfl⟩ | ⟨b₀, rfl, hway⟩)
    · refine ⟨?_, ?_, _, Program.mem_edges_splitBlock.mpr (.inl rfl), rfl, rfl, h.continues_cut.mpr rfl⟩
      · exact Program.mem_blocks_splitFunction.mpr (.inl hb)
      · exact Program.mem_blocks_splitFunction.mpr (.inr ⟨hb, rfl⟩)
    · obtain ⟨hsource, htarget, e, he, rfl, rfl, hcontinues⟩ := (way_iff hbuild).mp hway
      refine ⟨?_, ?_, _, Program.moved_mem_edges he, rfl, rfl, ?_⟩
      · exact (Program.tailOf_mem_blocks hf (h.edges e he).1).mpr hsource
      · exact Program.mem_blocks_splitFunction.mpr (.inl htarget)
      · exact (h.continues_moved he).mpr hcontinues

/-! ### States -/

namespace Program

variable {p : Program} {b b₀ : BlockId} {xs ys : List Instruction} {address : Word} {s : State}

/-- The entry state of the block that control leaves in the place of another, whose entry state is given. -/
def tailState (p : Program) (b : BlockId) (xs : List Instruction) (b' : BlockId) (s : State) : State :=
  if b' = b then s.applyAll p.arch.registerBits xs else s

section

variable (h : p.CanSplit b xs ys) (hb₀ : b₀ ≠ p.nextBlock)

include h hb₀

theorem CanSplit.exit_tailOf :
    (p.tailState b xs b₀ s).applyAll p.arch.registerBits
        ((p.splitBlock b xs ys address).instructions (p.tailOf b b₀)) =
      s.applyAll p.arch.registerBits (p.instructions b₀) := by
  by_cases hb : b₀ = b
  · rw [hb, tailState, if_pos rfl, tailOf_self, instructions_nextBlock, h.instructions]
    exact List.foldl_append.symm
  · rw [tailState, if_neg hb, tailOf_of_ne hb, instructions_of_ne hb hb₀]

theorem CanSplit.beforeLast_tailOf :
    (p.splitBlock b xs ys address).beforeLast (p.tailOf b b₀) (p.tailState b xs b₀ s) = p.beforeLast b₀ s := by
  by_cases hb : b₀ = b
  · rw [hb, tailState, if_pos rfl, tailOf_self, beforeLast, instructions_nextBlock, beforeLast, h.instructions,
      List.dropLast_append_of_ne_nil h.nonempty]
    exact List.foldl_append.symm
  · rw [tailState, if_neg hb, tailOf_of_ne hb, beforeLast, instructions_of_ne hb hb₀]
    rfl

theorem CanSplit.getLast?_tailOf : ((p.splitBlock b xs ys address).instructions (p.tailOf b b₀)).getLast? =
    (p.instructions b₀).getLast? := by
  by_cases hb : b₀ = b
  · rw [hb, tailOf_self, instructions_nextBlock, h.instructions, List.getLast?_append_of_ne_nil _ h.nonempty]
  · rw [tailOf_of_ne hb, instructions_of_ne hb hb₀]

end

end Program

namespace FunctionAnalysis

variable {p : Program} {c : Config} {f : Function} {a a' : FunctionAnalysis} {b b' b₀ : BlockId}
  {xs ys : List Instruction} {address : Word} {s : State} {afterCall : Bool}

theorem outflow_cut (h : p.CanSplit b xs ys) :
    outflow (p.splitBlock b xs ys address) c b false s = s.applyAll p.arch.registerBits xs := by
  rw [outflow, h.instructions_self]
  rfl

theorem outflow_tailOf (h : p.CanSplit b xs ys) (hb₀ : b₀ ≠ p.nextBlock) :
    outflow (p.splitBlock b xs ys address) c (p.tailOf b b₀) afterCall (p.tailState b xs b₀ s) =
      outflow p c b₀ afterCall s := by
  have hexit : (p.tailState b xs b₀ s).applyAll (p.splitBlock b xs ys address).arch.registerBits
      ((p.splitBlock b xs ys address).instructions (p.tailOf b b₀)) =
        s.applyAll p.arch.registerBits (p.instructions b₀) := h.exit_tailOf hb₀
  rw [outflow, outflow, hexit]
  rfl

theorem initialState_splitFunction : initialState (p.splitBlock b xs ys address).arch
    (c.trackedFor (p.splitBlock b xs ys address).arch) (p.splitFunction b f) =
      initialState p.arch (c.trackedFor p.arch) f := by
  rw [initialState, Program.entryValues_splitFunction]
  rfl

/-- The entry states after the cut, from those before: the second part is entered with what the first makes of
its entry state, and all others are entered as they were. -/
def splitStates (a : FunctionAnalysis) (p : Program) (b : BlockId) (xs : List Instruction) (b' : BlockId) :
    Option State :=
  if b' = p.nextBlock then (a.entryState? b).map fun s => s.applyAll p.arch.registerBits xs else a.entryState? b'

theorem splitStates_of_ne (hb' : b' ≠ p.nextBlock) : a.splitStates p b xs b' = a.entryState? b' := if_neg hb'

theorem splitStates_tailOf (hb₀ : b₀ ≠ p.nextBlock) :
    a.splitStates p b xs (p.tailOf b b₀) = (a.entryState? b₀).map (p.tailState b xs b₀) := by
  by_cases hb : b₀ = b
  · have htail : p.tailState b xs b = fun s => s.applyAll p.arch.registerBits xs := funext fun _ => if_pos rfl
    rw [hb, Program.tailOf_self, splitStates, if_pos rfl, htail]
  · have hsame : p.tailState b xs b₀ = id := funext fun _ => if_neg hb
    rw [Program.tailOf_of_ne hb, splitStates_of_ne hb₀, hsame, Option.map_id, id]

section

variable (h : p.CanSplit b xs ys) (hf : p.nextBlock ∉ f.blocks) (ha : analyze p (.ofProgram p) c f = .ok a)
  (ha' : analyze (p.splitBlock b xs ys address) (.ofProgram (p.splitBlock b xs ys address)) c
    (p.splitFunction b f) = .ok a')

include h hf ha ha'

/-- The states from before the cut take in all that flows after it. -/
theorem entryState?_below_splitStates (hs : a'.entryState? b' = some s) :
    ∃ t, a.splitStates p b xs b' = some t ∧ s.Below t := by
  have hne {b₀ : BlockId} (hb₀ : b₀ ∈ f.blocks) : b₀ ≠ p.nextBlock := fun heq => hf (heq ▸ hb₀)
  have hbuild := (analyze_eq_ok ha).1
  refine exists_above_entryState? ha' ?_ ?_ hs
  · obtain ⟨t, ht, hbelow⟩ := entryState?_entry ha
    rw [Program.entry_splitFunction, splitStates_of_ne (hne (mem_blocks_of_entryState? ha ht)),
      initialState_splitFunction]
    exact ⟨t, ht, hbelow⟩
  · intro b₁ b₂ afterCall u hu hway
    rcases (FlowGraph.way_splitBlock_iff h hf hbuild (analyze_eq_ok ha').1).mp hway with
      ⟨-, rfl, rfl, rfl⟩ | ⟨b₀, rfl, hway₀⟩
    · -- The way into the second part carries exactly the state that is given to it.
      rw [splitStates_of_ne h.ne_nextBlock] at hu
      refine ⟨u.applyAll p.arch.registerBits xs, ?_, ?_⟩
      · rw [splitStates, if_pos rfl, hu, Option.map_some]
      · rw [outflow_cut h]
        exact .refl _
    · obtain ⟨hsource, htarget, -⟩ := (FlowGraph.way_iff hbuild).mp hway₀
      rw [splitStates_tailOf (hne hsource)] at hu
      obtain ⟨t, ht, rfl⟩ := Option.map_eq_some_iff.mp hu
      rw [splitStates_of_ne (hne htarget), outflow_tailOf h (hne hsource)]
      exact entryState?_along ha ht hway₀

/-- The part that comes last is entered with at least what the first part makes of its entry state. -/
theorem tailState_below_entryState? (hb₀ : b₀ ∈ f.blocks) (hs : a'.entryState? b₀ = some s) :
    ∃ t, a'.entryState? (p.tailOf b b₀) = some t ∧ (p.tailState b xs b₀ s).Below t := by
  rw [Program.tailState]
  split
  · next heq =>
    subst heq
    have hway := (FlowGraph.way_splitBlock_iff h hf (analyze_eq_ok ha).1 (analyze_eq_ok ha').1).mpr
      (.inl ⟨hb₀, rfl, rfl, rfl⟩)
    have hflow := entryState?_along ha' hs hway
    rwa [outflow_cut h, ← p.tailOf_self b₀] at hflow
  · next hb =>
    rw [Program.tailOf_of_ne hb]
    exact ⟨s, hs, .refl s⟩

/-- The states from after the cut take in all that flows before it. -/
theorem entryState?_below_entryState? (hs : a.entryState? b' = some s) :
    ∃ t, a'.entryState? b' = some t ∧ s.Below t := by
  have hbuild := (analyze_eq_ok ha).1
  refine exists_above_entryState? ha ?_ ?_ hs
  · rw [← Program.entry_splitFunction p b f, ← initialState_splitFunction]
    exact entryState?_entry ha'
  · intro b₁ b₂ afterCall u hu hway
    obtain ⟨hsource, -⟩ := (FlowGraph.way_iff hbuild).mp hway
    obtain ⟨t, ht, htail⟩ := tailState_below_entryState? h hf ha ha' hsource hu
    have hway' := (FlowGraph.way_splitBlock_iff h hf hbuild (analyze_eq_ok ha').1).mpr (.inr ⟨b₁, rfl, hway⟩)
    obtain ⟨v, hv, hflow⟩ := entryState?_along ha' ht hway'
    refine ⟨v, hv, ?_⟩
    have hbelow := (outflow_below htail).trans hflow
    rwa [outflow_tailOf h fun heq => hf (heq ▸ hsource)] at hbelow

theorem entryState?_splitBlock (b' : BlockId) : a'.entryState? b' = a.splitStates p b xs b' := by
  refine State.eq_of_below_of_below (fun s hs => entryState?_below_splitStates h hf ha ha' hs) ?_
  intro t ht
  rw [splitStates] at ht
  split at ht
  · next heq =>
    -- No state from before belongs to the second part; its entry state is reached over that of the first.
    obtain ⟨s, hs, rfl⟩ := Option.map_eq_some_iff.mp ht
    obtain ⟨u, hu, hbelow⟩ := entryState?_below_entryState? h hf ha ha' hs
    obtain ⟨v, hv, htail⟩ := tailState_below_entryState? h hf ha ha' (mem_blocks_of_entryState? ha hs) hu
    rw [Program.tailOf_self] at hv
    rw [Program.tailState, if_pos rfl] at htail
    exact ⟨v, heq ▸ hv, (hbelow.applyAll _ _).trans htail⟩
  · exact entryState?_below_entryState? h hf ha ha' ht

end

end FunctionAnalysis

/-! ### The report -/

namespace Program

variable {p : Program} {c : Config} {f : Function} {b b' : BlockId} {xs ys : List Instruction} {address : Word}
  {site : Site} {v : Value}

theorem mem_functions_splitBlock {f' : Function} : f' ∈ (p.splitBlock b xs ys address).functions ↔
    ∃ f ∈ p.functions, p.splitFunction b f = f' := List.mem_map

/-- Where calls are observed, each is observed in the part that comes last. -/
theorem CanSplit.observes_iff (h : p.CanSplit b xs ys) (hobserve : c.observe = .callSites) {last : Instruction} :
    (p.splitBlock b xs ys address).Observes c b' last ↔
      ∃ b₀, b₀ ≠ p.nextBlock ∧ b' = p.tailOf b b₀ ∧ p.Observes c b₀ last := by
  have hcalls : c.observe ≠ .blockExits := by simp [hobserve]
  simp only [Observes, hcalls, false_or]
  constructor
  · rintro ⟨hcall, hlast⟩
    obtain ⟨b₀, rfl, hcall₀⟩ := isCallSite_splitBlock_iff.mp hcall
    have hb₀ : b₀ ≠ p.nextBlock := h.ne_nextBlock_of_isCallSite hcall₀
    rw [h.getLast?_tailOf hb₀] at hlast
    exact ⟨b₀, hb₀, rfl, hcall₀, hlast⟩
  · rintro ⟨b₀, hb₀, rfl, hcall, hlast⟩
    exact ⟨(h.isCallSite_tailOf hb₀).mpr hcall, by rw [h.getLast?_tailOf hb₀, hlast]⟩

section

variable (hroom : c.LeavesRoom p.arch) (h : p.CanSplit b xs ys)

include hroom h

theorem CanSplit.exists_analyze_iff (hf : f ∈ p.functions) :
    (∃ a, FunctionAnalysis.analyze (p.splitBlock b xs ys address) (.ofProgram (p.splitBlock b xs ys address)) c
      (p.splitFunction b f) = .ok a) ↔ ∃ a, FunctionAnalysis.analyze p (.ofProgram p) c f = .ok a := by
  obtain ⟨hentry, hblocks⟩ := h.functions f hf
  rw [FunctionAnalysis.exists_analyze_iff (p := p.splitBlock b xs ys address) hroom,
    FunctionAnalysis.exists_analyze_iff hroom, h.wellFormed_iff hentry hblocks]

theorem CanSplit.exists_failure_iff (hf : f ∈ p.functions) :
    (∃ failure, FunctionAnalysis.analyze (p.splitBlock b xs ys address)
      (.ofProgram (p.splitBlock b xs ys address)) c (p.splitFunction b f) = .error failure) ↔
      ∃ failure, FunctionAnalysis.analyze p (.ofProgram p) c f = .error failure := by
  obtain ⟨hentry, hblocks⟩ := h.functions f hf
  rw [FunctionAnalysis.exists_failure_iff (p := p.splitBlock b xs ys address) hroom,
    FunctionAnalysis.exists_failure_iff hroom, h.wellFormed_iff hentry hblocks]

theorem CanSplit.shownAt_iff (hobserve : c.observe = .callSites) :
    ShownAt (p.splitBlock b xs ys address).arch ((p.splitBlock b xs ys address).observations c) site v ↔
      ShownAt p.arch (p.observations c) site v := by
  rw [shownAt_observations_iff, shownAt_observations_iff]
  refine and_congr_right fun _ => and_congr_right fun _ => ?_
  constructor
  · rintro ⟨f', hf', a', ha', b', s', last, hs', hobserves, haddress, hget⟩
    obtain ⟨f, hf, rfl⟩ := mem_functions_splitBlock.mp hf'
    obtain ⟨a, ha⟩ := (h.exists_analyze_iff hroom hf).mp ⟨a', ha'⟩
    obtain ⟨b₀, hb₀, rfl, hobserves₀⟩ := (h.observes_iff hobserve).mp hobserves
    rw [FunctionAnalysis.entryState?_splitBlock h (h.functions f hf).2 ha ha',
      FunctionAnalysis.splitStates_tailOf hb₀] at hs'
    obtain ⟨s, hs, rfl⟩ := Option.map_eq_some_iff.mp hs'
    rw [h.beforeLast_tailOf hb₀] at hget
    exact ⟨f, hf, a, ha, b₀, s, last, hs, hobserves₀, haddress, hget⟩
  · rintro ⟨f, hf, a, ha, b₀, s, last, hs, hobserves, haddress, hget⟩
    obtain ⟨-, hblocks⟩ := h.functions f hf
    obtain ⟨a', ha'⟩ := (h.exists_analyze_iff hroom hf).mpr ⟨a, ha⟩
    have hb₀ : b₀ ≠ p.nextBlock := fun heq => hblocks (heq ▸ FunctionAnalysis.mem_blocks_of_entryState? ha hs)
    refine ⟨p.splitFunction b f, mem_functions_splitBlock.mpr ⟨f, hf, rfl⟩, a', ha', p.tailOf b b₀,
      p.tailState b xs b₀ s, last, ?_, ?_, haddress, ?_⟩
    · rw [FunctionAnalysis.entryState?_splitBlock h hblocks ha ha', FunctionAnalysis.splitStates_tailOf hb₀, hs,
        Option.map_some]
    · exact (h.observes_iff hobserve).mpr ⟨b₀, hb₀, rfl, hobserves⟩
    · rw [h.beforeLast_tailOf hb₀, hget]

theorem CanSplit.fails_iff {name : String} :
    ((p.splitBlock b xs ys address).analyze c).Fails name ↔ (p.analyze c).Fails name := by
  rw [Program.fails_iff, Program.fails_iff]
  constructor
  · rintro ⟨f', hf', hname, hfailure⟩
    obtain ⟨f, hf, rfl⟩ := mem_functions_splitBlock.mp hf'
    exact ⟨f, hf, name_splitFunction p b f ▸ hname, (h.exists_failure_iff hroom hf).mp hfailure⟩
  · rintro ⟨f, hf, hname, hfailure⟩
    exact ⟨p.splitFunction b f, mem_functions_splitBlock.mpr ⟨f, hf, rfl⟩, (name_splitFunction p b f).trans hname,
      (h.exists_failure_iff hroom hf).mpr hfailure⟩

end

/-- A block may be cut anywhere before its last instruction: where calls are observed, that changes no fact and
nothing about which functions fail. -/
theorem analyze_splitBlock (hroom : c.LeavesRoom p.arch) (hobserve : c.observe = .callSites)
    (h : p.CanSplit b xs ys) (address : Word) :
    ((p.splitBlock b xs ys address).analyze c).facts = (p.analyze c).facts ∧
      (∀ name, ((p.splitBlock b xs ys address).analyze c).Fails name ↔ (p.analyze c).Fails name) ∧
      ∀ f ∈ p.functions,
        (∃ failure, FunctionAnalysis.analyze (p.splitBlock b xs ys address)
          (.ofProgram (p.splitBlock b xs ys address)) c (p.splitFunction b f) = .error failure) ↔
          ∃ failure, FunctionAnalysis.analyze p (.ofProgram p) c f = .error failure := by
  refine ⟨FactTable.ext fun fact => ?_, fun name => h.fails_iff hroom, fun f hf => h.exists_failure_iff hroom hf⟩
  simp only [mem_facts_analyze_iff, h.shownAt_iff hroom hobserve]

/-- A block that sets a register and calls, at the entry of two functions. -/
def sharedCall : Program where
  arch := .arm32
  blocks := #[
    ⟨0x1000, [⟨0x1000, 4, "mov", [.immediate 0 5]⟩, ⟨0x1004, 4, "bl", [.clobber 14]⟩]⟩,
    ⟨0x1008, [⟨0x1008, 4, "bx", []⟩]⟩,
    ⟨0x2000, [⟨0x2000, 4, "bx", []⟩]⟩]
  edges := [⟨⟨0⟩, ⟨1⟩, .fallthrough⟩, ⟨⟨0⟩, ⟨2⟩, .call⟩]
  functions := [⟨"once", ⟨0⟩, [⟨0⟩, ⟨1⟩], []⟩, ⟨"again", ⟨0⟩, [⟨1⟩, ⟨0⟩], [(0, 7)]⟩]

/-- The same program with the call in a block of its own. -/
def sharedCallSplit : Program :=
  sharedCall.splitBlock ⟨0⟩ [⟨0x1000, 4, "mov", [.immediate 0 5]⟩] [⟨0x1004, 4, "bl", [.clobber 14]⟩] 0x1004

theorem sharedCall_canSplit : sharedCall.CanSplit ⟨0⟩ [⟨0x1000, 4, "mov", [.immediate 0 5]⟩]
    [⟨0x1004, 4, "bl", [.clobber 14]⟩] := ⟨rfl, by decide, by decide, by decide⟩

/-- The call is observed with the same value after the cut. -/
theorem sharedCallSplit_fact : ⟨⟨0x1004, 0⟩, 5, 32⟩ ∈ (sharedCallSplit.analyze {}).facts.facts := by
  have hfact : ⟨⟨0x1004, 0⟩, 5, 32⟩ ∈ (sharedCall.analyze {}).facts.facts := by decide +kernel
  rw [sharedCallSplit, (analyze_splitBlock ⟨by decide, by decide⟩ rfl sharedCall_canSplit 0x1004).1]
  exact hfact

end Program

end CallFacts
