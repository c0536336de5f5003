import CallFacts.Proofs.Aborts
import CallFacts.Proofs.WrittenListing

/-!
# Listings that are read back

The program of a listing as it is written: blocks in their order, each with its instructions lifted and at
the address of the first of them; functions with their entry ahead of their other blocks; edges between the
positions of labels, where labels without a block come after the blocks as edges name them first. Reading
the text of the listing builds it up block by block.
-/

namespace CallFacts

variable {arch : Arch}

/-! ### The program -/

namespace WrittenInstruction

/-- The instruction as the model of its architecture lifts it. -/
def lift (i : WrittenInstruction arch) : Except LiftError Instruction := Semantics.lift arch.semantics i.decoded

/-- A mnemonic of small letters and digits can be cut anywhere. -/
theorem exists_lift (i : WrittenInstruction arch) : ∃ lifted, i.lift = .ok lifted := by
  have hall : Text.nameChars.all (fun c => c.utf8Size == 1) = true := by decide +kernel
  have hcan : ¬ arch.CannotLift i.decoded.mnemonic.toList := by
    rintro ⟨-, hsplits⟩
    refine Arm32.not_splitsCharacter_of_utf8Size ?_ hsplits
    intro c hc
    rw [decoded, String.toList_ofList] at hc
    simpa using Text.of_mem_nameChars hall (i.isMnemonic.1.2 c hc)
  obtain ⟨lifted, hlift, -⟩ := Semantics.exists_lift hcan
  exact ⟨lifted, hlift⟩

end WrittenInstruction

/-- The block stands where its first instruction stands. -/
def WrittenBlock.build (b : WrittenBlock arch) : Except LiftError Block := do
  let instructions ← b.instructions.mapM WrittenInstruction.lift
  return ⟨(instructions.head?.map Instruction.address).getD 0, instructions⟩

namespace WrittenFunction

variable (id : String → BlockId) (f : WrittenFunction arch)

/-- The flagged block or else the first one. -/
def entry : WrittenBlock arch := (f.blocks.find? (·.isEntry)).getD (f.blocks.head f.nonempty)

/-- The entry and then the other blocks in their order. -/
def build : Function where
  name := f.name.1
  entry := id f.entry.label.1
  blocks := id f.entry.label.1 :: (f.blocks.map fun b => id b.label.1).filter (· ≠ id f.entry.label.1)
  entryValues := f.assignments.map fun a => (a.view.1.register, a.value)

end WrittenFunction

namespace WrittenListing

variable (l : WrittenListing arch)

def blocks : List (WrittenBlock arch) := l.functions.flatMap (·.blocks)

def blockLabels : List String := l.blocks.map fun b => b.label.1

/-- The labels of the blocks, then the other labels as edges name them first. -/
def labels : List String := (l.blockLabels ++ l.edges.flatMap fun e => [e.source.1, e.target.1]).eraseDups

def id (label : String) : BlockId := ⟨l.labels.idxOf label⟩

/-- The program that the listing writes. -/
def program : Except LiftError Program := do
  let blocks ← l.blocks.mapM WrittenBlock.build
  return {
    arch := arch
    blocks := blocks.toArray
    edges := l.edges.map fun e => ⟨l.id e.source.1, l.id e.target.1, e.kind⟩
    functions := l.functions.map (WrittenFunction.build l.id) }

end WrittenListing

/-! ### Lines of instructions -/

namespace Listing.Builder

/-- A builder without edges. -/
def state (arch : Arch) (blocks : List Block) (functions : List Function) (labels : List String)
    (function : Option OpenFunction) (block : Option BlockId) : Builder :=
  ⟨⟨arch, blocks.toArray, [], functions⟩, labels, function, block, []⟩

variable {models : List Model} {blocks : List Block} {functions : List Function} {labels : List String}
  {function : Option OpenFunction}

theorem takeRows_append (b : Builder) (rows rows' : List (List Char)) :
    b.takeRows models (rows ++ rows') = b.takeRows models rows >>= (·.takeRows models rows') := by
  rw [takeRows, List.map_append, takeLines_append]
  rfl

theorem modify_concat {α : Type} (f : α → α) (xs : List α) (x : α) :
    (xs ++ [x]).modify xs.length f = xs ++ [f x] := by
  induction xs with
  | nil => rfl
  | cons y ys ih => simpa using ih

theorem appendInstruction_state (block : Block) (i : Instruction) :
    (state arch (blocks ++ [block]) functions labels function (some ⟨blocks.length⟩)).appendInstruction
        ⟨blocks.length⟩ i =
      state arch (blocks ++ [appendTo block i]) functions labels function (some ⟨blocks.length⟩) := by
  have hmodify : (blocks ++ [block]).toArray.modify blocks.length (fun block => appendTo block i) =
      (blocks ++ [appendTo block i]).toArray := by
    apply Array.toList_inj.mp
    rw [Array.toList_modify]
    exact modify_concat _ blocks block
  simp only [appendInstruction, state, hmodify]

/-- The instructions of a block are put at its end. -/
theorem takeRows_instructions (is : List (WrittenInstruction arch)) {lifted : List Instruction}
    (h : is.mapM WrittenInstruction.lift = .ok lifted) (block : Block) :
    (state arch (blocks ++ [block]) functions labels function (some ⟨blocks.length⟩)).takeRows arch.semantics
        (is.map WrittenInstruction.row) =
      .ok (state arch (blocks ++ [lifted.foldl appendTo block]) functions labels function (some ⟨blocks.length⟩)) := by
  induction is generalizing lifted block with
  | nil =>
    cases h
    rfl
  | cons i is ih =>
    rw [List.mapM_cons] at h
    obtain ⟨first, hfirst, h⟩ := bind_eq_ok.mp h
    obtain ⟨rest, hrest, h⟩ := bind_eq_ok.mp h
    cases h
    have hstep : (state arch (blocks ++ [block]) functions labels function (some ⟨blocks.length⟩)).step arch.semantics 0
          i.row =
        .ok (state arch (blocks ++ [appendTo block first]) functions labels function (some ⟨blocks.length⟩)) := by
      rw [← appendInstruction_state, step_of_read (Line.read?_instruction i)]
      refine bind_eq_ok.mpr ⟨i.decoded, mapError_eq_ok.mpr i.decode_row, bind_eq_ok.mpr ⟨first, ?_, rfl⟩⟩
      exact mapError_eq_ok.mpr hfirst
    rw [List.map_cons, takeRows_cons, hstep]
    exact ih hrest _

/-- Instructions that are put into an empty block give it the address of the first. -/
theorem foldl_appendTo (lifted : List Instruction) :
    lifted.foldl appendTo ⟨0, []⟩ = ⟨(lifted.head?.map Instruction.address).getD 0, lifted⟩ := by
  have hnonempty (first : Instruction) (before rest : List Instruction) (address : Word) :
      rest.foldl appendTo ⟨address, before ++ [first]⟩ = ⟨address, before ++ [first] ++ rest⟩ := by
    induction rest generalizing before first with
    | nil => simp
    | cons i rest ih =>
      have hnext : appendTo ⟨address, before ++ [first]⟩ i = ⟨address, (before ++ [first]) ++ [i]⟩ := by
        simp [appendTo, Block.push]
      rw [List.foldl_cons, hnext, ih i (before ++ [first])]
      simp
  cases lifted with
  | nil => rfl
  | cons first rest => exact hnonempty first [] rest first.address

/-! ### Blocks -/

/-- The open function with one more block. -/
def extend (f : OpenFunction) (id : BlockId) (isEntry : Bool) : OpenFunction :=
  { f with entry := if isEntry then some id else f.entry, blocks := f.blocks ++ [id] }

/-- The line of a block and its instructions add it to the open function. -/
theorem takeRows_block {f : OpenFunction} {current : Option BlockId} (b : WrittenBlock arch) {built : Block}
    (h : b.build = .ok built) (hlabel : b.label.1 ∉ labels) (hentry : ¬ (b.isEntry = true ∧ f.entry.isSome = true)) :
    (state arch blocks functions labels (some f) current).takeRows arch.semantics b.rows =
      .ok (state arch (blocks ++ [built]) functions (labels ++ [b.label.1])
        (some (extend f ⟨blocks.length⟩ b.isEntry)) (some ⟨blocks.length⟩)) := by
  obtain ⟨lifted, hlifted, hbuilt⟩ := bind_eq_ok.mp h
  cases hbuilt
  have hopen : (state arch blocks functions labels (some f) current).step arch.semantics 0 b.head =
      .ok (state arch (blocks ++ [⟨0, []⟩]) functions (labels ++ [b.label.1])
        (some (extend f ⟨blocks.length⟩ b.isEntry)) (some ⟨blocks.length⟩)) := by
    rw [step_of_read (Line.read?_block b), takeParts, openBlock]
    simp only [state, if_neg hlabel, if_neg hentry, Program.nextBlock, Program.addBlock]
    simp [Except.mapError, extend]
  rw [WrittenBlock.rows, takeRows_cons, hopen]
  exact (takeRows_instructions b.instructions hlifted _).trans (by rw [foldl_appendTo])

/-- The labels have the numbers of their positions. -/
def Numbers (id : String → BlockId) (labels : List String) : Prop :=
  ∀ i label, labels[i]? = some label → id label = ⟨i⟩

theorem Numbers.of_append {id : String → BlockId} {labels' : List String} (h : Numbers id (labels ++ labels')) :
    Numbers id labels := by
  intro i label hlabel
  refine h i label ?_
  obtain ⟨hlt, -⟩ := List.getElem?_eq_some_iff.mp hlabel
  rw [List.getElem?_append_left hlt, hlabel]

theorem Numbers.next {id : String → BlockId} {label : String} {labels' : List String}
    (h : Numbers id (labels ++ label :: labels')) : id label = ⟨labels.length⟩ := h _ _ (by simp)

theorem Numbers.inj {id : String → BlockId} (h : Numbers id labels) {label label' : String} (hlabel : label ∈ labels)
    (hlabel' : label' ∈ labels) (heq : id label = id label') : label = label' := by
  obtain ⟨i, hi⟩ := List.mem_iff_getElem?.mp hlabel
  obtain ⟨j, hj⟩ := List.mem_iff_getElem?.mp hlabel'
  rw [h i _ hi, h j _ hj, BlockId.mk.injEq] at heq
  rw [heq, hj] at hi
  exact (Option.some.inj hi).symm

theorem Numbers.nodup_ids {id : String → BlockId} {bs : List (WrittenBlock arch)}
    (h : Numbers id (labels ++ bs.map fun b => b.label.1)) (hnodup : (labels ++ bs.map fun b => b.label.1).Nodup) :
    (bs.map fun b => id b.label.1).Nodup := by
  have hmap : (bs.map fun b => id b.label.1) = (bs.map fun b => b.label.1).map id := by
    rw [List.map_map]
    rfl
  rw [hmap]
  exact (List.nodup_append.mp hnodup).2.1.map_on fun l hl l' hl' heq =>
    h.inj (List.mem_append_right _ hl) (List.mem_append_right _ hl') heq

/-- The entry of the function so far and the flags of the blocks that are left are one at most. -/
def OneEntry (f : OpenFunction) (bs : List (WrittenBlock arch)) : Prop :=
  f.entry.toList.length + (bs.filter (·.isEntry)).length ≤ 1

section

variable {id : String → BlockId} {f : OpenFunction} {b : WrittenBlock arch} {bs : List (WrittenBlock arch)}

theorem OneEntry.head (h : OneEntry f (b :: bs)) : ¬ (b.isEntry = true ∧ f.entry.isSome = true) := by
  rintro ⟨hflag, hsome⟩
  obtain ⟨entry, hentry⟩ := Option.isSome_iff_exists.mp hsome
  simp [OneEntry, hflag, hentry] at h

theorem OneEntry.tail (h : OneEntry f (b :: bs)) (id : BlockId) : OneEntry (extend f id b.isEntry) bs := by
  rw [OneEntry] at h ⊢
  cases hb : b.isEntry with
  | false => simpa [extend, hb] using h
  | true =>
    have hflagged : ((b :: bs).filter (·.isEntry)).length = (bs.filter (·.isEntry)).length + 1 := by simp [hb]
    have hentry : (extend f id true).entry.toList.length = 1 := rfl
    omega

/-- The flagged block is the entry of the function with all its blocks. -/
theorem foldl_extend (h : OneEntry f bs) :
    bs.foldl (fun f b => extend f (id b.label.1) b.isEntry) f = { f with
      entry := f.entry.or ((bs.find? (·.isEntry)).map fun b => id b.label.1)
      blocks := f.blocks ++ bs.map fun b => id b.label.1 } := by
  induction bs generalizing f with
  | nil => simp
  | cons b bs ih =>
    have hentry : (extend f (id b.label.1) b.isEntry).entry.or ((bs.find? (·.isEntry)).map fun b => id b.label.1) =
        f.entry.or (((b :: bs).find? (·.isEntry)).map fun b => id b.label.1) := by
      cases hb : b.isEntry with
      | false => simp [extend, hb]
      | true =>
        have hnone : f.entry = none := by simpa [hb] using h.head
        simp [extend, hb, hnone]
    rw [List.foldl_cons, ih (h.tail _), hentry]
    simp [extend]

/-- The blocks of a function are added in their order. -/
theorem takeRows_blocks (functions : List Function) (current : Option BlockId) {built : List Block}
    (h : bs.mapM WrittenBlock.build = .ok built) (hnumbers : Numbers id (labels ++ bs.map fun b => b.label.1))
    (hlength : labels.length = blocks.length) (hnodup : (labels ++ bs.map fun b => b.label.1).Nodup)
    (hentry : OneEntry f bs) :
    ∃ current', (state arch blocks functions labels (some f) current).takeRows arch.semantics
        (bs.flatMap WrittenBlock.rows) =
      .ok (state arch (blocks ++ built) functions (labels ++ bs.map fun b => b.label.1)
        (some (bs.foldl (fun f b => extend f (id b.label.1) b.isEntry) f)) current') := by
  induction bs generalizing blocks labels f current built with
  | nil =>
    cases h
    refine ⟨current, ?_⟩
    simp [takeRows, takeLines]
    rfl
  | cons b bs ih =>
    rw [List.mapM_cons] at h
    obtain ⟨first, hfirst, h⟩ := bind_eq_ok.mp h
    obtain ⟨rest, hrest, h⟩ := bind_eq_ok.mp h
    cases h
    rw [List.map_cons] at hnumbers hnodup
    have hid : id b.label.1 = ⟨blocks.length⟩ := by rw [hnumbers.next, hlength]
    have hlabel : b.label.1 ∉ labels := fun hmem =>
      (List.nodup_append.mp hnodup).2.2 _ hmem _ List.mem_cons_self rfl
    rw [List.append_cons] at hnumbers hnodup
    have hblock : (state arch blocks functions labels (some f) current).takeRows arch.semantics b.rows = _ :=
      takeRows_block b hfirst hlabel hentry.head
    obtain ⟨current', hblocks⟩ := @ih (blocks ++ [first]) (labels ++ [b.label.1]) (extend f ⟨blocks.length⟩ b.isEntry)
      (some ⟨blocks.length⟩) rest hrest hnumbers (by simp [hlength]) hnodup (hentry.tail _)
    refine ⟨current', ?_⟩
    rw [List.flatMap_cons, takeRows_append, hblock]
    refine hblocks.trans ?_
    simp [hid]

end

variable {id : String → BlockId}

/-! ### Functions -/

/-- A function with all its blocks, before it is closed. -/
def written (id : String → BlockId) (f : WrittenFunction arch) : OpenFunction where
  line := 0
  name := f.name.1
  entry := (f.blocks.find? (·.isEntry)).map fun b => id b.label.1
  blocks := f.blocks.map fun b => id b.label.1
  entryValues := f.assignments.map fun a => (a.view.1.register, a.value)

theorem foldl_extend_written (f : WrittenFunction arch) :
    f.blocks.foldl (fun f b => extend f (id b.label.1) b.isEntry)
      ⟨0, f.name.1, none, [], f.assignments.map fun a => (a.view.1.register, a.value)⟩ = written id f := by
  rw [foldl_extend (by simpa [OneEntry] using f.oneEntry)]
  rfl

theorem close_written (f : WrittenFunction arch) (hnodup : (f.blocks.map fun b => id b.label.1).Nodup) :
    (written id f).close = .ok (f.build id) := by
  obtain ⟨first, rest, hblocks⟩ := List.exists_cons_of_ne_nil f.nonempty
  have hentry : ((f.blocks.find? (·.isEntry)).map fun b => id b.label.1).getD (id first.label.1) =
      id f.entry.label.1 := by
    have hhead : f.blocks.head f.nonempty = first := by simp [hblocks]
    rw [WrittenFunction.entry, hhead]
    cases f.blocks.find? (·.isEntry) <;> rfl
  have hclose (blocks : List BlockId) (hne : blocks.head? = some (id first.label.1)) (hblocks : blocks.Nodup) :
      OpenFunction.close { written id f with blocks := blocks } =
      .ok ⟨f.name.1, id f.entry.label.1, id f.entry.label.1 :: blocks.filter (· ≠ id f.entry.label.1),
        f.assignments.map fun a => (a.view.1.register, a.value)⟩ := by
    obtain ⟨rest, rfl⟩ := List.head?_eq_some_iff.mp hne
    simp only [written, OpenFunction.close, hentry, Function.addBlocks_eq hblocks]
    simp [Function.ofEntry]
  exact hclose _ (by simp [hblocks]) hnodup

/-- The lines of a function close the function before it and add its own. -/
theorem takeRows_function {b : Builder} {current : Option BlockId}
    (hclose : b.closeFunction = .ok (state arch blocks functions labels none current)) (f : WrittenFunction arch)
    {built : List Block} (h : f.blocks.mapM WrittenBlock.build = .ok built)
    (hnumbers : Numbers id (labels ++ f.blocks.map fun b => b.label.1)) (hlength : labels.length = blocks.length)
    (hnodup : (labels ++ f.blocks.map fun b => b.label.1).Nodup) :
    ∃ b' current', b.takeRows arch.semantics f.rows = .ok b' ∧ b'.edges = [] ∧
      b'.closeFunction = .ok (state arch (blocks ++ built) (functions ++ [f.build id])
        (labels ++ f.blocks.map fun b => b.label.1) none current') := by
  have harch : b.program.arch = arch := by
    rcases closeFunction_eq_ok hclose with ⟨-, heq⟩ | ⟨g, closed, -, -, heq⟩ <;>
      exact (congrArg (·.program.arch) heq).symm
  have hvalues : (f.assignments.map WrittenAssignment.text).mapM (assignment arch) =
      .ok (f.assignments.map fun a => (a.view.1.register, a.value)) := by
    rw [mapM_eq_ok_iff_forall₂, List.forall₂_map_left_iff, List.forall₂_map_right_iff, List.forall₂_same]
    exact fun a _ => a.assignment_text
  have hopen : b.step arch.semantics 0 f.head = .ok (state arch blocks functions labels
      (some ⟨0, f.name.1, none, [], f.assignments.map fun a => (a.view.1.register, a.value)⟩) none) := by
    rw [step_of_read (Line.read?_function f), takeParts, harch, hvalues]
    show b.closeFunction >>= _ = _
    rw [hclose]
    rfl
  obtain ⟨current', hblocks⟩ := takeRows_blocks functions none h hnumbers hlength hnodup
    (f := ⟨0, f.name.1, none, [], f.assignments.map fun a => (a.view.1.register, a.value)⟩)
    (by simpa [OneEntry] using f.oneEntry)
  rw [foldl_extend_written] at hblocks
  have hrows : b.takeRows arch.semantics f.rows =
      .ok (state arch (blocks ++ built) functions (labels ++ f.blocks.map fun b => b.label.1) (some (written id f))
        current') := by
    rw [WrittenFunction.rows, takeRows_cons, hopen]
    exact hblocks
  refine ⟨_, current', hrows, rfl, ?_⟩
  show (written id f).close >>= _ = _
  rw [close_written f (hnumbers.nodup_ids hnodup)]
  rfl

/-- The lines of functions add the functions. -/
theorem takeRows_functions (fs : List (WrittenFunction arch)) {b : Builder} {current : Option BlockId}
    (hclose : b.closeFunction = .ok (state arch blocks functions labels none current)) (hedges : b.edges = [])
    {built : List Block} (h : (fs.flatMap (·.blocks)).mapM WrittenBlock.build = .ok built)
    (hnumbers : Numbers id (labels ++ (fs.flatMap (·.blocks)).map fun b => b.label.1))
    (hlength : labels.length = blocks.length)
    (hnodup : (labels ++ (fs.flatMap (·.blocks)).map fun b => b.label.1).Nodup) :
    ∃ b' current', b.takeRows arch.semantics (fs.flatMap WrittenFunction.rows) = .ok b' ∧ b'.edges = [] ∧
      b'.closeFunction = .ok (state arch (blocks ++ built) (functions ++ fs.map (WrittenFunction.build id))
        (labels ++ (fs.flatMap (·.blocks)).map fun b => b.label.1) none current') := by
  -- The line after a function closes it, so what is known of the builder is what closing its function gives.
  induction fs generalizing b current blocks functions labels built with
  | nil =>
    cases h
    exact ⟨b, current, rfl, hedges, by simpa using hclose⟩
  | cons f fs ih =>
    rw [List.flatMap_cons, List.mapM_append] at h
    obtain ⟨first, hfirst, h⟩ := bind_eq_ok.mp h
    obtain ⟨rest, hrest, h⟩ := bind_eq_ok.mp h
    cases h
    rw [List.flatMap_cons, List.map_append, ← List.append_assoc] at hnumbers hnodup
    obtain ⟨b₁, current₁, hrows, hedges₁, hclose₁⟩ := takeRows_function hclose f hfirst hnumbers.of_append hlength
      (List.nodup_append.mp hnodup).1
    have hlength₁ : (labels ++ f.blocks.map fun b => b.label.1).length = (blocks ++ first).length := by
      simp [hlength, (mapM_eq_ok_iff_forall₂.mp hfirst).length_eq]
    obtain ⟨b₂, current₂, hrows₂, hedges₂, hclose₂⟩ := ih hclose₁ hedges₁ hrest hnumbers hlength₁ hnodup
    refine ⟨b₂, current₂, ?_, hedges₂, ?_⟩
    · rw [List.flatMap_cons, takeRows_append, hrows]
      exact hrows₂
    · rw [hclose₂]
      simp

/-! ### Edges -/

theorem takeRows_edges (es : List WrittenEdge) (b : Builder) :
    b.takeRows models (es.map WrittenEdge.row) =
      .ok (b.withEdges (b.edges ++ es.map fun e => ⟨e.source.1, e.target.1, e.kind⟩)) := by
  induction es generalizing b with
  | nil => simp [takeRows, takeLines, withEdges, pure, Except.pure]
  | cons e es ih =>
    have hstep : b.step models 0 e.row = .ok (b.addEdge ⟨e.source.1, e.target.1, e.kind⟩) := by
      have hkind : EdgeKind.ofName? e.kind.name = some e.kind := by cases e.kind <;> decide +kernel
      rw [step_of_read (Line.read?_edge e), takeParts, hkind]
    rw [List.map_cons, takeRows_cons, hstep]
    refine (ih _).trans ?_
    simp [withEdges, addEdge]

/-- The edges are resolved when the last function is closed. -/
theorem finish_withEdges {b c : Builder} (h : b.closeFunction = .ok c) (es : List LabelledEdge) :
    (b.withEdges es).finish = .ok { c.program with edges := resolveEdges c.labels es } := by
  rcases closeFunction_eq_ok h with ⟨hnone, rfl⟩ | ⟨f, g, hf, hg, rfl⟩
  · simp [finish, closeFunction, withEdges, hnone, bind, Except.bind, pure, Except.pure]
  · simp [finish, closeFunction, withEdges, hf, hg, bind, Except.bind, pure, Except.pure]

end Listing.Builder

/-! ### Texts -/

namespace WrittenListing

open Listing

variable (l : WrittenListing arch)

theorem exists_blocks : ∃ built, l.blocks.mapM WrittenBlock.build = .ok built := by
  cases hblocks : l.blocks.mapM WrittenBlock.build with
  | ok built => exact ⟨built, rfl⟩
  | error error =>
    obtain ⟨b, -, hb⟩ := exists_of_mapM_eq_error hblocks
    rcases bind_eq_error.mp hb with hinstructions | ⟨lifted, -, hlifted⟩
    · obtain ⟨i, -, hi⟩ := exists_of_mapM_eq_error hinstructions
      obtain ⟨lifted, hlift⟩ := i.exists_lift
      rw [hlift] at hi
      cases hi
    · cases hlifted

theorem nodup_blockLabels : l.blockLabels.Nodup := l.distinct

theorem numbers_blockLabels : Builder.Numbers l.id l.blockLabels := by
  intro i label hlabel
  obtain ⟨hi, rfl⟩ := List.getElem?_eq_some_iff.mp hlabel
  rw [id, labels, idxOf_eraseDups_append (List.getElem_mem hi), eraseDups_of_nodup l.nodup_blockLabels,
    l.nodup_blockLabels.idxOf_getElem]

theorem resolveEdges_blockLabels :
    Builder.resolveEdges l.blockLabels (l.edges.map fun e => ⟨e.source.1, e.target.1, e.kind⟩) =
      l.edges.map fun e => ⟨l.id e.source.1, l.id e.target.1, e.kind⟩ := by
  have hresolve := resolveEdges_eq l.blockLabels (l.edges.map fun e => ⟨e.source.1, e.target.1, e.kind⟩)
  rw [eraseDups_of_nodup l.nodup_blockLabels, List.map_map, List.flatMap_map] at hresolve
  exact hresolve

/-- The text of a listing is read as the program that the listing writes. -/
theorem read_text : ∃ p, l.program = .ok p ∧ Listing.read arch l.text = .ok p := by
  obtain ⟨built, hbuilt⟩ := l.exists_blocks
  refine ⟨_, bind_eq_ok.mpr ⟨built, hbuilt, rfl⟩, ?_⟩
  have hstart : (Builder.new arch).closeFunction = .ok (Builder.state arch [] [] [] none none) := rfl
  obtain ⟨b, current, hfunctions, hedges, hclose⟩ := Builder.takeRows_functions l.functions hstart rfl hbuilt
    l.numbers_blockLabels rfl l.nodup_blockLabels
  have harch : (Builder.new arch).step arch.semantics 0 arch.row = .ok (Builder.new arch) := by
    refine Builder.step_of_namesArch ?_
    cases arch <;> decide +kernel
  have hrows : (Builder.new arch).takeRows arch.semantics l.rows =
      .ok (b.withEdges (l.edges.map fun e => ⟨e.source.1, e.target.1, e.kind⟩)) := by
    rw [rows, Builder.takeRows_append, Builder.takeRows_cons, harch]
    refine bind_eq_ok.mpr ⟨b, hfunctions, ?_⟩
    rw [Builder.takeRows_edges, hedges, List.nil_append]
  have hfinish := Builder.finish_withEdges hclose (l.edges.map fun e => ⟨e.source.1, e.target.1, e.kind⟩)
  refine readWith_eq_ok_iff.mpr (bind_eq_ok.mpr ⟨_, ?_, hfinish.trans ?_⟩)
  · rw [meaningful, l.meaningful_lines]
    exact hrows
  · exact congrArg (fun edges => Except.ok (Program.mk arch built.toArray edges _)) l.resolveEdges_blockLabels

end WrittenListing

end CallFacts
