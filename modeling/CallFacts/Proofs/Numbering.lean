import CallFacts.Proofs.Assembly

/-!
# Numbers of blocks

In a program that is read from a listing the blocks have the numbers from zero on in the order of their
lines, each is a member of exactly one function, and the ends of edges have the same number if and only
if they are written with the same label, which is the number of a block if and only if a line defines it.
-/

namespace CallFacts.Listing

variable {arch : Arch} {models : List Model} {id : String → BlockId} {ls : List Line} {p : Program}

namespace Declares

variable {s : Header × List BlockLine} {f : Function}

/-- The entry is one of the blocks of the section. -/
theorem entry_mem (h : Declares arch id s f) : ∃ line ∈ s.2, id line.label = f.entry := by
  by_cases hflag : ∃ line ∈ s.2, line.isEntry = true
  · obtain ⟨line, hline, hflag⟩ := hflag
    exact ⟨line, hline, (h.flagged line hline hflag).symm⟩
  · have hfirst := h.unflagged (by simpa using hflag)
    rw [Option.map_eq_some_iff] at hfirst
    obtain ⟨line, hline, hentry⟩ := hfirst
    exact ⟨line, List.mem_of_head? hline, hentry⟩

/-- The members are the blocks of the section. -/
theorem perm (h : Declares arch id s f) (hnodup : (s.2.map fun line => id line.label).Nodup) :
    f.blocks.Perm (s.2.map fun line => id line.label) := by
  obtain ⟨line, hline, hentry⟩ := h.entry_mem
  have hmem : f.entry ∈ s.2.map fun line => id line.label := List.mem_map.mpr ⟨line, hline, hentry⟩
  have hrest : (s.2.map fun line => id line.label).filter (· ≠ f.entry) =
      (s.2.map fun line => id line.label).erase f.entry := by
    rw [hnodup.erase_eq_filter]
    apply List.filter_congr
    intro i _
    rw [bne, decide_not, beq_eq_decide]
  rw [h.blocks, hrest]
  exact (List.perm_cons_erase hmem).symm

theorem mem_blocks_iff (h : Declares arch id s f) {i : BlockId} : i ∈ f.blocks ↔ ∃ line ∈ s.2, id line.label = i := by
  rw [h.blocks, List.mem_cons, List.mem_filter, List.mem_map]
  constructor
  · rintro (rfl | ⟨hi, -⟩)
    · exact h.entry_mem
    · exact hi
  · intro hi
    by_cases hentry : i = f.entry
    · exact .inl hentry
    · exact .inr ⟨hi, by simpa using hentry⟩

end Declares

/-- Labels that the lines name share a number only if they are equal. -/
theorem idOf_eq_iff {l l' : String} (h : l ∈ blockLabels ls ++ endpoints ls) : idOf ls l = idOf ls l' ↔ l = l' := by
  rw [idOf, idOf, BlockId.mk.injEq, labels, List.idxOf_inj (List.mem_eraseDups.mpr h)]

namespace Outlines

theorem distinct (h : Outlines arch models ls p) : (blockLabels ls).Nodup := (nodup_of_numbers h.numbers).of_map _

theorem size_eq (h : Outlines arch models ls p) : p.blocks.size = (blockLines ls).length := by
  have hlength := congrArg List.length h.numbers
  simpa [blockLabels] using hlength.symm

theorem idOf_getElem (h : Outlines arch models ls p) {i : Nat} {line : BlockLine}
    (hi : (blockLines ls)[i]? = some line) : idOf ls line.label = ⟨i⟩ := by
  have hnumber := congrArg (·[i]?) h.numbers
  obtain ⟨hlt, hline⟩ := List.getElem?_eq_some_iff.mp hi
  rw [← h.size_eq] at hlt
  simpa [blockLabels, hi, hlt] using hnumber

/-- All functions together have every block exactly once. -/
theorem perm (h : Outlines arch models ls p) :
    (p.functions.flatMap Function.blocks).Perm ((List.range p.blocks.size).map BlockId.mk) := by
  have hnodup : ∀ s ∈ sections ls, (s.2.map fun line => idOf ls line.label).Nodup := fun s hs =>
    nodup_of_mem_sections (nodup_of_numbers h.numbers) h.covered hs
  have hperm : List.Forall₂ List.Perm (p.functions.map Function.blocks)
      ((sections ls).map fun s => s.2.map fun line => idOf ls line.label) := by
    rw [List.forall₂_map_left_iff, List.forall₂_map_right_iff]
    exact ((List.forall₂_and_left _ _).mpr ⟨hnodup, h.functions⟩).flip.imp fun f s hs => hs.2.perm hs.1
  have hall : ((sections ls).map fun s => s.2.map fun line => idOf ls line.label).flatten =
      (List.range p.blocks.size).map BlockId.mk := by
    rw [← h.numbers, blockLabels, ← h.covered]
    simp [List.flatMap_def, List.map_flatten, Function.comp_def]
  rw [List.flatMap_def, ← hall]
  exact List.Perm.flatten_congr hperm

/-- The number of a label is that of a block if and only if a line defines the label. -/
theorem idOf_lt_iff (h : Outlines arch models ls p) (label : String) :
    (idOf ls label).index < p.blocks.size ↔ ∃ line ∈ blockLines ls, line.label = label := by
  rw [h.size_eq]
  constructor
  · intro hlt
    have hline := List.getElem?_eq_getElem hlt
    have hmem : (blockLines ls)[(idOf ls label).index] ∈ blockLines ls := List.getElem_mem hlt
    exact ⟨_, hmem, (idOf_eq_iff (List.mem_append_left _ (List.mem_map_of_mem hmem))).mp (h.idOf_getElem hline)⟩
  · rintro ⟨line, hline, rfl⟩
    obtain ⟨i, hi⟩ := List.mem_iff_getElem?.mp hline
    rw [h.idOf_getElem hi]
    exact (List.getElem?_eq_some_iff.mp hi).1

end Outlines

/-- In a program that is read from a text, whatever the order of its lines, blocks are numbered in the order
of their lines, and functions and edges stand in the order of theirs. Each block is a member of exactly
one function, once. Each function has its entry first, and that is the flagged block or else the first
one. Ends of edges have one number if and only if they have one label, and it is that of a block if and
only if some line defines the label. -/
theorem readWith_numbers {text : List Char} (h : readWith arch models text = .ok p) :
    let ls := contents text
    (∀ line ∈ numberedLines text, (Line.read? line.2).isSome) ∧
      p.blocks.size = (blockLines ls).length ∧
      List.Forall₂ (Fills arch models) (bodies ls) p.blocks.toList ∧
      (∀ i line, (blockLines ls)[i]? = some line → idOf ls line.label = ⟨i⟩) ∧
      List.Forall₂ (Declares arch (idOf ls)) (sections ls) p.functions ∧
      (p.functions.flatMap Function.blocks).Perm ((List.range p.blocks.size).map BlockId.mk) ∧
      List.Forall₂ (Joins (idOf ls)) (edgeLines ls) p.edges ∧
      (∀ l ∈ endpoints ls, ∀ l' ∈ endpoints ls, idOf ls l = idOf ls l' ↔ l = l') ∧
      ∀ l ∈ endpoints ls, (idOf ls l).index < p.blocks.size ↔ ∃ line ∈ blockLines ls, line.label = l := by
  intro ls
  obtain ⟨houtlines, hreads⟩ := outlines_of_readWith h
  refine ⟨hreads, houtlines.size_eq, houtlines.blocks, ?_, houtlines.functions, houtlines.perm, houtlines.edges, ?_, ?_⟩
  · intro i line hi
    exact houtlines.idOf_getElem hi
  · intro l hl l' _
    exact idOf_eq_iff (List.mem_append_right _ hl)
  · intro l _
    exact houtlines.idOf_lt_iff l

/-- Edges before and between the blocks that they join, a label without a block, and a flag on the second
block of its function. -/
def scattered : String :=
  "arch arm32\nedge first gone call\nfunction f r0=7\nblock first\n  10 mov r0, #1\nedge second third branch\n" ++
    "block second entry\nfunction g\nblock third\n"

def scatteredLines : List Line :=
  [.arch "arm32", .edge "first" "gone" "call", .function "f" ["r0=7".toList], .block "first" false,
    .instruction "10".toList none "mov".toList "r0, #1".toList, .edge "second" "third" "branch", .block "second" true,
    .function "g" [], .block "third" false]

theorem contents_scattered : contents scattered.toList = scatteredLines := by
  decide +kernel

theorem exists_read_scattered : ∃ p, readWith .arm32 Arch.arm32.semantics scattered.toList = .ok p := by
  have hok : (readWith .arm32 Arch.arm32.semantics scattered.toList).isOk = true := by decide +kernel
  cases hread : readWith .arm32 Arch.arm32.semantics scattered.toList with
  | ok p => exact ⟨p, rfl⟩
  | error error =>
    rw [hread] at hok
    cases hok

/-- The three blocks have the numbers up to two, and the other label has none of them. -/
theorem scattered_numbers :
    ∃ p, readWith .arm32 Arch.arm32.semantics scattered.toList = .ok p ∧ p.blocks.size = 3 ∧
      (p.functions.flatMap Function.blocks).Perm [⟨0⟩, ⟨1⟩, ⟨2⟩] ∧ idOf scatteredLines "second" = ⟨1⟩ ∧
      ¬ (idOf scatteredLines "gone").index < p.blocks.size := by
  obtain ⟨p, hread⟩ := exists_read_scattered
  obtain ⟨-, hsize, -, hnumbers, -, hperm, -, -, hdefined⟩ := readWith_numbers hread
  rw [contents_scattered] at hsize hnumbers hdefined
  have hgone : "gone" ∈ endpoints scatteredLines := by decide
  refine ⟨p, hread, hsize, ?_, hnumbers 1 ⟨"second", true⟩ rfl, ?_⟩
  · rw [hsize] at hperm
    exact hperm
  · rw [hdefined _ hgone]
    decide

end CallFacts.Listing
