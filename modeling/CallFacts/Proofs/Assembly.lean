import CallFacts.Proofs.Outline

/-!
# From the lines to the program

Reading keeps an invariant: what the lines so far outline is what the builder holds, in its closed
functions, its open function, its blocks and its edges. Each kind of line keeps it, and so does closing the
last function. At the end the labels of the edges are resolved.
-/

namespace CallFacts

/-! ### Results -/

theorem bind_eq_ok {ε α β : Type} {x : Except ε α} {f : α → Except ε β} {b : β} :
    (x >>= f) = .ok b ↔ ∃ a, x = .ok a ∧ f a = .ok b := by
  cases x <;> simp [bind, Except.bind]

theorem mapError_eq_ok {ε ε' α : Type} {x : Except ε α} {f : ε → ε'} {a : α} : x.mapError f = .ok a ↔ x = .ok a := by
  cases x <;> simp [Except.mapError]

/-! ### Members -/

theorem Function.addBlocks_eq {f : Function} {bs : List BlockId} (h : bs.Nodup) :
    f.addBlocks bs = { f with blocks := f.blocks ++ bs.filter (· ∉ f.blocks) } := by
  induction bs generalizing f with
  | nil => simp [addBlocks]
  | cons b bs ih =>
    obtain ⟨hb, hbs⟩ := List.nodup_cons.mp h
    show (f.addBlock b).addBlocks bs = _
    rw [ih hbs, addBlock]
    by_cases hmem : b ∈ f.blocks
    · simp [hmem]
    · have hrest : bs.filter (· ∉ f.blocks ++ [b]) = bs.filter (· ∉ f.blocks) := by
        apply List.filter_congr
        intro c hc
        have hne : c ≠ b := fun heq => hb (heq ▸ hc)
        simp [hne]
      rw [if_neg hmem, hrest, List.filter_cons_of_pos (by simpa using hmem)]
      simp

namespace Listing

variable {arch : Arch} {models : List Model} {id : String → BlockId} {ls : List Line} {b b' : Builder}

/-- The open function has what its section says so far. -/
structure Opens (arch : Arch) (id : String → BlockId) (s : Header × List BlockLine) (f : OpenFunction) : Prop where
  name : f.name = s.1.name
  entryValues : s.1.assignments.mapM (Builder.assignment arch) = .ok f.entryValues
  entry : f.entry.toList = (s.2.filter BlockLine.isEntry).map fun line => id line.label
  blocks : f.blocks = s.2.map fun line => id line.label

/-- A function that is closed is the one that its section declares. -/
theorem Opens.declares {s : Header × List BlockLine} {f : OpenFunction} {g : Function} (h : Opens arch id s f)
    (hnodup : (s.2.map fun line => id line.label).Nodup) (hclose : f.close = .ok g) : Declares arch id s g := by
  rw [← h.blocks] at hnodup
  simp only [OpenFunction.close] at hclose
  split at hclose
  · cases hclose
  · next first rest hblocks =>
    rw [Function.addBlocks_eq hnodup, Except.ok.injEq] at hclose
    subst hclose
    refine ⟨h.name, h.entryValues, ?_, ?_, ?_, ?_⟩
    · intro line hline hflag
      have hmem : id line.label ∈ f.entry.toList := by
        rw [h.entry]
        exact List.mem_map_of_mem (List.mem_filter.mpr ⟨hline, hflag⟩)
      rw [Option.mem_toList.mp hmem]
      rfl
    · intro hflags
      have hentry : f.entry.toList = [] := by
        rw [h.entry, List.filter_eq_nil_iff.mpr (by simpa using hflags)]
        rfl
      have hfirst := congrArg List.head? h.blocks
      rw [hblocks, List.head?_map] at hfirst
      rw [Option.toList_eq_nil_iff.mp hentry]
      exact hfirst.symm
    · intro hnil
      simp [h.blocks, hnil] at hblocks
    · have hfilter : f.blocks.filter (· ∉ [f.entry.getD first]) = f.blocks.filter (· ≠ f.entry.getD first) := by
        apply List.filter_congr
        simp
      rw [← h.blocks]
      exact congrArg ([f.entry.getD first] ++ ·) hfilter

/-- One more block line adds its block, which is the entry if it is flagged. -/
theorem Opens.addBlock {s : Header × List BlockLine} {f : OpenFunction} {line : BlockLine} (h : Opens arch id s f)
    (hflag : ¬ (line.isEntry = true ∧ f.entry.isSome = true)) :
    Opens arch id (s.1, s.2 ++ [line])
      { f with
        entry := if line.isEntry = true then some (id line.label) else f.entry
        blocks := f.blocks ++ [id line.label] } := by
  refine ⟨h.name, h.entryValues, ?_, ?_⟩
  · have hentry := h.entry
    by_cases hline : line.isEntry = true
    · have hnone : f.entry = none := by simpa [hline] using hflag
      rw [hnone, Option.toList_none] at hentry
      simp [hline, List.filter_append, ← hentry]
    · simp [hline, List.filter_append, hentry]
  · simp [h.blocks]

/-! ### What a builder accepts -/

namespace Builder

theorem closeFunction_eq_ok (h : b.closeFunction = .ok b') :
    (b.function = none ∧ b' = b) ∨
      ∃ f g, b.function = some f ∧ f.close = .ok g ∧
        b' = { b with program := b.program.addFunction g, function := none } := by
  simp only [closeFunction] at h
  split at h
  · next hnone =>
    cases h
    exact .inl ⟨hnone, rfl⟩
  · next f hf =>
    obtain ⟨g, hg, hb'⟩ := bind_eq_ok.mp h
    cases hb'
    exact .inr ⟨f, g, hf, hg, rfl⟩

theorem openBlock_eq_ok {label : String} {isEntry : Bool} (h : b.openBlock label isEntry = .ok b') :
    ∃ f, b.function = some f ∧ label ∉ b.labels ∧ ¬ (isEntry = true ∧ f.entry.isSome = true) ∧
      b' = { b with
        program := b.program.addBlock ⟨0, []⟩
        labels := b.labels ++ [label]
        function := some { f with
          entry := if isEntry then some b.program.nextBlock else f.entry
          blocks := f.blocks ++ [b.program.nextBlock] }
        block := some b.program.nextBlock } := by
  simp only [openBlock] at h
  split at h
  · cases h
  next f hf =>
  split at h
  · cases h
  next hnew =>
  split at h
  · cases h
  next hflag =>
  cases h
  exact ⟨f, hf, hnew, hflag, rfl⟩

theorem instruction_eq_ok {line : Nat} {code : CodeLine}
    (h : b.instruction models line code.address code.size code.mnemonic code.operands = .ok b') :
    ∃ i lifted, b.block = some i ∧ code.Lifts b.program.arch models lifted ∧ b' = b.appendInstruction i lifted := by
  simp only [instruction] at h
  split at h
  · cases h
  next i hi =>
  obtain ⟨decoded, hdecoded, h⟩ := bind_eq_ok.mp h
  obtain ⟨lifted, hlifted, hb'⟩ := bind_eq_ok.mp h
  cases hb'
  exact ⟨i, lifted, hi, ⟨decoded, mapError_eq_ok.mp hdecoded, mapError_eq_ok.mp hlifted⟩, rfl⟩

end Builder

/-! ### Blocks and edges -/

theorem forall₂_modify_last {α β : Type} {R : α → β → Prop} {xs : List α} {x x' : α} {ys : List β} {f : β → β}
    (h : List.Forall₂ R (xs ++ [x]) ys) (hlast : ∀ y, R x y → R x' (f y)) :
    List.Forall₂ R (xs ++ [x']) (ys.modify xs.length f) := by
  induction xs generalizing ys with
  | nil =>
    cases h with
    | cons hx hnil =>
      cases hnil
      exact .cons (hlast _ hx) .nil
  | cons y xs ih =>
    cases h with
    | cons hy hrest => exact .cons hy (ih hrest)

/-- One more instruction fills the block with one more line. -/
theorem Fills.append {body : List CodeLine} {head : BlockLine} {code : CodeLine} {block : Block} {i : Instruction}
    (h : Fills arch models (head, body) block) (hcode : code.Lifts arch models i) :
    Fills arch models (head, body ++ [code]) (Builder.appendTo block i) := by
  have hinstructions : (Builder.appendTo block i).instructions = block.instructions ++ [i] := by
    simp only [Builder.appendTo, Block.push]
    split <;> rfl
  refine ⟨?_, hinstructions ▸ List.rel_append h.instructions (.cons hcode .nil)⟩
  rw [hinstructions, Builder.appendTo, Block.push]
  have haddress := h.address
  cases hblock : block.instructions with
  | nil => simp
  | cons first rest =>
    rw [hblock] at haddress
    simpa using haddress

/-- The edge is what the line writes, before its labels are resolved. -/
structure Writes (line : EdgeLine) (e : LabelledEdge) : Prop where
  source : e.source = line.source
  target : e.target = line.target
  kind : EdgeKind.ofName? line.kind = some e.kind

/-! ### The invariant -/

/-- What the lines so far outline is what the builder holds. -/
structure Builds (arch : Arch) (models : List Model) (id : String → BlockId) (ls : List Line) (b : Builder) :
    Prop where
  labels : b.labels = blockLabels ls
  numbers : (blockLabels ls).map id = (List.range (blockLabels ls).length).map BlockId.mk
  inside : leading Line.header? Line.blockLine? ls = []
  blocks : List.Forall₂ (Fills arch models) (bodies ls) b.program.blocks.toList
  /-- Instructions go to the last block. -/
  current : ∀ i, b.block = some i → i.index + 1 = b.program.blocks.size
  functions : ∃ closed opened, sections ls = closed ++ opened ∧
    List.Forall₂ (Declares arch id) closed b.program.functions ∧ List.Forall₂ (Opens arch id) opened b.function.toList
  edges : List.Forall₂ Writes (edgeLines ls) b.edges
  arch : b.program.arch = arch

namespace Builds

theorem begin : Builds arch models id [] (.new arch) :=
  ⟨rfl, rfl, rfl, .nil, nofun, ⟨[], [], rfl, .nil, .nil⟩, .nil, rfl⟩

theorem size (h : Builds arch models id ls b) : b.program.blocks.size = (blockLabels ls).length := by
  rw [← length_bodies, ← Array.length_toList, h.blocks.length_eq]

theorem covered (h : Builds arch models id ls b) : (sections ls).flatMap Prod.snd = blockLines ls := by
  have hdisjoint : ∀ line : Line, line.header?.isSome → line.blockLine? = none := by
    intro line
    cases line <;> simp [Line.header?, Line.blockLine?]
  have hlines := leading_append_groups hdisjoint ls
  rwa [h.inside] at hlines

/-- The last section is that of the open function. -/
theorem exists_opens {f : OpenFunction} (h : Builds arch models id ls b) (hf : b.function = some f) :
    ∃ closed s, sections ls = closed ++ [s] ∧ List.Forall₂ (Declares arch id) closed b.program.functions ∧
      Opens arch id s f := by
  obtain ⟨closed, opened, hsections, hclosed, hopened⟩ := h.functions
  rw [hf, Option.toList_some] at hopened
  cases hopened with
  | @cons s _ opened _ hopens hnil =>
    cases hnil
    exact ⟨closed, s, hsections, hclosed, hopens⟩

/-- Without an open function all sections have their functions. -/
theorem declared (h : Builds arch models id ls b) (hnone : b.function = none) :
    List.Forall₂ (Declares arch id) (sections ls) b.program.functions := by
  obtain ⟨closed, opened, hsections, hclosed, hopened⟩ := h.functions
  rw [hnone] at hopened
  cases hopened
  rwa [hsections, List.append_nil]

/-- A line that starts nothing leaves all but the instructions and the edges as they are. -/
theorem keep (h : Builds arch models id ls b) {line : Line} {blocks : Array Block} {edges : List LabelledEdge}
    (hheader : line.header? = none) (hblock : line.blockLine? = none) (hsize : blocks.size = b.program.blocks.size)
    (hblocks : List.Forall₂ (Fills arch models) (bodies (ls ++ [line])) blocks.toList)
    (hedges : List.Forall₂ Writes (edgeLines (ls ++ [line])) edges) :
    Builds arch models id (ls ++ [line]) { b with program := { b.program with blocks := blocks }, edges := edges } := by
  have hlabels : blockLabels (ls ++ [line]) = blockLabels ls := blockLabels_concat_idle hblock
  refine ⟨?_, ?_, ?_, hblocks, ?_, ?_, hedges, h.arch⟩
  · rw [hlabels, ← h.labels]
  · rw [hlabels, h.numbers]
  · rw [leading_concat hheader, h.inside, hblock]
    simp
  · intro i hi
    rw [hsize]
    exact h.current i hi
  · rw [sections, groups_concat_idle hheader hblock]
    exact h.functions

/-- A line that starts nothing and adds nothing changes nothing. -/
theorem idle (h : Builds arch models id ls b) {line : Line} (hheader : line.header? = none)
    (hblock : line.blockLine? = none) (hcode : line.codeLine? = none) (hedge : line.edgeLine? = none) :
    Builds arch models id (ls ++ [line]) b := by
  refine h.keep hheader hblock rfl ?_ ?_
  · rw [bodies, groups_concat_idle hblock hcode]
    exact h.blocks
  · rw [edgeLines_concat_idle hedge]
    exact h.edges

/-- Closing the open function leaves the lines as they are. -/
theorem closeFunction (h : Builds arch models id ls b) (hclose : b.closeFunction = .ok b') :
    Builds arch models id ls b' ∧ b'.function = none := by
  rcases Builder.closeFunction_eq_ok hclose with ⟨hnone, rfl⟩ | ⟨f, g, hf, hg, rfl⟩
  · exact ⟨h, hnone⟩
  · obtain ⟨closed, s, hsections, hclosed, hopens⟩ := h.exists_opens hf
    have hs : s ∈ sections ls := by simp [hsections]
    have hnodup := nodup_of_mem_sections (nodup_of_numbers h.numbers) h.covered hs
    have hfunctions : List.Forall₂ (Declares arch id) (sections ls) (b.program.functions ++ [g]) := by
      rw [hsections]
      exact List.rel_append hclosed (.cons (hopens.declares hnodup hg) .nil)
    refine ⟨⟨h.labels, h.numbers, h.inside, h.blocks, h.current, ?_, h.edges, h.arch⟩, rfl⟩
    exact ⟨sections ls, [], (List.append_nil _).symm, hfunctions, .nil⟩

/-- The line of a function opens a section without blocks. -/
theorem openFunction {line : Nat} {name : String} {assignments : List (List Char)} {values : List (Register × Word)}
    (h : Builds arch models id ls b) (hvalues : assignments.mapM (Builder.assignment arch) = .ok values)
    (hopen : b.openFunction line name values = .ok b') :
    Builds arch models id (ls ++ [.function name assignments]) b' := by
  obtain ⟨b₁, hclose, hb'⟩ := bind_eq_ok.mp hopen
  cases hb'
  obtain ⟨h₁, hnone⟩ := h.closeFunction hclose
  have hheader : Line.header? (.function name assignments) = some ⟨name, assignments⟩ := rfl
  have hlabels : blockLabels (ls ++ [.function name assignments]) = blockLabels ls := blockLabels_concat_idle rfl
  refine ⟨?_, ?_, ?_, ?_, nofun, ?_, ?_, h₁.arch⟩
  · rw [hlabels, ← h₁.labels]
  · rw [hlabels, h₁.numbers]
  · rw [leading_concat_head hheader, h₁.inside]
  · rw [bodies, groups_concat_idle rfl rfl]
    exact h₁.blocks
  · refine ⟨sections ls, [(⟨name, assignments⟩, [])], ?_, h₁.declared hnone, .cons ⟨rfl, hvalues, rfl, rfl⟩ .nil⟩
    rw [sections, groups_concat_head hheader, sections]
  · rw [edgeLines_concat_idle rfl]
    exact h₁.edges

/-- The new block gets the next number, and it belongs to the last section. -/
theorem openBlock {label : String} {isEntry : Bool} (h : Builds arch models id ls b)
    (hid : (blockLabels ls).Nodup → label ∉ blockLabels ls → id label = ⟨(blockLabels ls).length⟩)
    (hopen : b.openBlock label isEntry = .ok b') : Builds arch models id (ls ++ [.block label isEntry]) b' := by
  obtain ⟨f, hf, hnew, hflag, rfl⟩ := Builder.openBlock_eq_ok hopen
  obtain ⟨closed, s, hsections, hclosed, hopens⟩ := h.exists_opens hf
  have hline : Line.blockLine? (.block label isEntry) = some ⟨label, isEntry⟩ := rfl
  have hlabels : blockLabels (ls ++ [.block label isEntry]) = blockLabels ls ++ [label] := by
    simp [blockLabels, blockLines, hline]
  have hlabel := hid ((nodup_of_numbers h.numbers).of_map _) (h.labels ▸ hnew)
  have hnext : b.program.nextBlock = id label := by rw [hlabel, Program.nextBlock, h.size]
  refine ⟨?_, ?_, ?_, ?_, ?_, ?_, ?_, h.arch⟩
  · rw [hlabels, ← h.labels]
  · rw [hlabels, List.length_append, List.length_singleton, List.range_succ]
    simp [h.numbers, hlabel]
  · have hgroups : groups Line.header? Line.blockLine? ls ≠ [] := by
      intro hgroups
      rw [sections, hgroups] at hsections
      simp at hsections
    rw [leading_concat rfl, h.inside, if_neg hgroups]
    rfl
  · rw [bodies, groups_concat_head hline, Program.addBlock, Array.toList_push]
    exact List.rel_append h.blocks (.cons ⟨rfl, .nil⟩ .nil)
  · intro i hi
    cases hi
    simp [Program.nextBlock, Program.addBlock]
  · refine ⟨closed, [(s.1, s.2 ++ [⟨label, isEntry⟩])], ?_, hclosed, .cons ?_ .nil⟩
    · rw [sections, groups_concat rfl hsections, hline, Option.toList_some]
    · simp only [hnext]
      exact hopens.addBlock hflag
  · rw [edgeLines_concat_idle rfl]
    exact h.edges

theorem addEdge {kind : EdgeKind} (h : Builds arch models id ls b) (line : EdgeLine)
    (hkind : EdgeKind.ofName? line.kind = some kind) :
    Builds arch models id (ls ++ [.edge line.source line.target line.kind])
      { b with edges := b.edges ++ [⟨line.source, line.target, kind⟩] } := by
  refine h.keep rfl rfl rfl ?_ ?_
  · rw [bodies, groups_concat_idle rfl rfl]
    exact h.blocks
  · have hedges : edgeLines (ls ++ [.edge line.source line.target line.kind]) = edgeLines ls ++ [line] := by
      simp [edgeLines, Line.edgeLine?]
    rw [hedges]
    exact List.rel_append h.edges (.cons ⟨rfl, rfl, hkind⟩ .nil)

/-- An instruction goes to the last block. -/
theorem instruction {line : Nat} (h : Builds arch models id ls b) (code : CodeLine)
    (hcode : b.instruction models line code.address code.size code.mnemonic code.operands = .ok b') :
    Builds arch models id (ls ++ [.instruction code.address code.size code.mnemonic code.operands]) b' := by
  obtain ⟨i, lifted, hi, hlifts, rfl⟩ := Builder.instruction_eq_ok hcode
  rw [h.arch] at hlifts
  have hblocks := h.blocks
  have hlast := h.current i hi
  rw [← Array.length_toList, ← hblocks.length_eq] at hlast
  rcases List.eq_nil_or_concat (bodies ls) with hnil | ⟨gs, ⟨head, body⟩, hbodies⟩
  · simp [hnil] at hlast
  rw [List.concat_eq_append] at hbodies
  rw [hbodies, List.length_append, List.length_singleton, Nat.add_right_cancel_iff] at hlast
  rw [hbodies] at hblocks
  refine h.keep rfl rfl (by simp) ?_ ?_
  · rw [bodies, groups_concat rfl hbodies, Array.toList_modify, hlast]
    exact forall₂_modify_last hblocks fun block hfills => hfills.append hlifts
  · rw [edgeLines_concat_idle rfl]
    exact h.edges

/-- Every kind of line keeps the invariant. -/
theorem step {number : Nat} {text : List Char} (h : Builds arch models id ls b)
    (hid : ∀ label isEntry, Line.read? text = some (.block label isEntry) → (blockLabels ls).Nodup →
      label ∉ blockLabels ls → id label = ⟨(blockLabels ls).length⟩)
    (hstep : b.step models number text = .ok b') :
    ∃ line, Line.read? text = some line ∧ Builds arch models id (ls ++ [line]) b' := by
  simp only [Builder.step] at hstep
  split at hstep
  · cases hstep
  · next name hread =>
    refine ⟨_, hread, ?_⟩
    split at hstep
    · cases hstep
    · split at hstep
      · cases hstep
        exact h.idle rfl rfl rfl rfl
      · cases hstep
  · next name assignments hread =>
    obtain ⟨values, hvalues, hopen⟩ := bind_eq_ok.mp hstep
    rw [mapError_eq_ok, h.arch] at hvalues
    exact ⟨_, hread, h.openFunction hvalues hopen⟩
  · next label isEntry hread => exact ⟨_, hread, h.openBlock (hid label isEntry hread) (mapError_eq_ok.mp hstep)⟩
  · next source target kind hread =>
    refine ⟨_, hread, ?_⟩
    split at hstep
    · cases hstep
    · next found hkind =>
      cases hstep
      exact h.addEdge ⟨source, target, kind⟩ hkind
  · next address size mnemonic operands hread =>
    exact ⟨_, hread, h.instruction ⟨address, size, mnemonic, operands⟩ hstep⟩

/-- Reading the lines that remain keeps the invariant, and each of them has one of the forms. -/
theorem foldlM {lines : List (Nat × List Char)} {done : List Line} (h : Builds arch models (idOf ls) done b)
    (hls : ls = done ++ lines.filterMap fun line => Line.read? line.2)
    (hrun : lines.foldlM (fun b (line, content) => b.step models line content) b = .ok b') :
    Builds arch models (idOf ls) ls b' ∧ ∀ line ∈ lines, (Line.read? line.2).isSome := by
  -- The labels of all lines are fixed before the induction, so no number changes while lines are read.
  induction lines generalizing done b with
  | nil =>
    cases hrun
    rw [List.filterMap_nil, List.append_nil] at hls
    subst hls
    exact ⟨h, by simp⟩
  | cons first lines ih =>
    rw [List.foldlM_cons] at hrun
    obtain ⟨b₁, hstep, hrest⟩ := bind_eq_ok.mp hrun
    have hrest' {line : Line} (hread : Line.read? first.2 = some line) :
        ls = done ++ line :: lines.filterMap fun line => Line.read? line.2 := by
      rw [hls]
      exact congrArg (done ++ ·) (List.filterMap_cons_some hread)
    obtain ⟨line, hread, h₁⟩ := h.step
      (fun label isEntry hread hdistinct hnew => idOf_of_new (hrest' hread) hdistinct hnew) hstep
    have hls := hrest' hread
    rw [List.append_cons] at hls
    obtain ⟨hbuilds, hreads⟩ := ih h₁ hls hrest
    refine ⟨hbuilds, ?_⟩
    intro l hl
    rcases List.mem_cons.mp hl with rfl | hl
    · rw [hread]
      rfl
    · exact hreads l hl

end Builds

/-! ### Labels of edges -/

theorem idxOf?_of_mem {xs : List String} {x : String} (h : x ∈ xs) : xs.idxOf? x = some (xs.idxOf x) := by
  induction xs with
  | nil => cases h
  | cons y ys ih =>
    by_cases hy : y = x
    · simp [hy, List.idxOf?_cons]
    · simp [hy, List.idxOf?_cons, List.idxOf_cons_ne _ hy, ih ((List.mem_cons.mp h).resolve_left (Ne.symm hy))]

/-- A label is put at the end if it is new, and its number is its position among all labels. -/
theorem resolve_eq (known : List String) (label : String) (rest : List String) :
    Builder.resolve known.eraseDups label =
      ((known ++ [label]).eraseDups, ⟨(known ++ label :: rest).eraseDups.idxOf label⟩) := by
  have hposition : (known ++ label :: rest).eraseDups.idxOf label = (known ++ [label]).eraseDups.idxOf label := by
    rw [List.append_cons, idxOf_eraseDups_append (by simp)]
  rw [hposition, eraseDups_concat, Builder.resolve]
  by_cases hmem : label ∈ known
  · rw [idxOf?_of_mem (List.mem_eraseDups.mpr hmem), if_pos hmem]
  · have hnew : label ∉ known.eraseDups := fun h => hmem (List.mem_eraseDups.mp h)
    rw [List.idxOf?_eq_none_iff.mpr hnew, if_neg hmem, List.idxOf_append_of_notMem hnew]
    simp

theorem resolveEdges_eq (known : List String) (es : List LabelledEdge) :
    Builder.resolveEdges known.eraseDups es = es.map fun e =>
      let all := (known ++ es.flatMap fun e => [e.source, e.target]).eraseDups
      ⟨⟨all.idxOf e.source⟩, ⟨all.idxOf e.target⟩, e.kind⟩ := by
  -- `known` grows by both labels of an edge, whether they are new or not: repetitions are erased.
  induction es generalizing known with
  | nil => rfl
  | cons e es ih =>
    have hsource := resolve_eq known e.source (e.target :: es.flatMap fun e => [e.source, e.target])
    have htarget := resolve_eq (known ++ [e.source]) e.target (es.flatMap fun e => [e.source, e.target])
    simp only [Builder.resolveEdges, hsource, htarget, ih]
    simp

theorem endpoints_of_writes {es : List LabelledEdge} (h : List.Forall₂ Writes (edgeLines ls) es) :
    endpoints ls = es.flatMap fun e => [e.source, e.target] := by
  rw [endpoints]
  generalize edgeLines ls = lines at h
  induction h with
  | nil => rfl
  | cons hwrites _ ih => rw [List.flatMap_cons, List.flatMap_cons, ih, hwrites.source, hwrites.target]

/-- What a builder holds when its last function is closed is outlined when the edges are resolved. -/
theorem Builds.outlines (h : Builds arch models (idOf ls) ls b) (hnone : b.function = none) :
    Outlines arch models ls { b.program with edges := Builder.resolveEdges b.labels b.edges } := by
  have hlabels : b.labels = (blockLabels ls).eraseDups := by
    rw [h.labels, eraseDups_of_nodup ((nodup_of_numbers h.numbers).of_map _)]
  refine ⟨h.blocks, h.declared hnone, ?_, ?_, h.covered, h.arch⟩
  · rw [hlabels, resolveEdges_eq, List.forall₂_map_right_iff, ← endpoints_of_writes h.edges]
    refine h.edges.imp fun line e hwrites => ?_
    refine ⟨?_, ?_, hwrites.kind⟩
    · rw [← hwrites.source]
      rfl
    · rw [← hwrites.target]
      rfl
  · rw [h.size]
    exact h.numbers

/-- A text that is read has lines of the known forms, and they outline the program. -/
theorem outlines_of_readWith {text : List Char} {p : Program} (h : readWith arch models text = .ok p) :
    Outlines arch models (contents text) p ∧ ∀ line ∈ numberedLines text, (Line.read? line.2).isSome := by
  obtain ⟨b, hrun, hfinish⟩ := bind_eq_ok.mp h
  obtain ⟨hb, hreads⟩ := Builds.begin.foldlM rfl hrun
  obtain ⟨b', hclose, hp⟩ := bind_eq_ok.mp hfinish
  cases hp
  obtain ⟨hb', hnone⟩ := hb.closeFunction hclose
  exact ⟨hb'.outlines hnone, hreads⟩

end Listing

end CallFacts
