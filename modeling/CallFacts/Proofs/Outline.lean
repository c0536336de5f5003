import CallFacts.Listing
import Mathlib

/-!
# The outline of a listing

What the lines of a listing say about its program, without reading them one after the other: which lines
start blocks, which instructions follow each of them, which blocks follow the line of each function, and
which labels the edges join. Blocks are numbered by the positions of their labels. Labels that no block
line defines come after them, in the order in which edges name them first.
-/

namespace CallFacts.Listing

/-! ### The parts of lines -/

/-- What the line of a function says. -/
structure Header where
  name : String
  assignments : List (List Char)
deriving DecidableEq

/-- What the line of a block says. -/
structure BlockLine where
  label : String
  isEntry : Bool
deriving DecidableEq

/-- What the line of an instruction says. -/
structure CodeLine where
  address : List Char
  size : Option (List Char)
  mnemonic : List Char
  operands : List Char
deriving DecidableEq

/-- What the line of an edge says. -/
structure EdgeLine where
  source : String
  target : String
  kind : String
deriving DecidableEq

namespace Line

def header? : Line → Option Header
  | function name assignments => some ⟨name, assignments⟩
  | _ => none

def blockLine? : Line → Option BlockLine
  | block label isEntry => some ⟨label, isEntry⟩
  | _ => none

def codeLine? : Line → Option CodeLine
  | instruction address size mnemonic operands => some ⟨address, size, mnemonic, operands⟩
  | _ => none

def edgeLine? : Line → Option EdgeLine
  | edge source target kind => some ⟨source, target, kind⟩
  | _ => none

end Line

/-- The lines of a text that mean something and have one of the forms. -/
def contents (text : List Char) : List Line := (numberedLines text).filterMap fun line => Line.read? line.2

/-! ### Groups -/

section

variable {α β γ : Type} (head? : α → Option β) (item? : α → Option γ)

/-- The items before the first head. -/
def leading : List α → List γ
  | [] => []
  | x :: xs => if (head? x).isSome then [] else (item? x).toList ++ leading xs

/-- Each head with the items that stand between it and the next head. -/
def groups : List α → List (β × List γ)
  | [] => []
  | x :: xs =>
    match head? x with
    | some head => (head, leading head? item? xs) :: groups xs
    | none => groups xs

variable {head? item?} {xs : List α} {x : α} {head : β}

theorem map_fst_groups (head? : α → Option β) (item? : α → Option γ) (xs : List α) :
    (groups head? item? xs).map Prod.fst = xs.filterMap head? := by
  induction xs with
  | nil => rfl
  | cons x xs ih => cases hx : head? x <;> simp [groups, hx, ih]

/-- If no head is an item, every item stands before the first head or in a group. -/
theorem leading_append_groups (hdisjoint : ∀ x, (head? x).isSome → item? x = none) (xs : List α) :
    leading head? item? xs ++ (groups head? item? xs).flatMap Prod.snd = xs.filterMap item? := by
  induction xs with
  | nil => rfl
  | cons x xs ih =>
    cases hx : head? x with
    | none => cases hitem : item? x <;> simp [leading, groups, hx, hitem, ← ih]
    | some head => simp [leading, groups, hx, hdisjoint x (by simp [hx]), ih]

theorem leading_concat_head (hx : head? x = some head) :
    leading head? item? (xs ++ [x]) = leading head? item? xs := by
  induction xs with
  | nil => simp [leading, hx]
  | cons y ys ih => simp [leading, ih]

theorem leading_concat (hx : head? x = none) :
    leading head? item? (xs ++ [x]) =
      leading head? item? xs ++ if groups head? item? xs = [] then (item? x).toList else [] := by
  induction xs with
  | nil => simp [leading, groups, hx]
  | cons y ys ih => cases hy : head? y <;> simp [leading, groups, hy, ih]

/-- One more head starts a group of its own. -/
theorem groups_concat_head (hx : head? x = some head) :
    groups head? item? (xs ++ [x]) = groups head? item? xs ++ [(head, [])] := by
  induction xs with
  | nil => simp [groups, leading, hx]
  | cons y ys ih => cases hy : head? y <;> simp [groups, hy, ih, leading_concat_head hx]

theorem groups_concat_nil (hx : head? x = none) (h : groups head? item? xs = []) :
    groups head? item? (xs ++ [x]) = [] := by
  have hheads := map_fst_groups head? item? (xs ++ [x])
  rw [List.filterMap_append, ← map_fst_groups head? item? xs, h] at hheads
  simpa [hx] using hheads

/-- What is no head goes to the last group. -/
theorem groups_concat {gs : List (β × List γ)} {body : List γ} (hx : head? x = none)
    (h : groups head? item? xs = gs ++ [(head, body)]) :
    groups head? item? (xs ++ [x]) = gs ++ [(head, body ++ (item? x).toList)] := by
  induction xs generalizing gs with
  | nil => simp [groups] at h
  | cons y ys ih =>
    cases hy : head? y with
    | none =>
      simp only [groups, hy, List.cons_append] at h ⊢
      exact ih h
    | some first =>
      simp only [groups, hy, List.cons_append, leading_concat hx] at h ⊢
      cases gs with
      | nil =>
        simp only [List.nil_append, List.cons.injEq, Prod.mk.injEq] at h
        obtain ⟨⟨rfl, rfl⟩, hrest⟩ := h
        simp [groups_concat_nil hx hrest, hrest]
      | cons g gs =>
        simp only [List.cons_append, List.cons.injEq] at h
        obtain ⟨rfl, hrest⟩ := h
        simp [ih hrest, hrest]

theorem groups_concat_idle (hx : head? x = none) (hitem : item? x = none) :
    groups head? item? (xs ++ [x]) = groups head? item? xs := by
  rcases List.eq_nil_or_concat (groups head? item? xs) with h | ⟨gs, ⟨head, body⟩, h⟩
  · rw [groups_concat_nil hx h, h]
  · rw [List.concat_eq_append] at h
    simp [groups_concat hx h, h, hitem]

end

/-! ### Blocks, functions and edges -/

variable {arch : Arch} {models : List Model} {ls : List Line}

def blockLines (ls : List Line) : List BlockLine := ls.filterMap Line.blockLine?

def edgeLines (ls : List Line) : List EdgeLine := ls.filterMap Line.edgeLine?

/-- The line of each block with the lines of instructions up to the next block. -/
def bodies (ls : List Line) : List (BlockLine × List CodeLine) := groups Line.blockLine? Line.codeLine? ls

/-- The line of each function with the lines of blocks up to the next function. -/
def sections (ls : List Line) : List (Header × List BlockLine) := groups Line.header? Line.blockLine? ls

def blockLabels (ls : List Line) : List String := (blockLines ls).map BlockLine.label

/-- The labels that the edges join, from the first edge on. -/
def endpoints (ls : List Line) : List String := (edgeLines ls).flatMap fun line => [line.source, line.target]

/-- The labels of the blocks in the order of their lines, then the other labels as edges name them first. -/
def labels (ls : List Line) : List String := (blockLabels ls ++ endpoints ls).eraseDups

/-- The block that a label stands for. -/
def idOf (ls : List Line) (label : String) : BlockId := ⟨(labels ls).idxOf label⟩

/-- The instruction is what the models lift the line to. -/
def CodeLine.Lifts (arch : Arch) (models : List Model) (line : CodeLine) (i : Instruction) : Prop :=
  ∃ decoded, Builder.decode arch line.address line.size line.mnemonic line.operands = .ok decoded ∧
    Semantics.lift models decoded = .ok i

/-- The block holds the instructions that follow its line, and stands where the first of them stands. -/
structure Fills (arch : Arch) (models : List Model) (body : BlockLine × List CodeLine) (block : Block) : Prop where
  address : block.address = (block.instructions.head?.map Instruction.address).getD 0
  instructions : List.Forall₂ (CodeLine.Lifts arch models) body.2 block.instructions

/-- The function has the name and the values of its line. Its entry is the flagged block or else the first
one, and its members are the entry and then all other blocks in the order of their lines. -/
structure Declares (arch : Arch) (id : String → BlockId) (s : Header × List BlockLine) (f : Function) : Prop where
  name : f.name = s.1.name
  entryValues : s.1.assignments.mapM (Builder.assignment arch) = .ok f.entryValues
  flagged : ∀ line ∈ s.2, line.isEntry = true → f.entry = id line.label
  unflagged : (∀ line ∈ s.2, line.isEntry = false) → s.2.head?.map (fun line => id line.label) = some f.entry
  nonempty : s.2 ≠ []
  blocks : f.blocks = f.entry :: (s.2.map fun line => id line.label).filter (· ≠ f.entry)

/-- The edge joins the blocks that the labels of its line stand for. -/
structure Joins (id : String → BlockId) (line : EdgeLine) (e : Edge) : Prop where
  source : e.source = id line.source
  target : e.target = id line.target
  kind : EdgeKind.ofName? line.kind = some e.kind

/-- The program has the blocks, functions and edges of the lines, each in the order of the lines. -/
structure Outlines (arch : Arch) (models : List Model) (ls : List Line) (p : Program) : Prop where
  blocks : List.Forall₂ (Fills arch models) (bodies ls) p.blocks.toList
  functions : List.Forall₂ (Declares arch (idOf ls)) (sections ls) p.functions
  edges : List.Forall₂ (Joins (idOf ls)) (edgeLines ls) p.edges
  numbers : (blockLabels ls).map (idOf ls) = (List.range p.blocks.size).map BlockId.mk
  /-- Every block has a function. -/
  covered : (sections ls).flatMap Prod.snd = blockLines ls
  arch : p.arch = arch

/-! ### One more line -/

theorem blockLabels_append (ls ls' : List Line) : blockLabels (ls ++ ls') = blockLabels ls ++ blockLabels ls' := by
  simp [blockLabels, blockLines]

theorem blockLabels_concat_idle {line : Line} (h : line.blockLine? = none) :
    blockLabels (ls ++ [line]) = blockLabels ls := by
  simp [blockLabels, blockLines, h]

theorem edgeLines_concat_idle {line : Line} (h : line.edgeLine? = none) : edgeLines (ls ++ [line]) = edgeLines ls := by
  simp [edgeLines, h]

theorem blockLabels_cons_block (label : String) (isEntry : Bool) (ls : List Line) :
    blockLabels (.block label isEntry :: ls) = label :: blockLabels ls := rfl

theorem length_bodies (ls : List Line) : (bodies ls).length = (blockLabels ls).length := by
  have hheads := congrArg List.length (map_fst_groups Line.blockLine? Line.codeLine? ls)
  simpa [bodies, blockLabels, blockLines] using hheads

/-! ### Sections -/

theorem nodup_of_numbers {id : String → BlockId} {xs : List String} {n : Nat}
    (h : xs.map id = (List.range n).map BlockId.mk) : (xs.map id).Nodup := by
  rw [h]
  exact List.nodup_range.map fun i j hij => congrArg BlockId.index hij

/-- The blocks of a section have numbers of their own. -/
theorem nodup_of_mem_sections {id : String → BlockId} (hnodup : ((blockLabels ls).map id).Nodup)
    (hcovered : (sections ls).flatMap Prod.snd = blockLines ls) {s : Header × List BlockLine} (hs : s ∈ sections ls) :
    (s.2.map fun line => id line.label).Nodup := by
  have hsection : s.2.Sublist (blockLines ls) := by
    rw [← hcovered, List.flatMap_def]
    exact List.sublist_flatten_of_mem (List.mem_map_of_mem hs)
  rw [blockLabels, List.map_map] at hnodup
  exact hnodup.sublist (hsection.map _)

/-! ### Labels and blocks -/

theorem eraseDups_concat (xs : List String) (x : String) :
    (xs ++ [x]).eraseDups = if x ∈ xs then xs.eraseDups else xs.eraseDups ++ [x] := by
  rw [List.eraseDups_append]
  by_cases hx : x ∈ xs <;> simp [List.removeAll, List.eraseDups_cons, hx]

theorem eraseDups_of_nodup {xs : List String} (h : xs.Nodup) : xs.eraseDups = xs := by
  induction xs using List.reverseRecOn with
  | nil => rfl
  | append_singleton xs x ih =>
    obtain ⟨hxs, -, hdisjoint⟩ := List.nodup_append.mp h
    have hx : x ∉ xs := fun hmem => hdisjoint x hmem x (by simp) rfl
    rw [eraseDups_concat, if_neg hx, ih hxs]

/-- What comes later does not move a label. -/
theorem idxOf_eraseDups_append {xs : List String} {x : String} (hx : x ∈ xs) (ys : List String) :
    (xs ++ ys).eraseDups.idxOf x = xs.eraseDups.idxOf x := by
  rw [List.eraseDups_append, List.idxOf_append_of_mem (List.mem_eraseDups.mpr hx)]

/-- A label that is new to the blocks before it stands for a block with the number of these blocks. -/
theorem idOf_of_new {before after : List Line} {label : String} {isEntry : Bool}
    (hls : ls = before ++ .block label isEntry :: after) (hdistinct : (blockLabels before).Nodup)
    (hnew : label ∉ blockLabels before) : idOf ls label = ⟨(blockLabels before).length⟩ := by
  have hlabels : blockLabels ls ++ endpoints ls =
      (blockLabels before ++ [label]) ++ (blockLabels after ++ endpoints ls) := by
    have happend := blockLabels_append before (.block label isEntry :: after)
    rw [← hls, blockLabels_cons_block] at happend
    simp [happend]
  rw [idOf, labels, hlabels, idxOf_eraseDups_append (by simp), eraseDups_concat, if_neg hnew,
    eraseDups_of_nodup hdistinct, List.idxOf_append_of_notMem hnew]
  simp

end CallFacts.Listing
