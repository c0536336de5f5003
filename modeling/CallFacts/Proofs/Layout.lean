import CallFacts.Proofs.Numbering

/-!
# The layout of a listing

Lines that mean nothing may stand anywhere, and so may those that name the architecture; lines of edges may
stand anywhere in their order. No line looks at the edges so far, and only an open function keeps the number
of a line, for the error that it may become; so a builder with more edges and other numbers goes on as it
would without.
-/

namespace CallFacts.Listing

variable {arch : Arch} {models : List Model} {b b' : Builder}

/-! ### One line -/

namespace Builder

/-- What the name of an architecture does: nothing, if it is the right one. -/
def checkArch (b : Builder) (line : Nat) (name : String) : Except Error Builder :=
  match Arch.ofName? name with
  | none => .error (.refused line (.unknownArch name))
  | some found =>
    if found = b.program.arch then .ok b else .error (.refused line (.archMismatch b.program.arch found))

def addEdge (b : Builder) (e : LabelledEdge) : Builder := { b with edges := b.edges ++ [e] }

/-- What the parts of a line do. -/
def takeParts (models : List Model) (b : Builder) (line : Nat) : Line → Except Error Builder
  | .arch name => b.checkArch line name
  | .function name assignments => do
    let values ← (assignments.mapM (assignment b.program.arch)).mapError (.refused line)
    b.openFunction line name values
  | .block label isEntry => (b.openBlock label isEntry).mapError (.refused line)
  | .edge source target kind =>
    match EdgeKind.ofName? kind with
    | none => .error (.refused line (.unknownEdgeKind kind))
    | some kind => .ok (b.addEdge ⟨source, target, kind⟩)
  | .instruction address size mnemonic operands => b.instruction models line address size mnemonic operands

theorem step_of_read {text : List Char} {parts : Line} (h : Line.read? text = some parts) (line : Nat) :
    b.step models line text = b.takeParts models line parts := by
  rw [step, h]
  cases parts <;> rfl

theorem step_of_unread {text : List Char} (h : Line.read? text = none) (line : Nat) :
    b.step models line text = .error (.refused line (.unrecognized (String.ofList (Text.trim text)))) := by
  rw [step, h]

end Builder

/-! ### More edges and other numbers -/

/-- The error at another line. -/
def Error.renumber (f : Nat → Nat) : Error → Error
  | refused line problem => refused (f line) problem
  | unliftable line error => unliftable (f line) error

def OpenFunction.renumber (f : Nat → Nat) (o : OpenFunction) : OpenFunction := { o with line := f o.line }

/-- The builder with another number for the line of its open function and with edges ahead of its own. -/
def Builder.shift (f : Nat → Nat) (es : List LabelledEdge) (b : Builder) : Builder :=
  { b with function := b.function.map (·.renumber f), edges := es ++ b.edges }

/-- The result of a builder that is shifted. -/
def shifted (f : Nat → Nat) (es : List LabelledEdge) : Except Error Builder → Except Error Builder
  | .ok b => .ok (b.shift f es)
  | .error error => .error (error.renumber f)

namespace Builder

variable (f : Nat → Nat) (es : List LabelledEdge)

theorem close_renumber (o : OpenFunction) : (o.renumber f).close = o.close.mapError (·.renumber f) := by
  obtain ⟨line, name, entry, blocks, values⟩ := o
  cases blocks <;> rfl

theorem closeFunction_shift (b : Builder) : (b.shift f es).closeFunction = shifted f es b.closeFunction := by
  obtain ⟨program, labels, function, block, edges⟩ := b
  cases function with
  | none => rfl
  | some o =>
    simp only [closeFunction, shift, Option.map_some, close_renumber]
    cases o.close <;> rfl

theorem openFunction_shift (b : Builder) (line : Nat) (name : String) (values : List (Register × Word)) :
    (b.shift f es).openFunction (f line) name values = shifted f es (b.openFunction line name values) := by
  simp only [openFunction, closeFunction_shift]
  cases b.closeFunction <;> rfl

theorem openBlock_shift (b : Builder) (line : Nat) (label : String) (isEntry : Bool) :
    ((b.shift f es).openBlock label isEntry).mapError (.refused (f line)) =
      shifted f es ((b.openBlock label isEntry).mapError (.refused line)) := by
  obtain ⟨program, labels, function, block, edges⟩ := b
  cases function with
  | none => rfl
  | some o =>
    -- The same tests decide on both sides.
    show Except.mapError _ (if label ∈ labels then _ else if isEntry = true ∧ o.entry.isSome = true then _ else _) =
      shifted f es
        (Except.mapError _ (if label ∈ labels then _ else if isEntry = true ∧ o.entry.isSome = true then _ else _))
    by_cases hlabel : label ∈ labels
    · rw [if_pos hlabel, if_pos hlabel]
      rfl
    rw [if_neg hlabel, if_neg hlabel]
    by_cases hentry : isEntry = true ∧ o.entry.isSome = true
    · rw [if_pos hentry, if_pos hentry]
      rfl
    · rw [if_neg hentry, if_neg hentry]
      rfl

theorem instruction_shift (b : Builder) (line : Nat) (address : List Char) (size : Option (List Char))
    (mnemonic operands : List Char) :
    (b.shift f es).instruction models (f line) address size mnemonic operands =
      shifted f es (b.instruction models line address size mnemonic operands) := by
  obtain ⟨program, labels, function, block, edges⟩ := b
  cases block with
  | none => rfl
  | some id =>
    simp only [instruction, shift]
    cases decode program.arch address size mnemonic operands with
    | error problem => rfl
    | ok decoded =>
      show (Semantics.lift models decoded).mapError (.unliftable (f line)) >>= _ =
        shifted f es ((Semantics.lift models decoded).mapError (.unliftable line) >>= _)
      cases Semantics.lift models decoded <;> rfl

theorem takeParts_shift (b : Builder) (line : Nat) (parts : Line) :
    (b.shift f es).takeParts models (f line) parts = shifted f es (b.takeParts models line parts) := by
  cases parts with
  | arch name =>
    simp only [takeParts, checkArch]
    cases Arch.ofName? name with
    | none => rfl
    | some found =>
      by_cases hfound : found = b.program.arch
      · simp only [if_pos hfound]
        exact if_pos hfound
      · simp only [if_neg hfound]
        exact if_neg hfound
  | function name assignments =>
    simp only [takeParts, shift]
    cases assignments.mapM (assignment b.program.arch) with
    | error problem => rfl
    | ok values => exact openFunction_shift f es b line name values
  | block label isEntry => exact openBlock_shift f es b line label isEntry
  | edge source target kind =>
    simp only [takeParts]
    cases EdgeKind.ofName? kind with
    | none => rfl
    | some kind => simp [addEdge, shift, shifted]
  | instruction address size mnemonic operands => exact instruction_shift f es b line address size mnemonic operands

/-- A line does to a shifted builder what it does without the shift. -/
theorem step_shift (models : List Model) (b : Builder) (line : Nat) (text : List Char) :
    (b.shift f es).step models (f line) text = shifted f es (b.step models line text) := by
  cases hread : Line.read? text with
  | none =>
    rw [step_of_unread hread, step_of_unread hread]
    rfl
  | some parts => rw [step_of_read hread, step_of_read hread, takeParts_shift]

/-- The builder after numbered lines. -/
def takeLines (models : List Model) (b : Builder) (lines : List (Nat × List Char)) : Except Error Builder :=
  lines.foldlM (fun b (line, content) => b.step models line content) b

theorem takeLines_cons (b : Builder) (first : Nat × List Char) (lines : List (Nat × List Char)) :
    b.takeLines models (first :: lines) = b.step models first.1 first.2 >>= (·.takeLines models lines) := by
  rw [takeLines, List.foldlM_cons]
  rfl

theorem takeLines_shift (models : List Model) (b : Builder) (lines : List (Nat × List Char)) :
    (b.shift f es).takeLines models (lines.map (Prod.map f id)) = shifted f es (b.takeLines models lines) := by
  induction lines generalizing b with
  | nil => rfl
  | cons first lines ih =>
    have hfirst := step_shift f es models b first.1 first.2
    rw [List.map_cons, takeLines_cons, takeLines_cons, Prod.map_fst, Prod.map_snd, id, hfirst]
    cases b.step models first.1 first.2 with
    | error error => rfl
    | ok b₁ => exact ih b₁

theorem finish_shift (b : Builder) : (b.shift f []).finish = b.finish.mapError (·.renumber f) := by
  simp only [finish, closeFunction_shift]
  cases b.closeFunction <;> rfl

end Builder

/-- The program of numbered lines. -/
def readLines (arch : Arch) (models : List Model) (lines : List (Nat × List Char)) : Except Error Program :=
  (Builder.new arch).takeLines models lines >>= Builder.finish

theorem readWith_eq_readLines (text : List Char) :
    readWith arch models text = readLines arch models (numberedLines text) := rfl

/-- Other numbers of the lines are other numbers in the error, if there is one. -/
theorem readLines_renumber (f : Nat → Nat) (lines : List (Nat × List Char)) :
    readLines arch models (lines.map (Prod.map f id)) = (readLines arch models lines).mapError (·.renumber f) := by
  have hlines := Builder.takeLines_shift f [] models (.new arch) lines
  rw [show (Builder.new arch).shift f [] = .new arch from rfl] at hlines
  simp only [readLines, hlines]
  cases (Builder.new arch).takeLines models lines with
  | error error => rfl
  | ok b => exact Builder.finish_shift f b

/-- If there is no error, only the contents of the lines matter. -/
theorem readLines_eq_ok_iff {lines lines' : List (Nat × List Char)} {p : Program}
    (h : lines.map Prod.snd = lines'.map Prod.snd) :
    readLines arch models lines = .ok p ↔ readLines arch models lines' = .ok p := by
  have hzero (lines : List (Nat × List Char)) :
      lines.map (Prod.map (fun _ => 0) id) = (lines.map Prod.snd).map fun content => (0, content) := by
    rw [List.map_map]
    rfl
  rw [← mapError_eq_ok (f := Error.renumber fun _ => 0), ← readLines_renumber, hzero, h, ← hzero, readLines_renumber,
    mapError_eq_ok]

/-! ### Lines that may stand anywhere -/

/-- The lines that are not idle. -/
def meaningful (rows : List (List Char)) : List (List Char) := rows.filter fun row => !isIdle row

/-- Whether a line names the architecture. -/
def namesArch (arch : Arch) (row : List Char) : Bool :=
  match Line.read? row with
  | some (.arch name) => Arch.ofName? name = some arch
  | _ => false

/-- The edge that a line writes, if it is of a known kind. -/
def edge? (row : List Char) : Option LabelledEdge :=
  match Line.read? row with
  | some (.edge source target kind) => (EdgeKind.ofName? kind).map fun kind => ⟨source, target, kind⟩
  | _ => none

/-- The lines of edges, in their order. -/
def edgeRows (rows : List (List Char)) : List (List Char) := rows.filter fun row => (edge? row).isSome

/-- The lines but for those of edges and those that name the architecture. -/
def mainRows (arch : Arch) (rows : List (List Char)) : List (List Char) :=
  rows.filter fun row => !namesArch arch row && (edge? row).isNone

namespace Builder

def withEdges (es : List LabelledEdge) (b : Builder) : Builder := { b with edges := es }

theorem shift_id (es : List LabelledEdge) (b : Builder) : b.shift id es = b.withEdges (es ++ b.edges) := by
  have hfunction : b.function.map (OpenFunction.renumber id) = b.function := Option.map_id'
  rw [shift, hfunction]
  rfl

theorem shifted_id (es : List LabelledEdge) (result : Except Error Builder) :
    shifted id es result = result.map fun b => b.withEdges (es ++ b.edges) := by
  cases result with
  | error error => cases error <;> rfl
  | ok b => exact congrArg Except.ok (shift_id es b)

/-- No line looks at the edges so far. -/
theorem step_withEdges (b : Builder) (line : Nat) (row : List Char) :
    b.step models line row =
      ((b.withEdges []).step models line row).map fun b' => b'.withEdges (b.edges ++ b'.edges) := by
  have hshift := step_shift id b.edges models (b.withEdges []) line row
  rw [shift_id, shifted_id] at hshift
  simpa [withEdges] using hshift

/-- No line changes the architecture, and only a line of an edge changes the edges. -/
theorem step_keeps {line : Nat} {row : List Char} (h : b.step models line row = .ok b') :
    b'.program.arch = b.program.arch ∧ (edge? row = none → b'.edges = b.edges) := by
  cases hread : Line.read? row with
  | none =>
    rw [step_of_unread hread] at h
    cases h
  | some parts =>
    rw [step_of_read hread] at h
    cases parts with
    | arch name =>
      simp only [takeParts, checkArch] at h
      split at h
      · cases h
      · split at h
        · cases h
          exact ⟨rfl, fun _ => rfl⟩
        · cases h
    | function name assignments =>
      obtain ⟨values, -, hopen⟩ := bind_eq_ok.mp h
      obtain ⟨b₁, hclose, hb'⟩ := bind_eq_ok.mp hopen
      cases hb'
      rcases closeFunction_eq_ok hclose with ⟨-, rfl⟩ | ⟨f, g, -, -, rfl⟩ <;> exact ⟨rfl, fun _ => rfl⟩
    | block label isEntry =>
      obtain ⟨f, -, -, -, rfl⟩ := openBlock_eq_ok (mapError_eq_ok.mp h)
      exact ⟨rfl, fun _ => rfl⟩
    | edge source target kind =>
      simp only [takeParts] at h
      split at h
      · cases h
      · next found hkind =>
        cases h
        simp [edge?, hread, hkind, addEdge]
    | instruction address size mnemonic operands =>
      obtain ⟨i, lifted, -, -, rfl⟩ := @instruction_eq_ok models b b' line ⟨address, size, mnemonic, operands⟩ h
      exact ⟨rfl, fun _ => rfl⟩

theorem step_of_namesArch {line : Nat} {row : List Char} (h : namesArch b.program.arch row = true) :
    b.step models line row = .ok b := by
  simp only [namesArch] at h
  split at h
  · next name hread =>
    have hname := of_decide_eq_true h
    rw [step_of_read hread, takeParts, checkArch, hname]
    exact if_pos rfl
  · cases h

theorem step_of_edge {line : Nat} {row : List Char} {e : LabelledEdge} (h : edge? row = some e) :
    b.step models line row = .ok (b.addEdge e) := by
  simp only [edge?] at h
  split at h
  · next source target kind hread =>
    obtain ⟨found, hkind, rfl⟩ := Option.map_eq_some_iff.mp h
    rw [step_of_read hread, takeParts, hkind]
  · cases h

/-- The builder after lines whose numbers do not matter. -/
def takeRows (models : List Model) (b : Builder) (rows : List (List Char)) : Except Error Builder :=
  b.takeLines models (rows.map fun row => (0, row))

theorem takeRows_cons (b : Builder) (row : List Char) (rows : List (List Char)) :
    b.takeRows models (row :: rows) = b.step models 0 row >>= (·.takeRows models rows) := by
  rw [takeRows, List.map_cons, takeLines_cons]
  rfl

/-- Edges may be added after all other lines, and the name of the architecture may be left out. -/
theorem takeRows_eq (models : List Model) (rows : List (List Char)) (b : Builder) :
    b.takeRows models rows = ((b.withEdges []).takeRows models (mainRows b.program.arch rows)).map
      (·.withEdges (b.edges ++ rows.filterMap edge?)) := by
  induction rows generalizing b with
  | nil =>
    rw [List.filterMap_nil, List.append_nil]
    rfl
  | cons row rows ih =>
    rw [takeRows_cons]
    cases hedge : edge? row with
    | some e =>
      rw [step_of_edge hedge, mainRows, List.filter_cons_of_neg (by simp [hedge]), List.filterMap_cons_some hedge]
      refine (ih (b.addEdge e)).trans ?_
      rw [show (b.addEdge e).edges = b.edges ++ [e] from rfl, List.append_assoc]
      rfl
    | none =>
      rw [List.filterMap_cons_none hedge]
      by_cases harch : namesArch b.program.arch row = true
      · rw [step_of_namesArch harch, mainRows, List.filter_cons_of_neg (by simp [harch])]
        exact ih b
      · rw [mainRows, List.filter_cons_of_pos (by simp [harch, hedge]), takeRows_cons]
        rw [step_withEdges]
        cases hstep : (b.withEdges []).step models 0 row with
        | error error => rfl
        | ok b₁ =>
          obtain ⟨hkeeps, hedges⟩ := step_keeps hstep
          have hnone : b₁.edges = [] := hedges hedge
          have harch₁ : (b₁.withEdges b.edges).program.arch = b.program.arch := hkeeps
          have hsame : (b₁.withEdges b.edges).withEdges [] = b₁ := by
            rw [← hnone]
            rfl
          have hrest := ih (b₁.withEdges b.edges)
          rw [hsame, harch₁] at hrest
          show (b₁.withEdges (b.edges ++ b₁.edges)).takeRows models rows = _
          rw [hnone, List.append_nil]
          exact hrest

end Builder

/-! ### Lines with their numbers -/

/-- The lines that are not idle, with their numbers from `start` on. -/
def numberedFrom (start : Nat) (rows : List (List Char)) : List (Nat × List Char) :=
  (rows.zipIdx start).filterMap fun (row, number) => if isIdle row then none else some (number, row)

theorem numberedLines_eq (text : List Char) : numberedLines text = numberedFrom 1 (Text.lines text) := rfl

section

variable {start : Nat} {row : List Char} {rows : List (List Char)}

theorem numberedFrom_cons_of_idle (h : isIdle row = true) :
    numberedFrom start (row :: rows) = numberedFrom (start + 1) rows := by
  simp [numberedFrom, List.zipIdx_cons, h]

theorem numberedFrom_cons (h : isIdle row = false) :
    numberedFrom start (row :: rows) = (start, row) :: numberedFrom (start + 1) rows := by
  simp [numberedFrom, List.zipIdx_cons, h]

/-- Idle lines only move what follows. -/
theorem numberedFrom_append_of_idle {idle : List (List Char)} (h : ∀ row ∈ idle, isIdle row = true) (start : Nat)
    (rows : List (List Char)) : numberedFrom start (idle ++ rows) = numberedFrom (start + idle.length) rows := by
  induction idle generalizing start with
  | nil => rfl
  | cons row idle ih =>
    rw [List.cons_append, numberedFrom_cons_of_idle (h row List.mem_cons_self),
      ih fun row hrow => h row (List.mem_cons_of_mem _ hrow), List.length_cons]
    congr 1
    omega

theorem map_snd_numberedFrom (start : Nat) (rows : List (List Char)) :
    (numberedFrom start rows).map Prod.snd = meaningful rows := by
  induction rows generalizing start with
  | nil => rfl
  | cons row rows ih =>
    cases hidle : isIdle row with
    | true =>
      rw [numberedFrom_cons_of_idle hidle, meaningful, List.filter_cons_of_neg (by simp [hidle])]
      exact ih (start + 1)
    | false =>
      rw [numberedFrom_cons hidle, meaningful, List.filter_cons_of_pos (by simp [hidle])]
      exact congrArg (List.cons row) (ih (start + 1))

end

/-- The lines of a text with idle lines inserted. -/
structure Spread where
  /-- Each line with what is inserted before it. -/
  gaps : List (List (List Char) × List Char)
  /-- What is inserted after the last line. -/
  last : List (List Char)
  idle : (∀ gap ∈ gaps, ∀ row ∈ gap.1, isIdle row = true) ∧ ∀ row ∈ last, isIdle row = true

namespace Spread

/-- The lines before the insertion. -/
def old (s : Spread) : List (List Char) := s.gaps.map Prod.snd

/-- The lines after the insertion. -/
def new (s : Spread) : List (List Char) := s.gaps.flatMap (fun gap => gap.1 ++ [gap.2]) ++ s.last

/-- How many lines are inserted before a line. -/
def before (s : Spread) (line : Nat) : Nat := ((s.gaps.take line).map fun gap => gap.1.length).sum

/-- The lines keep their order, and each moves by the number of lines inserted before it. -/
theorem numberedFrom_new (s : Spread) {start start' : Nat} {f : Nat → Nat}
    (hf : ∀ i, f (start + i) = start' + i + s.before (i + 1)) :
    numberedFrom start' s.new = (numberedFrom start s.old).map (Prod.map f id) := by
  obtain ⟨gaps, last, hgaps, hlast⟩ := s
  induction gaps generalizing start start' with
  | nil =>
    have hnone := numberedFrom_append_of_idle hlast start' []
    rw [List.append_nil] at hnone
    exact hnone
  | cons gap gaps ih =>
    have hrest := @ih (start + 1) (start' + gap.1.length + 1)
      (fun gap hgap => hgaps gap (List.mem_cons_of_mem _ hgap)) fun i => by
        have hi := hf (i + 1)
        simp only [before, List.take_succ_cons, List.map_cons, List.sum_cons] at hi ⊢
        rw [Nat.add_assoc, Nat.add_comm 1 i, hi]
        omega
    have hfirst : f start = start' + gap.1.length := by
      simpa [before] using hf 0
    have hnew : new ⟨gap :: gaps, last, hgaps, hlast⟩ =
        gap.1 ++ gap.2 :: new ⟨gaps, last, fun gap hgap => hgaps gap (List.mem_cons_of_mem _ hgap), hlast⟩ := by
      simp [new]
    rw [hnew, numberedFrom_append_of_idle (hgaps gap List.mem_cons_self), old, List.map_cons]
    cases hidle : isIdle gap.2 with
    | true =>
      rw [numberedFrom_cons_of_idle hidle, numberedFrom_cons_of_idle hidle]
      exact hrest
    | false =>
      rw [numberedFrom_cons hidle, numberedFrom_cons hidle, List.map_cons, Prod.map_apply, hfirst]
      exact congrArg (List.cons _) hrest

end Spread

/-! ### Texts -/

/-- Only the lines that mean something are read. -/
theorem readWith_eq_ok_iff {text : List Char} {p : Program} :
    readWith arch models text = .ok p ↔
      (Builder.new arch).takeRows models (meaningful (Text.lines text)) >>= Builder.finish = .ok p := by
  have hrows : (numberedLines text).map Prod.snd =
      ((meaningful (Text.lines text)).map fun row => (0, row)).map Prod.snd := by
    rw [numberedLines_eq, map_snd_numberedFrom, List.map_map]
    exact (List.map_id' _).symm
  rw [readWith_eq_readLines, readLines_eq_ok_iff hrows, readLines, Builder.takeRows]

/-- A text is read as its other lines are, with the edges after them. -/
theorem readWith_eq_ok_iff_mainRows {text : List Char} {p : Program} :
    readWith arch models text = .ok p ↔
      ((Builder.new arch).takeRows models (mainRows arch (meaningful (Text.lines text)))).map
        (·.withEdges ((edgeRows (meaningful (Text.lines text))).filterMap edge?)) >>= Builder.finish = .ok p := by
  have hedges : (edgeRows (meaningful (Text.lines text))).filterMap edge? =
      (meaningful (Text.lines text)).filterMap edge? := by
    rw [edgeRows, List.filterMap_filter]
    apply List.filterMap_congr
    intro row _
    cases edge? row <;> rfl
  rw [readWith_eq_ok_iff, hedges, Builder.takeRows_eq]
  rfl

/-- Neither the lines that mean nothing, nor those that name the architecture, nor the places of the edges among
the other lines matter to a text that is read. In any text, lines that mean nothing keep what is wrong and move
it by the number of such lines inserted before. -/
theorem readWith_layout (arch : Arch) (models : List Model) (text text' : List Char) :
    (mainRows arch (meaningful (Text.lines text')) = mainRows arch (meaningful (Text.lines text)) →
        edgeRows (meaningful (Text.lines text')) = edgeRows (meaningful (Text.lines text)) →
        ∀ p, readWith arch models text = .ok p → readWith arch models text' = .ok p) ∧
      ∀ s : Spread, s.old = Text.lines text → s.new = Text.lines text' →
        readWith arch models text' =
          (readWith arch models text).mapError (·.renumber fun line => line + s.before line) := by
  refine ⟨?_, ?_⟩
  · intro hmain hedges p hp
    rw [readWith_eq_ok_iff_mainRows] at hp ⊢
    rw [hmain, hedges]
    exact hp
  · intro s hold hnew
    have hlines : numberedLines text' =
        (numberedLines text).map (Prod.map (fun line => line + s.before line) id) := by
      rw [numberedLines_eq, numberedLines_eq, ← hold, ← hnew]
      refine s.numberedFrom_new fun i => ?_
      rw [Nat.add_comm i 1]
    rw [readWith_eq_readLines, hlines, readLines_renumber, readWith_eq_readLines]

/-- The lines of `scattered` with an edge inside a block and one behind the last block, the architecture named in
other places, a comment and blank lines. -/
def rearranged : List Char :=
  ["# blocks and edges", "function f r0=7", "block first", "edge first gone call", "arch armv7", " \t",
    "  10 mov r0, #1", "block second entry", "function g", "block third", "", "edge second third branch"].flatMap
    fun row => row.toList ++ ['\n']

/-- Lines of which the first opens a function that has no block. -/
def hollow : Spread where
  gaps := [(["# hollow".toList, []], "function f".toList), ([" # kept".toList], "function g".toList)]
  last := [[]]
  idle := by decide +kernel

theorem rearranged_and_hollow :
    (∃ p, readWith .arm32 Arch.arm32.semantics scattered.toList = .ok p ∧
      readWith .arm32 Arch.arm32.semantics rearranged = .ok p) ∧
    readWith .arm32 Arch.arm32.semantics "function f\nfunction g\n".toList = .error (.refused 1 (.emptyFunction "f")) ∧
    readWith .arm32 Arch.arm32.semantics "# hollow\n\nfunction f\n # kept\nfunction g\n\n".toList =
      .error (.refused 3 (.emptyFunction "f")) := by
  obtain ⟨p, hread⟩ := exists_read_scattered
  have hrefused : readWith .arm32 Arch.arm32.semantics "function f\nfunction g\n".toList =
      .error (.refused 1 (.emptyFunction "f")) := by
    rfl
  obtain ⟨hlayout, -⟩ := readWith_layout .arm32 Arch.arm32.semantics scattered.toList rearranged
  obtain ⟨-, hspread⟩ := readWith_layout .arm32 Arch.arm32.semantics "function f\nfunction g\n".toList
    "# hollow\n\nfunction f\n # kept\nfunction g\n\n".toList
  refine ⟨⟨p, hread, hlayout (by decide +kernel) (by decide +kernel) p hread⟩, hrefused, ?_⟩
  rw [hspread hollow (by decide +kernel) (by decide +kernel), hrefused]
  rfl

end CallFacts.Listing
