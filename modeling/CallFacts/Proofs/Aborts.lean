import CallFacts.Pipeline
import CallFacts.Proofs.Bytes
import CallFacts.Proofs.Layout
import CallFacts.Proofs.Overflow

/-!
# What ends a run without a report

A text that is no program is refused, and so is a register to follow that does not exist. Besides these only
two things stop a run. One is a mnemonic of 32-bit ARM that no operation has as it stands and that cannot
be cut two bytes before its end; every other instruction whose operands are read is lifted. The other is a
limit on visits that does not fit a word, in a build that stops at that.
-/

namespace CallFacts

/-! ### Results -/

theorem bind_eq_error {ε α β : Type} {x : Except ε α} {f : α → Except ε β} {e : ε} :
    (x >>= f) = .error e ↔ x = .error e ∨ ∃ a, x = .ok a ∧ f a = .error e := by
  cases x <;> simp [bind, Except.bind]

theorem mapError_eq_error {ε ε' α : Type} {x : Except ε α} {f : ε → ε'} {e : ε'} :
    x.mapError f = .error e ↔ ∃ e', x = .error e' ∧ f e' = e := by
  cases x <;> simp [Except.mapError]

theorem exists_of_mapM_eq_error {ε α β : Type} {f : α → Except ε β} {xs : List α} {e : ε}
    (h : xs.mapM f = .error e) : ∃ x ∈ xs, f x = .error e := by
  obtain ⟨before, x, after, rfl, -, hx⟩ := mapM_eq_error_iff.mp h
  exact ⟨x, by simp, hx⟩

/-! ### One instruction -/

namespace Arm32

/-- No operation has the mnemonic as it stands, and its last two bytes begin inside a character. -/
def SplitsCharacter (mnemonic : List Char) : Prop :=
  operation? mnemonic = none ∧ 2 < Text.byteSize mnemonic ∧
    ∀ head tail, mnemonic = head ++ tail → Text.byteSize tail ≠ 2

theorem classify_eq_error_iff {mnemonic : List Char} {error : LiftError} :
    classify mnemonic = .error error ↔
      SplitsCharacter mnemonic ∧ error = .conditionSplitsCharacter (String.ofList mnemonic) := by
  rw [classify, SplitsCharacter, ← Text.cutBytesFromEnd?_eq_none_iff]
  cases operation? mnemonic with
  | some op => simp
  | none =>
    by_cases hshort : Text.byteSize mnemonic ≤ 2
    · simp [hshort]
    · cases hcut : Text.cutBytesFromEnd? 2 mnemonic with
      | none => simp [hshort, Nat.lt_of_not_le hshort, eq_comm]
      | some parts =>
        simp only [if_neg hshort]
        split
        · simp
        · split <;> simp

/-- Characters of one byte leave no cut inside a character. -/
theorem not_splitsCharacter_of_utf8Size {mnemonic : List Char} (h : ∀ c ∈ mnemonic, c.utf8Size = 1) :
    ¬ SplitsCharacter mnemonic := by
  rintro ⟨-, hlong, hcut⟩
  have hsize (text : List Char) (htext : ∀ c ∈ text, c ∈ mnemonic) : Text.byteSize text = text.length := by
    induction text with
    | nil => rfl
    | cons c text ih =>
      rw [Text.byteSize_cons, h c (htext c List.mem_cons_self), ih fun d hd => htext d (List.mem_cons_of_mem _ hd),
        List.length_cons]
      omega
  rw [hsize mnemonic fun _ hc => hc] at hlong
  refine hcut (mnemonic.take (mnemonic.length - 2)) (mnemonic.drop (mnemonic.length - 2)) (by simp) ?_
  rw [hsize _ fun _ hc => List.mem_of_mem_drop hc, List.length_drop]
  omega

end Arm32

/-- The instruction is one that no model of the architecture takes or passes on. -/
def Arch.CannotLift (arch : Arch) (mnemonic : List Char) : Prop := arch = .arm32 ∧ Arm32.SplitsCharacter mnemonic

namespace Semantics

variable {arch : Arch} {d : Decoded}

theorem lift_singleton (model : Model) (d : Decoded) :
    lift [model] d = (model d).map fun answer =>
      ⟨d.address, d.size, d.mnemonic, answer.getD [.unmodeled d.possiblyWritten]⟩ := by
  rw [lift, firstAnswer]
  cases model d with
  | error error => rfl
  | ok answer => cases answer <;> rfl

theorem model_eq_error_iff {error : LiftError} :
    arch.model d = .error error ↔
      arch.CannotLift d.mnemonic.toList ∧ error = .conditionSplitsCharacter d.mnemonic := by
  cases arch with
  | arm32 =>
    have hmodel : Arch.arm32.model d = .error error ↔ Arm32.classify d.mnemonic.toList = .error error := by
      rw [Arch.model, Arm32.model, bind_eq_error]
      cases Arm32.classify d.mnemonic.toList with
      | error error => simp
      | ok answer => rcases answer with - | ⟨op, conditional⟩ <;> simp [pure, Except.pure]
    rw [hmodel, Arm32.classify_eq_error_iff, String.ofList_toList]
    simp [Arch.CannotLift]
  | arm64 => simp [Arch.model, Arm64.model, Arch.CannotLift]

theorem lift_eq_error_iff {error : LiftError} :
    lift arch.semantics d = .error error ↔
      arch.CannotLift d.mnemonic.toList ∧ error = .conditionSplitsCharacter d.mnemonic := by
  rw [← model_eq_error_iff, Arch.semantics, lift_singleton]
  cases arch.model d <;> simp [Except.map]

/-- Every other instruction is lifted, and to a single unmodeled effect if the model passes it on. -/
theorem exists_lift (h : ¬ arch.CannotLift d.mnemonic.toList) :
    ∃ i, lift arch.semantics d = .ok i ∧ (arch.model d = .ok none → i.effects = [.unmodeled d.possiblyWritten]) := by
  cases hmodel : arch.model d with
  | error error => exact absurd (model_eq_error_iff.mp hmodel).1 h
  | ok answer =>
    refine ⟨_, by rw [Arch.semantics, lift_singleton, hmodel]; rfl, ?_⟩
    rintro ⟨⟩
    rfl

end Semantics

/-! ### One line -/

namespace Listing

variable {arch : Arch} {models : List Model} {b b' : Builder}

namespace Builder

theorem close_isAbort {f : OpenFunction} {error : Error} (h : f.close = .error error) : error.isAbort = false := by
  simp only [OpenFunction.close] at h
  split at h
  · cases h
    rfl
  · cases h

theorem closeFunction_isAbort {error : Error} (h : b.closeFunction = .error error) : error.isAbort = false := by
  simp only [closeFunction] at h
  split at h
  · cases h
  · rcases bind_eq_error.mp h with h | ⟨g, -, h⟩
    · exact close_isAbort h
    · cases h

theorem finish_isAbort {error : Error} (h : b.finish = .error error) : error.isAbort = false := by
  rcases bind_eq_error.mp h with h | ⟨b', -, h⟩
  · exact closeFunction_isAbort h
  · cases h

theorem mapError_refused_isAbort {α : Type} {x : Except Problem α} {line : Nat} {error : Error}
    (h : x.mapError (.refused line) = .error error) : error.isAbort = false := by
  obtain ⟨problem, -, rfl⟩ := mapError_eq_error.mp h
  rfl

theorem checkArch_isAbort {line : Nat} {name : String} {error : Error} (h : b.checkArch line name = .error error) :
    error.isAbort = false := by
  simp only [checkArch] at h
  split at h
  · cases h
    rfl
  · split at h <;> cases h
    rfl

/-- Only the line of an instruction can abort. -/
theorem takeParts_isAbort {line : Nat} {parts : Line} {error : Error} (hparts : parts.codeLine? = none)
    (h : b.takeParts models line parts = .error error) : error.isAbort = false := by
  cases parts with
  | arch name => exact checkArch_isAbort h
  | function name assignments =>
    rcases bind_eq_error.mp h with h | ⟨values, -, h⟩
    · exact mapError_refused_isAbort h
    · rcases bind_eq_error.mp h with h | ⟨b', -, h⟩
      · exact closeFunction_isAbort h
      · cases h
  | block label isEntry => exact mapError_refused_isAbort h
  | edge source target kind =>
    simp only [takeParts] at h
    split at h <;> cases h
    rfl
  | instruction address size mnemonic operands => cases hparts

/-- The line of an instruction aborts if the instruction cannot be lifted. -/
theorem instruction_aborts_iff {line : Nat} {address : List Char} {size : Option (List Char)}
    {mnemonic operands : List Char} :
    (∃ error, b.instruction models line address size mnemonic operands = .error error ∧ error.isAbort = true) ↔
      b.block.isSome ∧ ∃ (d : Decoded) (problem : LiftError),
        decode b.program.arch address size mnemonic operands = .ok d ∧ Semantics.lift models d = .error problem := by
  rw [instruction]
  cases b.block with
  | none =>
    simp only [Option.isSome_none, Bool.false_eq_true, false_and, iff_false]
    rintro ⟨error, h, habort⟩
    cases h
    cases habort
  | some id =>
    simp only [Option.isSome_some, true_and]
    constructor
    · rintro ⟨error, h, habort⟩
      rcases bind_eq_error.mp h with h | ⟨d, hdecode, h⟩
      · rw [mapError_refused_isAbort h] at habort
        cases habort
      rcases bind_eq_error.mp h with h | ⟨i, -, h⟩
      · obtain ⟨problem, hlift, -⟩ := mapError_eq_error.mp h
        exact ⟨d, problem, mapError_eq_ok.mp hdecode, hlift⟩
      · cases h
    · rintro ⟨d, problem, hdecode, hlift⟩
      refine ⟨.unliftable line problem, ?_, rfl⟩
      refine bind_eq_error.mpr (.inr ⟨d, mapError_eq_ok.mpr hdecode, bind_eq_error.mpr (.inl ?_)⟩)
      exact mapError_eq_error.mpr ⟨problem, hlift, rfl⟩

theorem step_aborts_iff {line : Nat} {row : List Char} :
    (∃ error, b.step models line row = .error error ∧ error.isAbort = true) ↔
      ∃ (code : CodeLine) (d : Decoded) (problem : LiftError),
        Line.read? row = some (.instruction code.address code.size code.mnemonic code.operands) ∧ b.block.isSome ∧
          decode b.program.arch code.address code.size code.mnemonic code.operands = .ok d ∧
          Semantics.lift models d = .error problem := by
  constructor
  · rintro ⟨error, hstep, habort⟩
    cases hread : Line.read? row with
    | none =>
      rw [step_of_unread hread] at hstep
      cases hstep
      cases habort
    | some parts =>
      rw [step_of_read hread] at hstep
      cases hcode : parts.codeLine? with
      | none =>
        rw [takeParts_isAbort hcode hstep] at habort
        cases habort
      | some code =>
        cases parts <;> cases hcode
        next address size mnemonic operands =>
        obtain ⟨hblock, d, problem, hdecode, hlift⟩ := instruction_aborts_iff.mp ⟨error, hstep, habort⟩
        exact ⟨⟨address, size, mnemonic, operands⟩, d, problem, rfl, hblock, hdecode, hlift⟩
  · rintro ⟨code, d, problem, hread, hblock, hdecode, hlift⟩
    rw [step_of_read hread, takeParts]
    exact instruction_aborts_iff.mpr ⟨hblock, d, problem, hdecode, hlift⟩

theorem takeLines_append (b : Builder) (lines lines' : List (Nat × List Char)) :
    b.takeLines models (lines ++ lines') = b.takeLines models lines >>= (·.takeLines models lines') := by
  rw [takeLines, List.foldlM_append]
  rfl

/-- The lines are taken up to the first that is refused. -/
theorem takeLines_eq_error_iff {lines : List (Nat × List Char)} {error : Error} :
    b.takeLines models lines = .error error ↔
      ∃ before line row after b', lines = before ++ (line, row) :: after ∧ b.takeLines models before = .ok b' ∧
        b'.step models line row = .error error := by
  constructor
  · intro h
    induction lines generalizing b with
    | nil => cases h
    | cons first lines ih =>
      rw [takeLines_cons] at h
      rcases bind_eq_error.mp h with h | ⟨b₁, hfirst, h⟩
      · exact ⟨[], first.1, first.2, lines, b, rfl, rfl, h⟩
      · obtain ⟨before, line, row, after, b', rfl, hbefore, hrow⟩ := ih h
        refine ⟨first :: before, line, row, after, b', rfl, ?_, hrow⟩
        rw [takeLines_cons]
        exact bind_eq_ok.mpr ⟨b₁, hfirst, hbefore⟩
  · rintro ⟨before, line, row, after, b', rfl, hbefore, hrow⟩
    rw [takeLines_append, hbefore]
    show b'.takeLines models ((line, row) :: after) = _
    rw [takeLines_cons, hrow]
    rfl

theorem takeLines_arch {lines : List (Nat × List Char)} (h : b.takeLines models lines = .ok b') :
    b'.program.arch = b.program.arch := by
  induction lines generalizing b with
  | nil =>
    cases h
    rfl
  | cons first lines ih =>
    rw [takeLines_cons] at h
    obtain ⟨b₁, hfirst, hrest⟩ := bind_eq_ok.mp h
    exact (ih hrest).trans (step_keeps hfirst).1

end Builder

/-- A line that ends the reading of the text: the lines before it are taken, and it has an instruction whose
operands are read and which cannot be lifted. -/
structure AbortsAt (arch : Arch) (before : List (Nat × List Char)) (row : List Char) (code : CodeLine) (d : Decoded) :
    Prop where
  before : ∃ b, (Builder.new arch).takeLines arch.semantics before = .ok b ∧ b.block.isSome
  row : Line.read? row = some (.instruction code.address code.size code.mnemonic code.operands)
  decode : Builder.decode arch code.address code.size code.mnemonic code.operands = .ok d
  cannotLift : arch.CannotLift d.mnemonic.toList

theorem read_aborts_iff {text : List Char} :
    (∃ error, read arch text = .error error ∧ error.isAbort = true) ↔
      ∃ before line row after code d, numberedLines text = before ++ (line, row) :: after ∧
        AbortsAt arch before row code d := by
  constructor
  · rintro ⟨error, h, habort⟩
    rw [read, readWith_eq_readLines, readLines] at h
    rcases bind_eq_error.mp h with h | ⟨b, -, h⟩
    · obtain ⟨before, line, row, after, b, hlines, hbefore, hrow⟩ := Builder.takeLines_eq_error_iff.mp h
      obtain ⟨code, d, problem, hread, hblock, hdecode, hlift⟩ := Builder.step_aborts_iff.mp ⟨error, hrow, habort⟩
      rw [Builder.takeLines_arch hbefore] at hdecode
      exact ⟨before, line, row, after, code, d, hlines, ⟨b, hbefore, hblock⟩, hread, hdecode,
        (Semantics.lift_eq_error_iff.mp hlift).1⟩
    · rw [Builder.finish_isAbort h] at habort
      cases habort
  · rintro ⟨before, line, row, after, code, d, hlines, ⟨b, hbefore, hblock⟩, hread, hdecode, hcannot⟩
    have harch : b.program.arch = arch := Builder.takeLines_arch hbefore
    obtain ⟨error, hrow, habort⟩ := Builder.step_aborts_iff.mpr
      ⟨code, d, _, hread, hblock, harch.symm ▸ hdecode, Semantics.lift_eq_error_iff.mpr ⟨hcannot, rfl⟩⟩
    refine ⟨error, ?_, habort⟩
    rw [read, readWith_eq_readLines, readLines]
    refine bind_eq_error.mpr (.inl (Builder.takeLines_eq_error_iff.mpr ?_))
    exact ⟨before, line, row, after, b, hlines, hbefore, hrow⟩

theorem detectArch_isAbort {text : List Char} {error : Error} (h : detectArch text = .error error) :
    error.isAbort = false := by
  simp only [detectArch] at h
  split at h
  · cases h
    rfl
  · split at h
    · split at h <;> cases h
      rfl
    · cases h
      rfl

end Listing

/-! ### Runs -/

namespace Pipeline

variable {α : Type} {arch : Arch} {c : Config} {tracked : List String} {text : List Char}

/-- Whether the run ends in neither a report nor a reason why there is none. -/
def Aborts (result : Except PipelineError α) : Prop := ∃ error, result = .error error ∧ error.isAbort = true

theorem aborts_mapError_listing_iff {x : Except Listing.Error α} :
    Aborts (x.mapError .listing) ↔ ∃ error, x = .error error ∧ error.isAbort = true := by
  constructor
  · rintro ⟨error, h, habort⟩
    obtain ⟨error', hx, rfl⟩ := mapError_eq_error.mp h
    exact ⟨error', hx, habort⟩
  · rintro ⟨error, hx, habort⟩
    exact ⟨.listing error, mapError_eq_error.mpr ⟨error, hx, rfl⟩, habort⟩

/-- A run aborts in its first part or, past that, in the rest. -/
theorem aborts_bind_iff {β : Type} {x : Except PipelineError α} {f : α → Except PipelineError β} :
    Aborts (x >>= f) ↔ Aborts x ∨ ∃ a, x = .ok a ∧ Aborts (f a) := by
  constructor
  · rintro ⟨error, h, habort⟩
    rcases bind_eq_error.mp h with h | ⟨a, ha, h⟩
    · exact .inl ⟨error, h, habort⟩
    · exact .inr ⟨a, ha, error, h, habort⟩
  · rintro (⟨error, h, habort⟩ | ⟨a, ha, error, h, habort⟩)
    · exact ⟨error, bind_eq_error.mpr (.inl h), habort⟩
    · exact ⟨error, bind_eq_error.mpr (.inr ⟨a, ha, h⟩), habort⟩

theorem not_aborts_configFor : ¬ Aborts (configFor arch c tracked) := by
  rintro ⟨error, h, habort⟩
  simp only [configFor] at h
  split at h
  · cases h
  cases hresolve : resolveRegisters arch tracked with
  | ok registers =>
    rw [hresolve] at h
    cases h
  | error failure =>
    rw [hresolve] at h
    cases h
    rcases bind_eq_error.mp hresolve with h | ⟨registers, -, h⟩
    · obtain ⟨name, -, hname⟩ := exists_of_mapM_eq_error h
      split at hname <;> cases hname
      cases habort
    · cases h

theorem aborts_analyze_iff {overflow : Overflow} {p : Program} :
    Aborts (analyze overflow p c) ↔ p.Stops overflow c := by
  rw [← Program.analyzeIn_eq_none_iff, analyze]
  cases p.analyzeIn overflow c with
  | none => simp [Aborts, PipelineError.isAbort]
  | some report => simp [Aborts]

/-- The program of the text is analyzed, and the build stops at one of its functions. -/
def Overflows (overflow : Overflow) (c : Config) (tracked : List String) (text : List Char) : Prop :=
  ∃ arch p config, Listing.detectArch text = .ok arch ∧ Listing.read arch text = .ok p ∧
    configFor arch c tracked = .ok config ∧ p.Stops overflow config

/-- A run aborts in the reading of its text or in the analysis of the program that was read. -/
theorem aborts_run_iff {overflow : Overflow} : Aborts (run overflow c tracked text) ↔
    (∃ arch, Listing.detectArch text = .ok arch ∧
      ∃ error, Listing.read arch text = .error error ∧ error.isAbort = true) ∨ Overflows overflow c tracked text := by
  have hdetect : ¬ Aborts ((Listing.detectArch text).mapError .listing) := by
    rw [aborts_mapError_listing_iff]
    rintro ⟨error, herror, habort⟩
    rw [Listing.detectArch_isAbort herror] at habort
    cases habort
  -- Architecture, text, configuration and analysis come in this order, and the first error is that of the run.
  constructor
  · intro h
    obtain h | ⟨arch, harch, h⟩ := aborts_bind_iff.mp h
    · exact absurd h hdetect
    obtain h | ⟨p, hp, h⟩ := aborts_bind_iff.mp h
    · exact .inl ⟨arch, mapError_eq_ok.mp harch, aborts_mapError_listing_iff.mp h⟩
    obtain h | ⟨config, hconfig, h⟩ := aborts_bind_iff.mp h
    · exact absurd h not_aborts_configFor
    obtain h | ⟨report, -, error, h, -⟩ := aborts_bind_iff.mp h
    · exact .inr ⟨arch, p, config, mapError_eq_ok.mp harch, mapError_eq_ok.mp hp, hconfig, aborts_analyze_iff.mp h⟩
    · cases h
  · rintro (⟨arch, harch, hread⟩ | ⟨arch, p, config, harch, hp, hconfig, hstops⟩)
    · have hread := aborts_mapError_listing_iff.mpr hread
      exact aborts_bind_iff.mpr (.inr ⟨arch, mapError_eq_ok.mpr harch, aborts_bind_iff.mpr (.inl hread)⟩)
    · refine aborts_bind_iff.mpr (.inr ⟨arch, mapError_eq_ok.mpr harch, ?_⟩)
      refine aborts_bind_iff.mpr (.inr ⟨p, mapError_eq_ok.mpr hp, ?_⟩)
      exact aborts_bind_iff.mpr (.inr ⟨config, hconfig, aborts_bind_iff.mpr (.inl (aborts_analyze_iff.mpr hstops))⟩)

/-- Every instruction but those that cannot be lifted is lifted, at worst to a single unmodeled effect, and a
run aborts if and only if its text gets as far as an instruction that cannot be lifted or the build stops at
the limit on visits. -/
theorem run_aborts_iff (overflow : Overflow) (c : Config) (tracked : List String) (text : List Char) :
    (∀ (arch : Arch) (d : Decoded), (∃ i, Semantics.lift arch.semantics d = .ok i ∧
        (arch.model d = .ok none → i.effects = [.unmodeled d.possiblyWritten])) ↔
          ¬ arch.CannotLift d.mnemonic.toList) ∧
      (Aborts (run overflow c tracked text) ↔
        (∃ arch before line row after code d, Listing.detectArch text = .ok arch ∧
          Listing.numberedLines text = before ++ (line, row) :: after ∧ Listing.AbortsAt arch before row code d) ∨
        Overflows overflow c tracked text) := by
  refine ⟨fun arch d => ⟨?_, Semantics.exists_lift⟩, ?_⟩
  · rintro ⟨i, hlift, -⟩ hcannot
    rw [Semantics.lift_eq_error_iff.mpr ⟨hcannot, rfl⟩] at hlift
    cases hlift
  · rw [aborts_run_iff]
    refine or_congr_left (exists_congr fun arch => ?_)
    rw [Listing.read_aborts_iff]
    constructor
    · rintro ⟨harch, before, line, row, after, code, d, hlines, hat⟩
      exact ⟨before, line, row, after, code, d, harch, hlines, hat⟩
    · rintro ⟨before, line, row, after, code, d, harch, hlines, hat⟩
      exact ⟨harch, before, line, row, after, code, d, hlines, hat⟩

/-- A mnemonic that no operation has and that ends in a character of two bytes and one of one byte. -/
def foreignMnemonic : String := "arch arm32\nfunction f\nblock a\n  1000 xéa\n"

/-- In no build does every text end in a report or a reason why there is none. -/
theorem foreignMnemonic_aborts : ¬ ∃ overflow, ∀ (c : Config) (tracked : List String) (text : List Char),
    ¬ Aborts (run overflow c tracked text) := by
  rintro ⟨overflow, h⟩
  have harch : Listing.detectArch foreignMnemonic.toList = .ok .arm32 := by decide +kernel
  have hread : Listing.read .arm32 foreignMnemonic.toList =
      .error (.unliftable 4 (.conditionSplitsCharacter "xéa")) := by decide +kernel
  exact h {} [] foreignMnemonic.toList (aborts_run_iff.mpr (.inl ⟨.arm32, harch, _, hread, rfl⟩))

end Pipeline

end CallFacts
