import CallFacts.Proofs.Aborts
import CallFacts.Proofs.Arithmetic.Arm64
import CallFacts.Proofs.TrailingOperands

/-!
# Destinations and written-back bases

Whatever an instruction may change is among the registers that its effects write. Its first operand, if that is a
register, is written by every instruction but those that only compare, branch, store or call; and so is the base
register of a load, of a store and of an instruction that is not known, if an operand says that it changes.
-/

namespace CallFacts

variable {d : Decoded} {view : RegisterView} {r : Register}

/-! ### Bases -/

namespace Operand

/-- An operand changes its base register: a register with a mark, or a memory reference that has the mark or is
followed by another operand. -/
inductive Updates : Operand → List Operand → Prop
  | register (view : RegisterView) (rest : List Operand) : Updates (.writeback view) rest
  | before (base : Option RegisterView) (rest : List Operand) : Updates (.memory base true) rest
  | after (base : Option RegisterView) (marked : Bool) (next : Operand) (rest : List Operand) :
    Updates (.memory base marked) (next :: rest)

/-- The first of some operands that changes its base register. -/
inductive FirstUpdate : List Operand → Operand → Prop
  | here {o : Operand} {rest : List Operand} (h : Updates o rest) : FirstUpdate (o :: rest) o
  | later {o o' : Operand} {rest : List Operand} (hkept : ¬ Updates o' rest) (h : FirstUpdate rest o) :
    FirstUpdate (o' :: rest) o

/-- The register that an operand takes its address from. -/
def base? : Operand → Option RegisterView
  | writeback view => some view
  | memory base _ => base
  | _ => none

/-- The base that is written back is that of the first operand that changes its base. -/
theorem FirstUpdate.writebackBase? {operands : List Operand} {o : Operand} (h : FirstUpdate operands o) :
    Decoded.writebackBase? operands = o.base?.map RegisterView.register := by
  -- The recursion of `writebackBase?` passes what does not change its base and stops at the first that does.
  induction h with
  | here h =>
    cases h with
    | register => rfl
    | before => simp [Decoded.writebackBase?, base?]
    | after => simp [Decoded.writebackBase?, base?]
  | @later o o' rest hkept h ih =>
    rw [← ih]
    cases o' with
    | writeback view => exact absurd (.register view rest) hkept
    | memory base marked =>
      cases marked with
      | true => exact absurd (.before base rest) hkept
      | false =>
        cases rest with
        | nil => cases h
        | cons next rest => exact absurd (.after base false next rest) hkept
    | _ => rfl

end Operand

/-! ### What the operands let an instruction write -/

namespace Effect

/-- One of some effects writes a register. -/
def Covers (es : List Effect) (r : Register) : Prop := ∃ e ∈ es, r ∈ e.written

theorem covers_singleton {e : Effect} : Covers [e] r ↔ r ∈ e.written := by simp [Covers]

theorem Covers.append_left {es : List Effect} (h : Covers es r) (fs : List Effect) : Covers (es ++ fs) r := by
  obtain ⟨e, he, hr⟩ := h
  exact ⟨e, List.mem_append_left fs he, hr⟩

theorem Covers.append_right {fs : List Effect} (h : Covers fs r) (es : List Effect) : Covers (es ++ fs) r := by
  obtain ⟨e, he, hr⟩ := h
  exact ⟨e, List.mem_append_right es he, hr⟩

theorem covers_clobberAll {set : RegisterSet} (h : r ∈ set) : Covers (Decoded.clobberAll set) r :=
  ⟨.clobber r, List.mem_map_of_mem (RegisterSet.mem_toList.mpr h), by simp⟩

theorem covers_clobberFirst (h : d.register? 0 = some view) : Covers d.clobberFirst view.register := by
  simp [Decoded.clobberFirst, h, Covers]

theorem covers_storeEffects (h : Decoded.writebackBase? d.operands = some r) : Covers d.storeEffects r := by
  simp [Decoded.storeEffects, h, Covers]

end Effect

namespace Decoded

theorem exists_operands (h : d.register? 0 = some view) :
    ∃ sources, d.operands = .register view :: sources ∨ d.operands = .writeback view :: sources := by
  cases hd : d.operands with
  | nil => simp [register?, hd] at h
  | cons dst sources =>
    simp only [register?, hd, List.getElem?_cons_zero, Option.bind_some] at h
    cases dst with
    | register v => exact ⟨sources, .inl (by rw [Option.some.inj h])⟩
    | writeback v => exact ⟨sources, .inr (by rw [Option.some.inj h])⟩
    | _ => cases h

theorem first_mem_leadingRegisters (h : d.register? 0 = some view) : view.register ∈ d.leadingRegisters := by
  obtain ⟨sources, hd | hd⟩ := exists_operands h
  all_goals simp [leadingRegisters, hd, Operand.register?]

theorem first_mem_registerOperands (h : d.register? 0 = some view) : view.register ∈ d.registerOperands := by
  obtain ⟨sources, hd | hd⟩ := exists_operands h
  all_goals simp [registerOperands, hd, Operand.register?]

theorem mem_withWriteback {set : RegisterSet} :
    r ∈ d.withWriteback set ↔ r ∈ set ∨ writebackBase? d.operands = some r := by
  rw [withWriteback]
  cases writebackBase? d.operands with
  | none => simp
  | some base => simp [or_comm, eq_comm]

/-- A first operand that is written back is not filled, but it is the base. -/
theorem first_mem_loaded (h : d.register? 0 = some view) : view.register ∈ d.withWriteback d.loadedRegisters := by
  rw [mem_withWriteback]
  obtain ⟨sources, hd | hd⟩ := exists_operands h
  · exact .inl (by simp [loadedRegisters, hd])
  · exact .inr (by simp [writebackBase?, hd])

end Decoded

/-! ### 32-bit ARM -/

namespace Arm32

variable {op : Operation} {conditional : Bool}

/-- The operations that do not write their first operand. -/
def sparing : List Operation := [.noWrite, .store, .push, .call, .supervisorCall]

/-- The operations that load or store. -/
def transfers : List Operation := [.load, .pop, .store, .exclusiveStore]

theorem covers_first_of_single {effect : Register → List Operand → Effect} (hview : d.register? 0 = some view)
    (h : singleEffect? op = some effect) :
    ∃ effects, operationEffects? d op = some effects ∧ Effect.Covers effects view.register := by
  have heffects : operationEffects? d op = some [effect view.register d.operands.tail] := by
    rw [operationEffects?_of_single h, hview]
    rfl
  refine ⟨_, heffects, Effect.covers_singleton.mpr ?_⟩
  rw [written_of_single _ _ h]
  simp

theorem covers_first_of_not_single (hview : d.register? 0 = some view) (h : singleEffect? op = none)
    (hop : op ∉ sparing) :
    ∃ effects, operationEffects? d op = some effects ∧ Effect.Covers effects view.register := by
  cases op <;> cases h
  case moveFloating => exact ⟨_, rfl, Effect.covers_clobberAll (Decoded.first_mem_leadingRegisters hview)⟩
  case coprocessorRead => exact ⟨_, rfl, Effect.covers_clobberAll (Decoded.first_mem_registerOperands hview)⟩
  case compute => exact ⟨_, rfl, Effect.covers_clobberFirst hview⟩
  case longMultiply => exact ⟨_, rfl, .clobber view.register, by simp [hview], by simp⟩
  case load => exact ⟨_, rfl, Effect.covers_clobberAll (Decoded.first_mem_loaded hview)⟩
  case exclusiveStore => exact ⟨_, rfl, (Effect.covers_clobberFirst hview).append_left _⟩
  case pop => exact ⟨_, rfl, (Effect.covers_clobberAll (Decoded.first_mem_loaded hview)).append_left _⟩
  all_goals exact absurd (by decide) hop

/-- Every other operation writes its first operand. -/
theorem covers_first (hview : d.register? 0 = some view) (hop : op ∉ sparing) :
    ∃ effects, operationEffects? d op = some effects ∧ Effect.Covers effects view.register := by
  cases hsingle : singleEffect? op with
  | some effect => exact covers_first_of_single hview hsingle
  | none => exact covers_first_of_not_single hview hsingle hop

/-- Loads and stores write the base that is written back. -/
theorem covers_base (hbase : Decoded.writebackBase? d.operands = some r) (hop : op ∈ transfers) :
    ∃ effects, operationEffects? d op = some effects ∧ Effect.Covers effects r := by
  have hload : Effect.Covers d.loadEffects r := Effect.covers_clobberAll (Decoded.mem_withWriteback.mpr (.inr hbase))
  simp only [transfers, List.mem_cons, List.not_mem_nil, or_false] at hop
  rcases hop with rfl | rfl | rfl | rfl
  · exact ⟨_, rfl, hload⟩
  · exact ⟨_, rfl, hload.append_left _⟩
  · exact ⟨_, rfl, Effect.covers_storeEffects hbase⟩
  · exact ⟨_, rfl, (Effect.covers_storeEffects hbase).append_right _⟩

/-- An instruction writes what its operation writes, under a condition or not. -/
theorem mem_written_of_covers
    (h : ∃ effects, operationEffects? d op = some effects ∧ Effect.Covers effects r) :
    r ∈ (instructionOf d op conditional).written := by
  obtain ⟨effects, heffects, hcovers⟩ := h
  rw [written_of_operationEffects? heffects, writtenBy, Effect.mem_foldl_written]
  exact .inr hcovers

end Arm32

/-! ### 64-bit ARM -/

namespace Arm64

variable {dst : RegisterView} {sources : List Operand} {m : String} {e : Effect}

/-- The mnemonics of the instructions that have a destination. -/
def results : List String := arithmetic ++ ["adr", "adrp"] ++ computations

theorem written_copyEffect (dst src : RegisterView) :
    (copyEffect dst src).written = RegisterSet.insert ∅ dst.register := by
  rw [copyEffect]
  split <;> rfl

theorem written_moveEffect (dst : RegisterView) (sources : List Operand) :
    (moveEffect dst sources).written = RegisterSet.insert ∅ dst.register := by
  rw [moveEffect.eq_def]
  split
  case h_3 => exact written_copyEffect _ _
  all_goals rfl

theorem written_moveWideEffect (dst : RegisterView) (f : Word → Word) (sources : List Operand) :
    (moveWideEffect dst f sources).written = RegisterSet.insert ∅ dst.register := by
  rw [moveWideEffect.eq_def]
  split
  · split <;> rfl
  · rfl

theorem written_addEffect (dst : RegisterView) (f : Word → Word) (sources : List Operand) :
    (addEffect dst f sources).written = RegisterSet.insert ∅ dst.register := by
  rw [addEffect.eq_def]
  split
  · split <;> rfl
  · rfl

theorem written_orEffect (dst : RegisterView) (sources : List Operand) :
    (orEffect dst sources).written = RegisterSet.insert ∅ dst.register := by
  rw [orEffect.eq_def]
  split
  case h_2 => exact written_copyEffect _ _
  all_goals rfl

theorem written_shiftEffect (dst : RegisterView) (sources : List Operand) :
    (shiftEffect dst sources).written = RegisterSet.insert ∅ dst.register := by
  rw [shiftEffect.eq_def]
  split
  · split <;> rfl
  · rfl

theorem written_negateEffect (dst : RegisterView) (sources : List Operand) :
    (negateEffect dst sources).written = RegisterSet.insert ∅ dst.register := by
  rw [negateEffect.eq_def]
  split
  · split <;> rfl
  · rfl

theorem written_extendEffect (dst : RegisterView) (source : Nat) (signed : Bool) (sources : List Operand) :
    (extendEffect dst source signed sources).written = RegisterSet.insert ∅ dst.register := by
  rw [extendEffect.eq_def]
  split <;> rfl

theorem written_addressEffect (dst : RegisterView) (sources : List Operand) :
    (addressEffect dst sources).written = RegisterSet.insert ∅ dst.register := by
  rw [addressEffect.eq_def]
  split <;> rfl

/-- The effect of an instruction with a destination writes it. -/
theorem written_writeEffect? (h : writeEffect? m dst sources = some e) :
    e.written = RegisterSet.insert ∅ dst.register := by
  rw [writeEffect?.eq_def] at h
  split at h
  case h_20 =>
    split at h
    · cases h
      rfl
    · cases h
  all_goals cases h
  case h_1 => exact written_moveEffect dst sources
  case h_2 | h_3 => exact written_moveWideEffect dst _ sources
  case h_4 | h_5 | h_6 | h_7 => exact written_addEffect dst _ sources
  case h_8 => exact written_orEffect dst sources
  case h_9 => exact written_shiftEffect dst sources
  case h_10 | h_11 => exact written_negateEffect dst sources
  case h_18 | h_19 => exact written_addressEffect dst sources
  all_goals exact written_extendEffect dst _ _ sources

theorem writeEffect?_eq_none (h : m ∉ results) : writeEffect? m dst sources = none := by
  rw [writeEffect?.eq_def]
  split
  case h_20 => exact if_neg fun hmem => h (List.mem_append_right _ hmem)
  all_goals exact absurd (by decide) h

/-- The effects of an instruction that is known, or what its operands let it write. -/
def effectsOf (d : Decoded) : List Effect := (effects? d).getD [.unmodeled d.possiblyWritten]

theorem lift_eq (d : Decoded) : Semantics.lift Arch.arm64.semantics d =
    .ok ⟨d.address, d.size, d.mnemonic, effectsOf d⟩ := Semantics.lift_singleton model d

/-- The branches, comparisons, stores and calls, which do not write their first operand. -/
def SparesFirst (m : String) : Prop := "b.".toList <+: m.toList ∨ m ∈ noWrites ++ stores ++ ["bl", "blr", "svc"]

/-- The instructions that load or store. -/
def transfers : List String := loads ++ stores ++ exclusiveStores

/-- The text is no name of an instruction. -/
def Unknown (m : String) : Prop :=
  ¬ "b.".toList <+: m.toList ∧ m ∉ noWrites ++ transfers ++ ["bl", "blr", "svc"] ++ results

/-- None of them is the name of a branch or of a comparison. -/
theorem plain_of_mem_transfers : ∀ m ∈ transfers,
    ("b.".toList.isPrefixOf m.toList || m ∈ noWrites) = false ∧ m ∉ ["bl", "blr"] ∧ m ≠ "svc" ∧ m ∉ results := by
  decide

theorem destinationEffects?_eq_none (h : d.mnemonic ∉ results) : destinationEffects? d = none := by
  rw [destinationEffects?]
  split <;> simp [writeEffect?_eq_none h]

/-- An instruction with a destination writes it, or is not known and may write it. -/
theorem covers_destinationEffects? (hview : d.register? 0 = some view) :
    Effect.Covers ((destinationEffects? d).getD [.unmodeled d.possiblyWritten]) view.register := by
  have heffects : ∃ sources, destinationEffects? d =
      (writeEffect? d.mnemonic view sources).map fun effect => [effect] := by
    obtain ⟨sources, hd | hd⟩ := Decoded.exists_operands hview
    all_goals exact ⟨sources, by rw [destinationEffects?, hd]⟩
  obtain ⟨sources, heffects⟩ := heffects
  rw [heffects]
  cases hwrite : writeEffect? d.mnemonic view sources with
  | some e =>
    refine Effect.covers_singleton.mpr ?_
    rw [written_writeEffect? hwrite]
    simp
  | none =>
    rw [← Decoded.head?_register?] at hview
    exact Effect.covers_singleton.mpr (Decoded.first_mem_possiblyWritten hview)

theorem covers_first (hview : d.register? 0 = some view) (hspares : ¬ SparesFirst d.mnemonic) :
    Effect.Covers (effectsOf d) view.register := by
  simp only [SparesFirst, List.mem_append, List.mem_cons, List.not_mem_nil, or_false, not_or] at hspares
  rw [effectsOf, effects?]
  split_ifs with hbranch hload hstore hexclusive hcall hsupervisor
  · rw [Bool.or_eq_true, List.isPrefixOf_iff_prefix, decide_eq_true_iff] at hbranch
    exact absurd hbranch (not_or.mpr ⟨hspares.1, hspares.2.1.1⟩)
  · exact Effect.covers_clobberAll (Decoded.first_mem_loaded hview)
  · exact absurd hstore hspares.2.1.2
  · exact (Effect.covers_clobberFirst hview).append_left _
  · simp [hspares] at hcall
  · exact absurd hsupervisor hspares.2.2.2.2
  · exact covers_destinationEffects? hview

/-- Loads, stores and what is not known write the base that is written back. -/
theorem covers_base (hbase : Decoded.writebackBase? d.operands = some r)
    (h : d.mnemonic ∈ transfers ∨ Unknown d.mnemonic) : Effect.Covers (effectsOf d) r := by
  have hplain : ("b.".toList.isPrefixOf d.mnemonic.toList || d.mnemonic ∈ noWrites) = false ∧
      d.mnemonic ∉ ["bl", "blr"] ∧ d.mnemonic ≠ "svc" ∧ d.mnemonic ∉ results := by
    rcases h with h | ⟨hbranch, hnames⟩
    · exact plain_of_mem_transfers _ h
    · simp only [List.mem_append, List.mem_cons, List.not_mem_nil, or_false, not_or] at hnames
      have hstart : "b.".toList.isPrefixOf d.mnemonic.toList = false :=
        Bool.eq_false_iff.mpr (mt List.isPrefixOf_iff_prefix.mp hbranch)
      refine ⟨?_, by simp [hnames], hnames.1.2.2.2, hnames.2⟩
      rw [hstart, Bool.false_or, decide_eq_false_iff_not]
      exact hnames.1.1.1
  obtain ⟨hbranch, hcall, hsupervisor, hresults⟩ := hplain
  -- What is left are the loads, the stores and what no test takes, and all of them look at the base.
  rw [effectsOf, effects?, hbranch, if_neg Bool.false_ne_true, if_neg hcall, if_neg hsupervisor,
    destinationEffects?_eq_none hresults]
  split_ifs with hload hstore hexclusive
  · exact Effect.covers_clobberAll (Decoded.mem_withWriteback.mpr (.inr hbase))
  · exact Effect.covers_storeEffects hbase
  · exact (Effect.covers_storeEffects hbase).append_right _
  · exact Effect.covers_singleton.mpr (Decoded.mem_withWriteback.mpr (.inr hbase))

end Arm64

/-! ### Either architecture -/

namespace Arch

/-- The instruction only compares, branches, stores or calls, and does not write its first operand. -/
def SparesFirst (m : String) : Arch → Prop
  | arm32 => ∃ op ∈ Arm32.sparing, ∃ conditional, Arm32.Means m.toList op conditional
  | arm64 => Arm64.SparesFirst m

/-- The instruction loads or stores, or the text is no name of an instruction. -/
def MayTransfer (m : String) : Arch → Prop
  | arm32 => (∃ op ∈ Arm32.transfers, ∃ conditional, Arm32.Means m.toList op conditional) ∨
      ∀ op conditional, ¬ Arm32.Means m.toList op conditional
  | arm64 => m ∈ Arm64.transfers ∨ Arm64.Unknown m

end Arch

namespace Arm32

/-- No mnemonic means two operations. -/
theorem Means.unique {m : List Char} {op op' : Operation} {conditional conditional' : Bool}
    (h : Means m op conditional) (h' : Means m op' conditional') : op = op' := by
  obtain ⟨_, hclass, -⟩ := h.exists_classify
  obtain ⟨_, hclass', -⟩ := h'.exists_classify
  rw [hclass] at hclass'
  cases hclass'
  rfl

/-- An instruction that can be lifted is that of its operation, or it is not known. -/
theorem lift_cases (h : ¬ SplitsCharacter d.mnemonic.toList) :
    (∃ op conditional, Means d.mnemonic.toList op conditional ∧
        Semantics.lift Arch.arm32.semantics d = .ok (instructionOf d op conditional)) ∨
      ((∀ op conditional, ¬ Means d.mnemonic.toList op conditional) ∧
        Semantics.lift Arch.arm32.semantics d = .ok ⟨d.address, d.size, d.mnemonic, [.unmodeled d.possiblyWritten]⟩) := by
  cases hclass : classify d.mnemonic.toList with
  | error error => exact absurd (classify_eq_error_iff.mp hclass).1 h
  | ok answer =>
    rcases answer with - | ⟨op, conditional⟩
    · refine .inr ⟨fun op conditional hmeans => ?_, lift_of_unknown hclass⟩
      obtain ⟨_, hsome, -⟩ := hmeans.exists_classify
      rw [hclass] at hsome
      cases hsome
    · exact .inl ⟨op, conditional, means_of_classify hclass, lift_of_classify hclass⟩

end Arm32

/-- An instruction that can be lifted writes its first operand, unless it is one that does not, and a base that is
written back, if it loads or stores or is not known. -/
theorem Semantics.lift_covers_destinations {arch : Arch} (d : Decoded) (h : ¬ arch.CannotLift d.mnemonic.toList) :
    ∃ i, Semantics.lift arch.semantics d = .ok i ∧
      (∀ view, d.register? 0 = some view → ¬ arch.SparesFirst d.mnemonic → view.register ∈ i.written) ∧
      ∀ o base, Operand.FirstUpdate d.operands o → o.base? = some base → arch.MayTransfer d.mnemonic →
        base.register ∈ i.written := by
  have hwriteback {o : Operand} {base : RegisterView} (hupdate : Operand.FirstUpdate d.operands o)
      (hbase : o.base? = some base) : Decoded.writebackBase? d.operands = some base.register := by
    rw [hupdate.writebackBase?, hbase]
    rfl
  cases arch with
  | arm32 =>
    rcases Arm32.lift_cases fun hsplits => h ⟨rfl, hsplits⟩ with ⟨op, conditional, hmeans, hlift⟩ | ⟨hunknown, hlift⟩
    · refine ⟨_, hlift, ?_, ?_⟩
      · intro view hview hspares
        exact Arm32.mem_written_of_covers (Arm32.covers_first hview fun hop => hspares ⟨op, hop, conditional, hmeans⟩)
      · rintro o base hupdate hbase (⟨op', hop, conditional', hmeans'⟩ | hnone)
        · obtain rfl : op = op' := hmeans.unique hmeans'
          exact Arm32.mem_written_of_covers (Arm32.covers_base (hwriteback hupdate hbase) hop)
        · exact absurd hmeans (hnone op conditional)
    · refine ⟨_, hlift, ?_, ?_⟩
      · intro view hview _
        rw [← Decoded.head?_register?] at hview
        exact Instruction.mem_written.mpr (Effect.covers_singleton.mpr (Decoded.first_mem_possiblyWritten hview))
      · intro o base hupdate hbase _
        exact Instruction.mem_written.mpr
          (Effect.covers_singleton.mpr (Decoded.mem_withWriteback.mpr (.inr (hwriteback hupdate hbase))))
  | arm64 =>
    refine ⟨_, Arm64.lift_eq d, ?_, ?_⟩
    · intro view hview hspares
      exact Instruction.mem_written.mpr (Arm64.covers_first hview hspares)
    · intro o base hupdate hbase htransfer
      exact Instruction.mem_written.mpr (Arm64.covers_base (hwriteback hupdate hbase) htransfer)

/-- `ldp x29, x30, [sp], #16`. -/
def Arm64.loadPair : Decoded :=
  ⟨0x1000, 4, "ldp", [.register ⟨29, 64⟩, .register ⟨30, 64⟩, .memory (some ⟨31, 64⟩) false, .immediate 16]⟩

/-- The load writes the first register that it fills and the stack pointer, which is stepped behind it. -/
theorem Semantics.loadPair_covers : ¬ Arch.arm64.CannotLift Arm64.loadPair.mnemonic.toList ∧
    ∃ i, Semantics.lift Arch.arm64.semantics Arm64.loadPair = .ok i ∧ 29 ∈ i.written ∧ 31 ∈ i.written := by
  have hlift : ¬ Arch.arm64.CannotLift Arm64.loadPair.mnemonic.toList := by simp [Arch.CannotLift]
  have hspares : ¬ Arch.arm64.SparesFirst Arm64.loadPair.mnemonic := by
    rw [Arch.SparesFirst, Arm64.SparesFirst]
    decide
  have hupdate : Operand.FirstUpdate Arm64.loadPair.operands (.memory (some ⟨31, 64⟩) false) :=
    .later (by rintro ⟨⟩) (.later (by rintro ⟨⟩) (.here (.after _ _ _ _)))
  obtain ⟨i, hi, hfirst, hbase⟩ := lift_covers_destinations Arm64.loadPair hlift
  exact ⟨hlift, i, hi, hfirst _ rfl hspares, hbase _ _ hupdate rfl (.inl (by decide))⟩

end CallFacts
