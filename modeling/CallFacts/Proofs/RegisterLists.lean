import CallFacts.Proofs.Conditional
import CallFacts.Proofs.ListItems

/-!
# Loads of register lists

A list between braces is read as a whole. If every item is blank, the name of a core register or a range between two of
them, the list has the registers that its items name, and a load makes all of them unknown. If one item is something
else, the list is kept as text, and the load changes none of the registers that the other items name.
-/

namespace CallFacts

namespace Operand

variable {arch : Arch} {inner : List Char}

/-! ### Texts -/

/-- An operand that is a register list with this inside. -/
def IsListText (piece inner : List Char) : Prop :=
  ∃ after, Text.trim (piece.takeWhile (· != '<')) = '{' :: (inner ++ '}' :: after) ∧ '}' ∉ after

/-- The operands of a load of a register list: the list, or a base register and the list. -/
inductive ListOperands (arch : Arch) (text : List Char) : Option Register → List Char → Prop
  | alone {list inner : List Char} (hcut : split? 0 (Text.trim text) = some [list]) (hlist : IsListText list inner) :
    ListOperands arch text none inner
  /-- The base may be written back. -/
  | based {base list inner : List Char} {view : RegisterView} {operand : Operand}
    (hcut : split? 0 (Text.trim text) = some [base, list]) (hbase : readPiece arch base = .ok operand)
    (hview : operand = .register view ∨ operand = .writeback view) (hlist : IsListText list inner) :
    ListOperands arch text (some view.register) inner

/-- What a list operand adds to the registers that a load fills. -/
inductive Adds : Operand → RegisterSet → Prop
  | list (set : RegisterSet) : Adds (.registerList set) set
  | text (text : String) : Adds (.other text) ∅

/-- A register list is read as its registers, or kept as text. -/
theorem readPiece_list (arch : Arch) {piece : List Char} (h : IsListText piece inner) :
    ∃ operand set, readPiece arch piece = .ok operand ∧ Adds operand set ∧
      ∀ r, r ∈ set ↔ IsReadable arch inner ∧ ∃ item ∈ inner.splitOn ',', Names arch item r := by
  obtain ⟨after, htext, hafter⟩ := h
  simp only [readPiece, htext, Text.cutLast_append_cons _ hafter]
  cases hlist : readList? arch inner with
  | some set =>
    have hreadable : IsReadable arch inner := exists_readList?_iff.mp ⟨set, hlist⟩
    refine ⟨_, set, rfl, .list set, fun r => ?_⟩
    rw [mem_of_readList? hlist]
    exact (and_iff_right hreadable).symm
  | none =>
    have hnot : ¬ IsReadable arch inner := by
      rw [← exists_readList?_iff, hlist]
      simp
    exact ⟨_, ∅, rfl, .text _, fun r => by simp [hnot]⟩

/-- A text that is cut into pieces that can all be read has the operands of these pieces. -/
theorem readAll_of_split? {text : List Char} {pieces : List (List Char)} {operands : List Operand}
    (hcut : split? 0 (Text.trim text) = some pieces) (hread : pieces.mapM (readPiece arch) = .ok operands) :
    readAll arch text = .ok operands := by
  have hnot : Text.trim text ≠ [] := by
    rintro hempty
    rw [hempty] at hcut
    cases hcut
    cases hread
  simp only [readAll, List.isEmpty_iff, if_neg hnot, hcut, hread]

end Operand

namespace Decoded

variable {d : Decoded} {list base : Operand} {set : RegisterSet} {view : RegisterView} {r : Register}

theorem mem_loaded_alone (hd : d.operands = [list]) (h : Operand.Adds list set) :
    r ∈ d.withWriteback d.loadedRegisters ↔ r ∈ set := by
  cases h <;> simp [withWriteback, loadedRegisters, writebackBase?, listedRegisters, hd]

/-- A base register counts as filled, or it is written back. -/
theorem mem_loaded_based (hd : d.operands = [base, list]) (hbase : base = .register view ∨ base = .writeback view)
    (h : Operand.Adds list set) : r ∈ d.withWriteback d.loadedRegisters ↔ r ∈ set ∨ view.register = r := by
  rcases hbase with rfl | rfl
  · cases h <;> simp [withWriteback, loadedRegisters, writebackBase?, listedRegisters, hd, or_comm, eq_comm]
  · cases h <;> simp [withWriteback, loadedRegisters, writebackBase?, listedRegisters, hd, or_comm, eq_comm]

end Decoded

/-- What a load of a register list changes: the registers of the list, if it can be read, and the base. -/
theorem Operand.ListOperands.loaded {arch : Arch} {text inner : List Char} {base : Option Register}
    (h : ListOperands arch text base inner) :
    ∃ operands, readAll arch text = .ok operands ∧ ∀ d : Decoded, d.operands = operands → ∀ r,
      r ∈ d.withWriteback d.loadedRegisters ↔
        (IsReadable arch inner ∧ ∃ item ∈ inner.splitOn ',', Names arch item r) ∨ base = some r := by
  cases h with
  | alone hcut hlist =>
    obtain ⟨operand, set, hread, hadds, hset⟩ := readPiece_list arch hlist
    refine ⟨[operand], readAll_of_split? hcut ?_, fun d hd r => ?_⟩
    · simp only [List.mapM_cons, List.mapM_nil, hread]
      rfl
    · rw [Decoded.mem_loaded_alone hd hadds, hset]
      simp
  | @based _ _ _ _ first hcut hbase hview hlist =>
    obtain ⟨operand, set, hread, hadds, hset⟩ := readPiece_list arch hlist
    refine ⟨[first, operand], readAll_of_split? hcut ?_, fun d hd r => ?_⟩
    · simp only [List.mapM_cons, List.mapM_nil, hbase, hread]
      rfl
    · rw [Decoded.mem_loaded_based hd hview hadds, hset, Option.some.injEq]

namespace Arm32

variable {m : String} {op : Operation} {d : Decoded} {conditional : Bool} {r : Register}

/-! ### Loads -/

/-- The mnemonics that load a list of registers, with their operations. -/
def listLoads : List (String × Operation) :=
  [("pop", .pop), ("vpop", .pop), ("ldm", .load), ("ldmia", .load), ("ldmfd", .load), ("ldmdb", .load),
    ("ldmea", .load), ("ldmib", .load), ("ldmda", .load)]

/-- A mnemonic that loads a list of registers, perhaps with a condition. -/
def IsListLoad (m : String) (op : Operation) : Prop :=
  ∃ name suffix, (name, op) ∈ listLoads ∧ m = name ++ suffix ∧ (suffix = "" ∨ suffix = "al" ∨ suffix ∈ conditions)

theorem operation?_of_mem_listLoads : ∀ entry ∈ listLoads, operation? entry.1.toList = some entry.2 := by
  decide +kernel

theorem IsListLoad.op_eq (h : IsListLoad m op) : op = .pop ∨ op = .load := by
  obtain ⟨name, suffix, hname, -⟩ := h
  have hall : ∀ entry ∈ listLoads, entry.2 = .pop ∨ entry.2 = .load := by decide
  exact hall _ hname

theorem IsListLoad.classify_eq (h : IsListLoad m op) : ∃ conditional, classify m.toList = .ok (some (op, conditional)) := by
  have hkept : op ≠ .moveFloating ∧ op ≠ .noWrite := by rcases h.op_eq with rfl | rfl <;> decide
  obtain ⟨name, suffix, hname, rfl, hsuffix⟩ := h
  have hop := operation?_of_mem_listLoads _ hname
  rw [String.toList_append]
  exact ⟨_, classify_append_suffix hop hkept hsuffix⟩

theorem clobbers_of_load (hop : op = .pop ∨ op = .load) : ∀ e ∈ effectsOf d op conditional, ∃ q, e = .clobber q := by
  cases conditional with
  | true => rcases hop with rfl | rfl <;> exact clobber_of_mem_clobberAll
  | false =>
    rcases hop with rfl | rfl
    · intro e he
      rcases List.mem_append.mp he with he | he
      · exact clobber_of_mem_clobberAll e he
      · exact ⟨_, List.mem_singleton.mp he⟩
    · exact clobber_of_mem_clobberAll

theorem mem_written_load (hop : op = .pop ∨ op = .load) : r ∈ (instructionOf d op conditional).written ↔
    r ∈ d.withWriteback d.loadedRegisters ∨ (op = .pop ∧ r = stackPointer) := by
  rcases hop with rfl | rfl
  · have hpop : writtenBy (d.loadEffects ++ [.clobber stackPointer]) =
        writtenBy d.loadEffects ∪ RegisterSet.insert ∅ stackPointer := by
      rw [writtenBy, List.foldl_append]
      rfl
    have heffects : operationEffects? d .pop = some (d.loadEffects ++ [.clobber stackPointer]) := rfl
    rw [written_of_operationEffects? heffects, hpop, Decoded.loadEffects, writtenBy_clobberAll]
    simp
  · have heffects : operationEffects? d .load = some d.loadEffects := rfl
    rw [written_of_operationEffects? heffects, Decoded.loadEffects, writtenBy_clobberAll]
    simp

/-- A load of a register list makes unknown what its items name if each of them is blank or names core registers, and
none of it otherwise. Besides that it changes only its base register and, if it is a pop, the stack pointer. -/
theorem lift_listLoad {text inner : List Char} {base : Option Register} (hm : IsListLoad m op)
    (htext : Operand.ListOperands .arm32 text base inner) (address : Word) (size : Nat) :
    ∃ operands i, Operand.readAll .arm32 text = .ok operands ∧
      Semantics.lift Arch.arm32.semantics ⟨address, size, m, operands⟩ = .ok i ∧
      (∀ (s : State) (bits : Nat), s.apply bits i = s.clobber i.written) ∧
      ∀ r, r ∈ i.written ↔
        (Operand.IsReadable .arm32 inner ∧ ∃ item ∈ inner.splitOn ',', Operand.Names .arm32 item r) ∨
          base = some r ∨ (op = .pop ∧ r = stackPointer) := by
  obtain ⟨operands, hread, hloaded⟩ := htext.loaded
  obtain ⟨conditional, hclass⟩ := hm.classify_eq
  refine ⟨operands, _, hread, lift_of_classify (d := ⟨address, size, m, operands⟩) hclass, ?_, fun r => ?_⟩
  · intro s bits
    refine State.apply_eq_clobber fun e he => ?_
    obtain ⟨q, rfl⟩ := clobbers_of_load hm.op_eq e he
    rfl
  · rw [mem_written_load hm.op_eq, hloaded _ rfl, or_assoc]

/-- `ldmiane r5!, {r0, R2 - r4, ip}`: the registers inside the range become unknown, and so does the base. -/
theorem ldmiane_loads : IsListLoad "ldmiane" .load ∧
    Operand.ListOperands .arm32 "r5!, {r0, R2 - r4, ip}".toList (some 5) "r0, R2 - r4, ip".toList ∧
    ∃ operands i, Operand.readAll .arm32 "r5!, {r0, R2 - r4, ip}".toList = .ok operands ∧
      Semantics.lift Arch.arm32.semantics ⟨0x1000, 4, "ldmiane", operands⟩ = .ok i ∧
      ∀ s : State, 3 ∈ s.tracked → 5 ∈ s.tracked → (s.apply 32 i).get 3 = .top ∧ (s.apply 32 i).get 5 = .top := by
  have hm : IsListLoad "ldmiane" .load := ⟨"ldmia", "ne", by decide, by decide, .inr (.inr (by decide))⟩
  have hcut : Operand.split? 0 (Text.trim "r5!, {r0, R2 - r4, ip}".toList) =
      some ["r5!".toList, " {r0, R2 - r4, ip}".toList] := by decide +kernel
  have hbase : Operand.readPiece .arm32 "r5!".toList = .ok (.writeback ⟨5, 32⟩) := by decide +kernel
  have htext : Operand.ListOperands .arm32 "r5!, {r0, R2 - r4, ip}".toList (some 5) "r0, R2 - r4, ip".toList :=
    .based hcut hbase (.inr rfl) ⟨[], by decide +kernel, by decide⟩
  obtain ⟨operands, i, hread, hlift, happly, hwritten⟩ := lift_listLoad hm htext 0x1000 4
  refine ⟨hm, htext, operands, i, hread, hlift, fun s hitem hupdated => ?_⟩
  have hreadable : Operand.IsReadable .arm32 "r0, R2 - r4, ip".toList :=
    Operand.exists_readList?_iff.mp ⟨_, show Operand.readList? .arm32 "r0, R2 - r4, ip".toList =
      some (.ofList [0, 2, 3, 4, 12]) by decide +kernel⟩
  have hrange : Text.trim " R2 - r4".toList = "R2 ".toList ++ '-' :: " r4".toList := by decide +kernel
  have hlow : Arch.arm32.register? (Text.trim "R2 ".toList) = some ⟨2, 32⟩ := by decide +kernel
  have hhigh : Arch.arm32.register? (Text.trim " r4".toList) = some ⟨4, 32⟩ := by decide +kernel
  have hnames : Operand.Names .arm32 " R2 - r4".toList 3 := .range hrange hlow hhigh (by decide)
  have hthree : 3 ∈ i.written := (hwritten 3).mpr (.inl ⟨hreadable, _, by decide +kernel, hnames⟩)
  have hfive : 5 ∈ i.written := (hwritten 5).mpr (.inr (.inl rfl))
  rw [happly, State.get_clobber, if_pos ⟨hitem, hthree⟩, State.get_clobber, if_pos ⟨hupdated, hfive⟩]
  exact ⟨rfl, rfl⟩

/-- `pop {r0, sl}`: `r0` is loaded and keeps the value that it had, since `sl` is no name of a core register here. -/
theorem pop_keeps_listed : Operand.ListOperands .arm32 "{r0, sl}".toList none "r0, sl".toList ∧
    (∃ item ∈ "r0, sl".toList.splitOn ',', Operand.Names .arm32 item 0) ∧
    ∃ operands i, Operand.readAll .arm32 "{r0, sl}".toList = .ok operands ∧
      Semantics.lift Arch.arm32.semantics ⟨0x1000, 4, "pop", operands⟩ = .ok i ∧ 0 ∉ i.written ∧
      ∃ s : State, s.get 0 = .exact 5 32 ∧ (s.apply 32 i).get 0 = .exact 5 32 := by
  have hcut : Operand.split? 0 (Text.trim "{r0, sl}".toList) = some ["{r0, sl}".toList] := by decide +kernel
  have hregister : Arch.arm32.register? (Text.trim "r0".toList) = some ⟨0, 32⟩ := by decide +kernel
  have hclass : classify "pop".toList = .ok (some (.pop, false)) := by decide +kernel
  have heffects : instructionOf ⟨0x1000, 4, "pop", [.other "{r0, sl}"]⟩ .pop false =
      ⟨0x1000, 4, "pop", [.clobber 13]⟩ := by decide +kernel
  refine ⟨.alone hcut ⟨[], by decide +kernel, by decide⟩, ⟨"r0".toList, by decide +kernel, .register hregister rfl⟩,
    [.other "{r0, sl}"], ⟨0x1000, 4, "pop", [.clobber 13]⟩, by decide +kernel, ?_, by decide,
    (State.new (RegisterSet.below 1)).set 0 (.exact 5 32), by decide, by decide⟩
  exact heffects ▸ lift_of_classify hclass

end Arm32

end CallFacts
