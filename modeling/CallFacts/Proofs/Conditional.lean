import CallFacts.Proofs.Bytes
import CallFacts.Proofs.Frame
import CallFacts.Semantics.Standard

/-!
# Conditional instructions

A condition at the end of a mnemonic is never mistaken for a part of the name. The two names that take any
ending, those of a floating-point move and comparison, mean with the condition what they mean without it.
So a conditional instruction writes the registers that it writes without its condition, all of them
unknown, and the state after it is above what holds if it is skipped and above what holds if it executes.
-/

namespace CallFacts

/-- The instruction with a suffix to its mnemonic. -/
def Decoded.withSuffix (d : Decoded) (suffix : String) : Decoded := { d with mnemonic := d.mnemonic ++ suffix }

namespace Arm32

variable {m head : List Char} {op : Operation}

/-! ### Names -/

/-- The names of operations in full. -/
def names : List String :=
  ["mov", "cpy", "mvn", "movw", "add", "addw", "sub", "subw", "rsb", "lsl", "adr", "uxtb", "uxth", "sxtb", "sxth",
    "mrc", "mrc2", "mrrc", "mrrc2", "vmov", "push", "vpush", "pop", "vpop", "bl", "blx", "svc", "swi"] ++
    longMultiplies ++ computations ++ loads ++ stores ++ exclusiveStores ++ noWrites

/-- What any other text stands for is settled by its beginning. -/
theorem plainOperation?_of_not_mem (h : String.ofList m ∉ names) :
    plainOperation? m = if "vmov.".toList.isPrefixOf m then some .moveFloating
      else if "vcmp".toList.isPrefixOf m then some .noWrite else none := by
  simp only [names, List.mem_append, List.mem_cons, List.not_mem_nil, or_false, not_or] at h
  simp [plainOperation?, h]

theorem not_mem_of_start {start : List Char} {list : List String} (hstart : start <+: m)
    (hlist : ∀ name ∈ list, ¬ start <+: name.toList) : String.ofList m ∉ list := by
  intro hmem
  refine hlist _ hmem ?_
  rwa [String.toList_ofList]

/-- A text that does not begin like the name of any flag-setting instruction sets no flags. -/
theorem dropFlagSetting_of_start {start : List Char} (hstart : start <+: m)
    (hlist : ∀ name ∈ flagSetting, ¬ start <+: name.toList ++ ['s']) : dropFlagSetting m = m := by
  rw [dropFlagSetting]
  split
  · next base hbase =>
    split
    · next hmem =>
      have hm := Text.eq_append_of_dropEnd? hbase
      refine absurd ?_ (hlist _ hmem)
      rwa [String.toList_ofList, ← hm]
    · rfl
  · rfl

theorem operation?_of_vmov (h : "vmov.".toList <+: m) : operation? m = some .moveFloating := by
  rw [operation?, dropFlagSetting_of_start h (by decide),
    plainOperation?_of_not_mem (not_mem_of_start h (by decide +kernel)),
    if_pos (List.isPrefixOf_iff_prefix.mpr h)]

theorem operation?_of_vcmp (h : "vcmp".toList <+: m) : operation? m = some .noWrite := by
  have hvmov : ¬ "vmov.".toList.isPrefixOf m = true := by
    intro hvmov
    obtain ⟨rest, rfl⟩ := h
    simp at hvmov
  rw [operation?, dropFlagSetting_of_start h (by decide),
    plainOperation?_of_not_mem (not_mem_of_start h (by decide +kernel)),
    if_neg hvmov, if_pos (List.isPrefixOf_iff_prefix.mpr h)]

/-- The texts of all operations but those that are known by their beginning. -/
def spellings : List (List Char) := names.map String.toList ++ flagSetting.map fun name => name.toList ++ ['s']

theorem known_of_plainOperation? (h : (plainOperation? m).isSome) :
    m ∈ spellings ∨ "vmov.".toList <+: m ∨ "vcmp".toList <+: m := by
  by_cases hname : String.ofList m ∈ names
  · exact .inl (List.mem_append_left _ (List.mem_map.mpr ⟨_, hname, String.toList_ofList⟩))
  · rw [plainOperation?_of_not_mem hname] at h
    split at h
    · next hvmov => exact .inr (.inl (List.isPrefixOf_iff_prefix.mp hvmov))
    · split at h
      · next hvcmp => exact .inr (.inr (List.isPrefixOf_iff_prefix.mp hvcmp))
      · cases h

/-- A mnemonic is known by its text or by its beginning. -/
theorem known_of_operation? (h : (operation? m).isSome) :
    m ∈ spellings ∨ "vmov.".toList <+: m ∨ "vcmp".toList <+: m := by
  rw [operation?, dropFlagSetting] at h
  split at h
  · next base hbase =>
    split at h
    · next hmem =>
      refine .inl (List.mem_append_right _ (List.mem_map.mpr ⟨_, hmem, ?_⟩))
      rw [String.toList_ofList, Text.eq_append_of_dropEnd? hbase]
    · exact known_of_plainOperation? h
  · exact known_of_plainOperation? h

/-! ### Conditions -/

/-- The texts that may follow a mnemonic to say when it executes. -/
def suffixes : List (List Char) := (conditions.map String.toList) ++ ["al".toList]

/-- No spelling is that of another operation with a condition behind it. -/
theorem operation?_eq_none_of_spelling : ∀ suffix ∈ suffixes, ∀ spelling ∈ spellings,
    (Text.dropEnd? suffix spelling).all fun head => (operation? head).isNone := by
  decide +kernel

theorem suffix_plain : ∀ suffix ∈ suffixes, Text.byteSize suffix = 2 ∧ '.' ∉ suffix := by
  decide

/-- What a text with a suffix begins with is a beginning of the text, or it reaches into the suffix. -/
theorem prefix_append_cases {start suffix : List Char} (h : start <+: m ++ suffix) :
    start <+: m ∨ ∃ rest, rest ≠ [] ∧ rest <+: suffix ∧ start = m ++ rest := by
  rcases List.prefix_or_prefix_of_prefix h (List.prefix_append m suffix) with hshort | ⟨rest, rfl⟩
  · exact .inl hshort
  · by_cases hrest : rest = []
    · exact .inl (by simp [hrest])
    · exact .inr ⟨rest, hrest, (List.prefix_append_right_inj m).mp h, rfl⟩

theorem vmov_of_append {suffix : List Char} (hsuffix : suffix ∈ suffixes) (h : "vmov.".toList <+: m ++ suffix) :
    "vmov.".toList <+: m := by
  rcases prefix_append_cases h with hshort | ⟨rest, hrest, hstart, heq⟩
  · exact hshort
  · -- The point would stand in the suffix.
    have hlast : rest.getLast hrest = '.' := by
      rw [← List.getLast_append_of_ne_nil (List.append_ne_nil_of_right_ne_nil m hrest) hrest]
      simp [← heq]
    have hmem : '.' ∈ suffix := hstart.subset (hlast ▸ List.getLast_mem hrest)
    exact absurd hmem (suffix_plain suffix hsuffix).2

theorem vcmp_of_append {suffix : List Char} (hm : (operation? m).isSome) (h : "vcmp".toList <+: m ++ suffix) :
    "vcmp".toList <+: m := by
  rcases prefix_append_cases h with hshort | ⟨rest, hrest, -, heq⟩
  · exact hshort
  · -- No shorter beginning of the name is an operation.
    have hproper : ∀ n < 4, operation? ("vcmp".toList.take n) = none := by decide
    have hlength : m.length < 4 := by
      have hlengths := congrArg List.length heq
      have hpos := List.length_pos_iff.mpr hrest
      simp only [List.length_append] at hlengths
      exact Nat.lt_of_lt_of_eq (by omega) hlengths.symm
    have htake : m = "vcmp".toList.take m.length := by rw [heq, List.take_left]
    rw [htake, hproper _ hlength] at hm
    cases hm

/-- A mnemonic with a suffix is no operation, or it is one that takes any ending and stays the same. -/
theorem operation?_append_suffix {suffix : List Char} (hm : operation? m = some op) (hsuffix : suffix ∈ suffixes) :
    operation? (m ++ suffix) = none ∨
      (operation? (m ++ suffix) = some op ∧ (op = .moveFloating ∨ op = .noWrite)) := by
  cases hlong : operation? (m ++ suffix) with
  | none => exact .inl rfl
  | some op' =>
    refine .inr ?_
    rcases known_of_operation? (m := m ++ suffix) (by rw [hlong]; rfl) with hspelling | hvmov | hvcmp
    · have hnone := operation?_eq_none_of_spelling suffix hsuffix _ hspelling
      rw [Text.dropEnd?_append, Option.all_some, hm] at hnone
      cases hnone
    · rw [operation?_of_vmov (vmov_of_append hsuffix hvmov)] at hm
      rw [operation?_of_vmov hvmov] at hlong
      cases hm
      exact ⟨hlong.symm, .inl rfl⟩
    · rw [operation?_of_vcmp (vcmp_of_append (by rw [hm]; rfl) hvcmp)] at hm
      rw [operation?_of_vcmp hvcmp] at hlong
      cases hm
      exact ⟨hlong.symm, .inr rfl⟩

/-- A mnemonic with a suffix that is no operation is cut before the suffix. -/
theorem classify_append_of_none {suffix : List Char} (hm : operation? m = some op) (hsuffix : suffix ∈ suffixes)
    (hnone : operation? (m ++ suffix) = none) :
    classify (m ++ suffix) = if String.ofList suffix = "al" then .ok (some (op, false))
      else if String.ofList suffix ∈ conditions then .ok (some (op, true)) else .ok none := by
  have hsize := (suffix_plain suffix hsuffix).1
  have hpos : Text.byteSize m ≠ 0 := by
    intro hzero
    have hempty : operation? [] = none := by decide
    rw [Text.eq_nil_of_byteSize_eq_zero hzero, hempty] at hm
    cases hm
  have hcut : Text.cutBytesFromEnd? 2 (m ++ suffix) = some (m, suffix) :=
    Text.cutBytesFromEnd?_eq_some_iff.mpr ⟨rfl, hsize⟩
  rw [classify, hnone]
  simp only [hcut]
  rw [if_neg (by rw [Text.byteSize_append]; omega), hm]
  rfl

theorem mem_suffixes {condition : String} (h : condition ∈ conditions) : condition.toList ∈ suffixes :=
  List.mem_append_left _ (List.mem_map_of_mem h)

/-- An operation with a condition behind it is conditional, unless it takes any ending. -/
theorem classify_append_condition {condition : String} (hm : operation? m = some op) (h : condition ∈ conditions) :
    classify (m ++ condition.toList) = .ok (some (op, true)) ∨
      (classify (m ++ condition.toList) = .ok (some (op, false)) ∧ (op = .moveFloating ∨ op = .noWrite)) := by
  rcases operation?_append_suffix hm (mem_suffixes h) with hnone | ⟨hsame, hop⟩
  · have halways : condition ≠ "al" := by
      rintro rfl
      exact absurd h (by decide)
    rw [classify_append_of_none hm (mem_suffixes h) hnone, String.ofList_toList, if_neg halways, if_pos h]
    exact .inl rfl
  · rw [classify, hsame]
    exact .inr ⟨rfl, hop⟩

theorem classify_append_always (hm : operation? m = some op) :
    classify (m ++ "al".toList) = .ok (some (op, false)) := by
  have hsuffix : "al".toList ∈ suffixes := List.mem_append_right _ List.mem_cons_self
  rcases operation?_append_suffix hm hsuffix with hnone | ⟨hsame, -⟩
  · rw [classify_append_of_none hm hsuffix hnone, String.ofList_toList, if_pos rfl]
  · rw [classify, hsame]

/-- The other operations keep their name whatever says when they execute. -/
theorem classify_append_suffix {suffix : String} (hm : operation? m = some op) (hop : op ≠ .moveFloating ∧ op ≠ .noWrite)
    (hsuffix : suffix = "" ∨ suffix = "al" ∨ suffix ∈ conditions) :
    classify (m ++ suffix.toList) = .ok (some (op, decide (suffix ∈ conditions))) := by
  rcases hsuffix with rfl | rfl | hcondition
  · rw [String.toList_empty, List.append_nil, classify, hm]
    rfl
  · exact classify_append_always hm
  · rw [decide_eq_true hcondition]
    refine (classify_append_condition hm hcondition).resolve_right ?_
    rintro ⟨-, rfl | rfl⟩
    · exact hop.1 rfl
    · exact hop.2 rfl

/-- A mnemonic is the name of an operation, with nothing, the suffix that means always, or a condition behind it. -/
def Means (m : List Char) (op : Operation) (conditional : Bool) : Prop :=
  ∃ name suffix, m = name ++ suffix ∧ operation? name = some op ∧
    if conditional then suffix ∈ conditions.map String.toList else suffix = [] ∨ suffix = "al".toList

/-- What is classified has a meaning. -/
theorem means_of_classify {conditional : Bool} (h : classify m = .ok (some (op, conditional))) :
    Means m op conditional := by
  rw [classify] at h
  split at h
  · next hop =>
    cases h
    exact ⟨m, [], by simp, hop, .inl rfl⟩
  · split at h
    · cases h
    · split at h
      · cases h
      · next head suffix hcut =>
        have hm : m = head ++ suffix := (Text.cutBytesFromEnd?_eq_some_iff.mp hcut).1
        dsimp only at h
        split at h
        · next hal =>
          obtain ⟨_, hop, hpair⟩ := Option.map_eq_some_iff.mp (Except.ok.inj h)
          cases hpair
          exact ⟨head, suffix, hm, hop, .inr (by rw [← hal, String.toList_ofList])⟩
        · split at h
          · next hcondition =>
            obtain ⟨_, hop, hpair⟩ := Option.map_eq_some_iff.mp (Except.ok.inj h)
            cases hpair
            exact ⟨head, suffix, hm, hop, List.mem_map.mpr ⟨_, hcondition, String.toList_ofList⟩⟩
          · cases h

/-- What has a meaning is classified by it. Only of the operations that take any ending the condition is not seen. -/
theorem Means.exists_classify {conditional : Bool} (h : Means m op conditional) :
    ∃ conditional', classify m = .ok (some (op, conditional')) ∧
      (conditional' = conditional ∨ op = .moveFloating ∨ op = .noWrite) := by
  obtain ⟨name, suffix, rfl, hop, hsuffix⟩ := h
  cases conditional with
  | false =>
    rcases hsuffix with rfl | rfl
    · exact ⟨false, by rw [List.append_nil, classify, hop], .inl rfl⟩
    · exact ⟨false, classify_append_always hop, .inl rfl⟩
  | true =>
    obtain ⟨condition, hcondition, rfl⟩ := List.mem_map.mp hsuffix
    rcases classify_append_condition hop hcondition with hclass | ⟨hclass, hany⟩
    · exact ⟨true, hclass, .inl rfl⟩
    · exact ⟨false, hclass, .inr hany⟩

/-! ### Effects -/

variable {d : Decoded} {conditional : Bool}

/-- What an operation does to the registers, if it executes or under a condition. -/
def effectsOf (d : Decoded) (op : Operation) (conditional : Bool) : List Effect :=
  match operationEffects? d op with
  | some effects => if conditional then Decoded.clobberAll (writtenBy effects) else effects
  | none => [.unmodeled d.possiblyWritten]

/-- The instruction of an operation. -/
def instructionOf (d : Decoded) (op : Operation) (conditional : Bool) : Instruction :=
  ⟨d.address, d.size, d.mnemonic, effectsOf d op conditional⟩

theorem lift_of_classify (h : classify d.mnemonic.toList = .ok (some (op, conditional))) :
    Semantics.lift Arch.arm32.semantics d = .ok (instructionOf d op conditional) := by
  have hmodel : model d = .ok ((operationEffects? d op).map fun effects =>
      if conditional then Decoded.clobberAll (writtenBy effects) else effects) := by
    rw [model, h]
    rfl
  show Semantics.lift [model] d = _
  rw [Semantics.lift, Semantics.firstAnswer, hmodel, instructionOf, effectsOf]
  cases operationEffects? d op <;> rfl

/-- An instruction that is not known may write what its operands let it write. -/
theorem lift_of_unknown (h : classify d.mnemonic.toList = .ok none) : Semantics.lift Arch.arm32.semantics d =
    .ok ⟨d.address, d.size, d.mnemonic, [.unmodeled d.possiblyWritten]⟩ := by
  have hmodel : model d = .ok none := by
    rw [model, h]
    rfl
  show Semantics.lift [model] d = _
  rw [Semantics.lift, Semantics.firstAnswer, hmodel]
  rfl

/-- The effects do not depend on the text of the mnemonic. -/
theorem effectsOf_withSuffix (d : Decoded) (suffix : String) (op : Operation) (conditional : Bool) :
    effectsOf (d.withSuffix suffix) op conditional = effectsOf d op conditional := by
  cases op <;> rfl

theorem writtenBy_clobberAll (set : RegisterSet) : writtenBy (Decoded.clobberAll set) = set := by
  refine RegisterSet.ext fun r => ?_
  simp only [writtenBy, Effect.mem_foldl_written, Decoded.clobberAll, List.mem_map, RegisterSet.mem_toList]
  constructor
  · rintro (hr | ⟨_, ⟨q, hq, rfl⟩, hr⟩)
    · exact absurd hr (RegisterSet.not_mem_empty r)
    · obtain rfl : r = q := by simpa using hr
      exact hq
  · intro hr
    exact .inr ⟨_, ⟨r, hr, rfl⟩, by simp⟩

/-- Under a condition or not, an instruction writes what its operation writes. -/
theorem written_of_operationEffects? {effects : List Effect} (h : operationEffects? d op = some effects) :
    (instructionOf d op conditional).written = writtenBy effects := by
  show writtenBy (effectsOf d op conditional) = writtenBy effects
  simp only [effectsOf, h]
  cases conditional with
  | true => exact writtenBy_clobberAll _
  | false => rfl

/-- Under a condition an operation writes what it writes without it. -/
theorem written_instructionOf (d : Decoded) (suffix : String) (op : Operation) (conditional : Bool) :
    (instructionOf (d.withSuffix suffix) op conditional).written = (instructionOf d op false).written := by
  show writtenBy (effectsOf (d.withSuffix suffix) op conditional) = writtenBy (effectsOf d op false)
  rw [effectsOf_withSuffix]
  cases conditional
  · rfl
  · simp only [effectsOf]
    cases operationEffects? d op with
    | some effects => exact writtenBy_clobberAll _
    | none => rfl

theorem clobber_of_mem_clobberAll {set : RegisterSet} : ∀ e ∈ Decoded.clobberAll set, ∃ r, e = .clobber r := by
  intro e he
  obtain ⟨r, -, rfl⟩ := List.mem_map.mp he
  exact ⟨r, rfl⟩

/-- Under a condition every write is unknown, and so it is for the operations that take any ending. -/
theorem clobbers_or_unmodeled (h : conditional = true ∨ op = .moveFloating ∨ op = .noWrite) :
    (∀ e ∈ effectsOf d op conditional, ∃ r, e = .clobber r) ∨
      (effectsOf d op conditional = effectsOf d op false ∧ effectsOf d op false = [.unmodeled d.possiblyWritten]) := by
  rcases h with rfl | rfl | rfl
  · simp only [effectsOf]
    cases operationEffects? d op with
    | some effects => exact .inl clobber_of_mem_clobberAll
    | none => exact .inr ⟨rfl, rfl⟩
  · cases conditional
    · exact .inl clobber_of_mem_clobberAll
    · exact .inl clobber_of_mem_clobberAll
  · cases conditional
    · exact .inl nofun
    · exact .inl clobber_of_mem_clobberAll

/-! ### Conditions are safe -/

/-- Unknown writes to what an instruction writes are above doing nothing and above the instruction. -/
theorem above_of_unknown {i j : Instruction} (hwritten : j.written = i.written) {s : State} {bits : Nat}
    (htop : ∀ e ∈ j.effects, s.evaluate bits e = .top) : s ≤ s.apply bits j ∧ s.apply bits i ≤ s.apply bits j := by
  rw [State.apply_eq_clobber htop, hwritten]
  exact ⟨(State.below_clobber s i.written).le, (State.apply_below_clobber s bits i).le⟩

/-- The instruction with a condition writes the same registers as without it, all unknown, and is above
both that it is skipped and that it executes. The suffix for always changes no effect. -/
theorem lift_withSuffix (d : Decoded) (h : (operation? d.mnemonic.toList).isSome) :
    ∃ i, Semantics.lift Arch.arm32.semantics d = .ok i ∧
      (∀ condition ∈ conditions, ∃ j, Semantics.lift Arch.arm32.semantics (d.withSuffix condition) = .ok j ∧
        j.written = i.written ∧
        ((∀ e ∈ j.effects, ∃ r, e = .clobber r) ∨
          (j.effects = i.effects ∧ i.effects = [.unmodeled d.possiblyWritten])) ∧
        ∀ (s : State) (bits : Nat), s ≤ s.apply bits j ∧ s.apply bits i ≤ s.apply bits j) ∧
      ∃ k, Semantics.lift Arch.arm32.semantics (d.withSuffix "al") = .ok k ∧ k.effects = i.effects := by
  obtain ⟨op, hop⟩ := Option.isSome_iff_exists.mp h
  have hplain : classify d.mnemonic.toList = .ok (some (op, false)) := by rw [classify, hop]
  have hsuffixed (suffix : String) : (d.withSuffix suffix).mnemonic.toList = d.mnemonic.toList ++ suffix.toList :=
    String.toList_append
  refine ⟨_, lift_of_classify hplain, ?_, ?_⟩
  · intro condition hcondition
    obtain ⟨conditional, hclass, hkind⟩ : ∃ conditional,
        classify (d.withSuffix condition).mnemonic.toList = .ok (some (op, conditional)) ∧
          (conditional = true ∨ op = .moveFloating ∨ op = .noWrite) := by
      rw [hsuffixed]
      rcases classify_append_condition hop hcondition with hclass | ⟨hclass, hany⟩
      · exact ⟨true, hclass, .inl rfl⟩
      · exact ⟨false, hclass, .inr hany⟩
    have hwritten := written_instructionOf d condition op conditional
    have hclobbers := clobbers_or_unmodeled (d := d) hkind
    rw [← effectsOf_withSuffix d condition op conditional] at hclobbers
    refine ⟨_, lift_of_classify hclass, hwritten, hclobbers, ?_⟩
    intro s bits
    refine above_of_unknown hwritten ?_
    intro e he
    rcases hclobbers with hclobbers | ⟨hsame, hunmodeled⟩
    · obtain ⟨r, rfl⟩ := hclobbers e he
      rfl
    · obtain rfl : e = .unmodeled d.possiblyWritten := List.mem_singleton.mp (hunmodeled ▸ hsame ▸ he)
      rfl
  · have halways : classify (d.withSuffix "al").mnemonic.toList = .ok (some (op, false)) := by
      rw [hsuffixed]
      exact classify_append_always hop
    exact ⟨_, lift_of_classify halways, effectsOf_withSuffix d "al" op false⟩

/-- `adds r0, r1, #4`. -/
def addsFour : Decoded := ⟨0x1000, 4, "adds", [.register ⟨0, 32⟩, .register ⟨1, 32⟩, .immediate 4]⟩

/-- The sum is known without the condition, and with it only that the destination is written. -/
theorem addsFour_under_carry : (operation? addsFour.mnemonic.toList).isSome ∧ ∃ i j,
    Semantics.lift Arch.arm32.semantics addsFour = .ok i ∧
      Semantics.lift Arch.arm32.semantics (addsFour.withSuffix "cs") = .ok j ∧
      i.effects = [.affine 0 1 1 4 32] ∧ (∀ e ∈ j.effects, ∃ r, e = .clobber r) ∧
      j.written = RegisterSet.insert ∅ 0 := by
  have hknown : operation? addsFour.mnemonic.toList = some .add := by decide +kernel
  obtain ⟨i, hi, hconditions, -⟩ := lift_withSuffix addsFour (by rw [hknown]; rfl)
  obtain ⟨j, hj, hwritten, hclobbers, -⟩ := hconditions "cs" (by decide)
  have hadd : Semantics.lift Arch.arm32.semantics addsFour = .ok (instructionOf addsFour .add false) :=
    lift_of_classify (by rw [classify, hknown])
  obtain rfl : instructionOf addsFour .add false = i := Except.ok.inj (hadd.symm.trans hi)
  refine ⟨by rw [hknown]; rfl, _, j, hi, hj, rfl, ?_, hwritten⟩
  rcases hclobbers with hclobbers | ⟨-, hunmodeled⟩
  · exact hclobbers
  · cases hunmodeled

end Arm32

end CallFacts
