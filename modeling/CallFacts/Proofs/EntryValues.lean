import CallFacts.FunctionAnalysis
import CallFacts.Proofs.Arithmetic.Arm64
import CallFacts.Proofs.Assembly
import CallFacts.Proofs.Conditional
import CallFacts.Proofs.LeastStates
import CallFacts.Proofs.WrittenListing

/-!
# Entry values and moves

A register may receive a constant on the line of its function or by a move. The two agree on every other register, and
on this one if it is named whole or the constant fits the part of it that is named. A move cuts a constant to that part;
an entry value is cut to the whole register only.
-/

namespace CallFacts

variable {arch : Arch} {name text : List Char} {view : RegisterView} {v : Word}

/-- A view shows a whole register, or the low half of one of 64 bits. -/
theorem Arch.bits_of_register? (h : arch.register? name = some view) :
    view.bits = arch.registerBits ∨ view.bits = 32 ∧ arch.registerBits = 64 := by
  rcases lowerRegister?_eq_some_iff.mp h with ⟨word, hword, -⟩ | ⟨s, hs, r, -, rfl⟩
  · have hall (arch : Arch) : ∀ entry ∈ arch.words,
        entry.2.bits = arch.registerBits ∨ entry.2.bits = 32 ∧ arch.registerBits = 64 := by
      cases arch <;> decide
    exact hall arch _ hword
  · have hall (arch : Arch) : ∀ s ∈ arch.series,
        s.bits = arch.registerBits ∨ s.bits = 32 ∧ arch.registerBits = 64 := by
      cases arch <;> decide
    exact hall arch s hs

/-! ### Lines of functions -/

namespace Listing

/-- The line of a function that gives a register a value. -/
theorem Line.read?_assignment (hname : arch.register? name = some view) (hvalue : Text.value? text = some v)
    (f : Label) : Line.read? (wordRow ["function".toList, f.text, name ++ '=' :: text]) =
      some (.function f.1 [name ++ '=' :: text]) := by
  have hleft := Arch.isMadeOf_name hname
  have hright := Text.isMadeOf_of_value? hvalue
  have hword : Text.IsWord (name ++ '=' :: text) :=
    hleft.isWord.append (Text.IsWord.append (w := ['=']) (by decide) hright.isWord)
  have hwords : ∀ w ∈ ["function".toList, f.text, name ++ '=' :: text], Text.IsWord w := by
    simp only [List.forall_mem_cons]
    exact ⟨by decide, f.isWord, hword, by simp⟩
  have hassignment := Line.isAssignment_append hleft.1 hright.1
  rw [Line.read?_wordRow hwords]
  simp [Line.ofWords?, hassignment, Label.text]

end Listing

/-! ### Lines of moves -/

namespace Operand

/-- The operands of a move are the register and the constant. -/
theorem readAll_move (hname : arch.register? name = some view) (hvalue : Text.value? text = some v)
    (himmediate : Text.immediate? text = some v) :
    readAll arch (name ++ ',' :: ' ' :: '#' :: text) = .ok [.register view, .immediate v] := by
  have hleft := Arch.isMadeOf_name hname
  have hright := Text.isMadeOf_of_value? hvalue
  have hconstant : Text.IsWord ('#' :: text) := Text.IsWord.append (w := ['#']) (by decide) hright.isWord
  have hpiece : IsPiece ('#' :: text) := by
    refine isPiece_of_plain (List.all_eq_true.mpr ?_)
    rw [List.forall_mem_cons]
    exact ⟨by decide, fun c hc => (Text.plain_of_mem (hright.2 c hc)).2.1⟩
  have hread : [name, '#' :: text].mapM (readPiece arch) = .ok [.register view, .immediate v] := by
    have hsymbol : '<' ∉ text := hright.not_mem (by decide)
    rw [List.mapM_cons, List.mapM_cons, readPiece_name hname, readPiece_constant hright.isWord hsymbol himmediate]
    rfl
  have htext : name ++ ',' :: ' ' :: '#' :: text = [',', ' '].intercalate [name, '#' :: text] := by
    rw [List.intercalate_cons_cons, List.intercalate_singleton, List.append_assoc]
    rfl
  rw [htext]
  refine readAll_intercalate ?_ hread
  simp only [List.forall_mem_cons, List.not_mem_nil, false_imp_iff, implies_true, and_true]
  exact ⟨⟨hleft.1, hleft.isWord.trimmed, hleft.isPiece⟩, hconstant.1, hconstant.trimmed, hpiece⟩

end Operand

namespace Listing

section

variable {address mnemonic operands : List Char} {size : Option (List Char)} {os : List Operand} {d : Decoded}
  (hcomment : ∀ c ∈ operands, c ∉ [';', '@']) (hread : Operand.readAll arch operands = .ok os)

include hcomment hread

/-- What an instruction line says is the mnemonic in lower case with the operands that are read. -/
theorem Builder.exists_eq_ofText (h : Builder.decode arch address size mnemonic operands = .ok d) :
    ∃ place length, d = .ofText place length mnemonic os := by
  have hwhole := takeWhile_comment hcomment
  rw [Builder.decode.eq_def, hwhole, hread] at h
  cases hplace : Text.unsignedWord? 16 address with
  | none =>
    rw [hplace] at h
    cases h
  | some place =>
    rw [hplace] at h
    cases size with
    | none =>
      cases h
      exact ⟨place, 4, rfl⟩
    | some digits =>
      dsimp only at h
      cases hlength : Text.byte? digits with
      | none =>
        rw [hlength] at h
        cases h
      | some length =>
        rw [hlength] at h
        cases h
        exact ⟨place, length, rfl⟩

theorem Builder.decode_of_address {place : Word} (hplace : Text.unsignedWord? 16 address = some place) :
    Builder.decode arch address none mnemonic operands = .ok (.ofText place 4 mnemonic os) := by
  rw [Builder.decode.eq_def, takeWhile_comment hcomment, hread, hplace]
  rfl

end

/-- The instruction is what a move of the constant to the register is lifted to. -/
def Moves (arch : Arch) (name text : List Char) (i : Instruction) : Prop :=
  ∃ address size, CodeLine.Lifts arch arch.semantics
    ⟨address, size, "mov".toList, name ++ ',' :: ' ' :: '#' :: text⟩ i

/-- One function is declared with the assignments of the other and one more. -/
def Assigns (arch : Arch) (word : List Char) (f g : Function) : Prop :=
  ∃ (id id' : String → BlockId) (F G : String) (words : List (List Char)) (fLines gLines : List BlockLine),
    Declares arch id (⟨F, words ++ [word]⟩, fLines) f ∧ Declares arch id' (⟨G, words⟩, gLines) g

end Listing

/-- A move gives the register the constant, cut to the part of it that is named. -/
theorem Semantics.lift_move (h : arch.register? name = some view) (place : Word) (length : Nat) :
    Semantics.lift arch.semantics ⟨place, length, "mov", [.register view, .immediate v]⟩ =
      .ok ⟨place, length, "mov", [.immediate view.register (Word.keepLow view.bits v)]⟩ := by
  cases arch with
  | arm32 =>
    have hbits : view.bits = Arm32.registerBits := (Arch.bits_of_register? h).resolve_right (by simp [Arch.registerBits])
    have hclass : Arm32.classify "mov".toList = .ok (some (.move, false)) := by decide
    rw [Arm32.lift_of_classify (d := ⟨place, length, "mov", [.register view, .immediate v]⟩) hclass, hbits]
    rfl
  | arm64 => exact Arm64.lift_of_mem_arithmetic (by decide) rfl

namespace Listing

section

variable (hname : arch.register? name = some view) (hvalue : Text.value? text = some v)
  (himmediate : Text.immediate? text = some v)

include hname hvalue

theorem not_comment_of_move : ∀ c ∈ name ++ ',' :: ' ' :: '#' :: text, c ∉ [';', '@'] := by
  have hname' := Arch.isMadeOf_name hname
  have hvalue' := Text.isMadeOf_of_value? hvalue
  have hpart {w : List Char} (hw : Text.IsMadeOf ('-' :: Text.wordChars) w) : ∀ c ∈ w, c ∉ [';', '@'] := by
    intro c hc hcomment
    exact (Text.plain_of_mem (hw.2 c hc)).2.2 (List.mem_append_right ['<', '=', '!', '#'] hcomment)
  have hmark : ∀ c ∈ [',', ' ', '#'], c ∉ [';', '@'] := by simp
  exact List.forall_mem_append.mpr ⟨hpart hname', List.forall_mem_append.mpr ⟨hmark, hpart hvalue'⟩⟩

include himmediate

theorem Moves.effects {i : Instruction} (h : Moves arch name text i) :
    i.effects = [.immediate view.register (Word.keepLow view.bits v)] := by
  obtain ⟨address, size, d, hdecode, hlift⟩ := h
  obtain ⟨place, length, rfl⟩ :=
    Builder.exists_eq_ofText (not_comment_of_move hname hvalue) (Operand.readAll_move hname hvalue himmediate) hdecode
  have hmove := (Semantics.lift_move (v := v) hname place length).symm.trans hlift
  rw [← Except.ok.inj hmove]

theorem exists_moves : ∃ i, Moves arch name text i := by
  have hplace : Text.unsignedWord? 16 ['0'] = some 0 := by decide
  refine ⟨_, ['0'], none, .ofText 0 4 "mov".toList [.register view, .immediate v], ?_, Semantics.lift_move hname 0 4⟩
  exact Builder.decode_of_address (not_comment_of_move hname hvalue) (Operand.readAll_move hname hvalue himmediate) hplace

end

/-- The last assignment is made last. -/
theorem Assigns.entryValues {f g : Function} (hname : arch.register? name = some view)
    (hvalue : Text.value? text = some v) (h : Assigns arch (name ++ '=' :: text) f g) :
    f.entryValues = g.entryValues ++ [(view.register, v &&& arch.valueMask)] := by
  obtain ⟨id, id', F, G, words, fLines, gLines, hf, hg⟩ := h
  have hlast : [name ++ '=' :: text].mapM (Builder.assignment arch) = .ok [(view.register, v &&& arch.valueMask)] := by
    rw [List.mapM_cons, Builder.assignment_eq hname hvalue]
    rfl
  have hall := hf.entryValues
  rw [List.mapM_append, hg.entryValues, hlast] at hall
  exact (Except.ok.inj hall).symm

end Listing

/-! ### States -/

theorem FunctionAnalysis.initialState_concat {f g : Function} {r : Register} {value : Word}
    (h : f.entryValues = g.entryValues ++ [(r, value)]) (tracked : RegisterSet) :
    initialState arch tracked f = (initialState arch tracked g).set r (.ofWord value arch.registerBits) := by
  rw [initialState, h, List.foldl_append]
  rfl

/-- Cut to the register or cut to the view, a constant is the same if the view is whole or the constant fits it. -/
theorem Word.ofWord_mask_eq_iff (h : arch.register? name = some view) :
    Value.ofWord (v &&& arch.valueMask) arch.registerBits = .ofWord (Word.keepLow view.bits v) arch.registerBits ↔
      view.bits = arch.registerBits ∨ v.toNat < 2 ^ view.bits := by
  have hmask : v &&& arch.valueMask = Word.keepLow arch.registerBits v := rfl
  rw [hmask]
  rcases Arch.bits_of_register? h with hwhole | ⟨hlow, hbits⟩
  · rw [hwhole]
    exact iff_of_true rfl (.inl rfl)
  · have hpattern (w w' : Word) : Value.ofWord w 64 = .ofWord w' 64 ↔ w = w' := by
      simp [Value.ofWord, Word.keepLow_of_le]
    rw [hbits, hpattern, Word.keepLow_of_le (by omega), hlow, ← BitVec.toNat_inj, toNat_keepLow]
    have hfits : v.toNat = v.toNat % 2 ^ 32 ↔ v.toNat < 2 ^ 32 :=
      eq_comm.trans (Nat.mod_eq_iff_lt (by decide))
    simpa using hfits

/-- An entry value and a move of the same constant leave the same in every other register, and in the register itself
if it is not followed, if it is named whole, or if the constant fits the part of it that is named. -/
theorem FunctionAnalysis.entryValue_eq_move_iff (hname : arch.register? name = some view)
    (hvalue : Text.value? text = some v) (himmediate : Text.immediate? text = some v) :
    (∀ f : Label, Listing.Line.read? (wordRow ["function".toList, f.text, name ++ '=' :: text]) =
        some (.function f.1 [name ++ '=' :: text])) ∧
      (∃ i, Listing.Moves arch name text i) ∧
      ∀ f g i, Listing.Assigns arch (name ++ '=' :: text) f g → Listing.Moves arch name text i →
        ∀ tracked : RegisterSet,
          (∀ r, r ≠ view.register → (initialState arch tracked f).get r =
            ((initialState arch tracked g).apply arch.registerBits i).get r) ∧
          ((initialState arch tracked f).get view.register =
              ((initialState arch tracked g).apply arch.registerBits i).get view.register ↔
            view.register ∉ tracked ∨ view.bits = arch.registerBits ∨ v.toNat < 2 ^ view.bits) := by
  refine ⟨Listing.Line.read?_assignment hname hvalue, Listing.exists_moves hname hvalue himmediate, ?_⟩
  intro f g i hassigns hmoves tracked
  set s := initialState arch tracked g
  have htracked : s.tracked = tracked := tracked_initialState arch tracked g
  have hassigned : initialState arch tracked f = s.assign (RegisterSet.insert ∅ view.register)
      (.ofWord (v &&& arch.valueMask) arch.registerBits) :=
    initialState_concat (hassigns.entryValues hname hvalue) tracked
  have hmoved : s.apply arch.registerBits i = s.assign (RegisterSet.insert ∅ view.register)
      (.ofWord (Word.keepLow view.bits v) arch.registerBits) := by
    rw [State.apply, hmoves.effects hname hvalue himmediate]
    rfl
  -- Both are the same state with one assignment to the register, so only the assigned values are compared.
  rw [hassigned, hmoved]
  constructor
  · intro r hr
    have hother : ¬ (r ∈ s.tracked ∧ r ∈ RegisterSet.insert ∅ view.register) := by simp [hr]
    rw [State.get_assign, State.get_assign, if_neg hother, if_neg hother]
  · rw [State.get_assign, State.get_assign, htracked]
    by_cases hfollowed : view.register ∈ tracked
    · simp [hfollowed, Word.ofWord_mask_eq_iff hname]
    · simp [hfollowed]

namespace Listing

/-- A function of one block without assignments. -/
def bare : Function := ⟨"f", ⟨0⟩, [⟨0⟩], []⟩

theorem assigns_bare {word : List Char} {r : Register} {value : Word}
    (h : Builder.assignment arch word = .ok (r, value)) : Assigns arch word { bare with entryValues := [(r, value)] } bare := by
  have hdeclares {words : List (List Char)} {values : List (Register × Word)}
      (h : words.mapM (Builder.assignment arch) = .ok values) :
      Declares arch (fun _ => ⟨0⟩) (⟨"f", words⟩, [⟨"a", false⟩]) { bare with entryValues := values } :=
    ⟨rfl, h, by simp, fun _ => rfl, by simp, rfl⟩
  have hword : [word].mapM (Builder.assignment arch) = .ok [(r, value)] := by
    rw [List.mapM_cons, h]
    rfl
  exact ⟨_, _, _, _, [], _, _, hdeclares hword, hdeclares rfl⟩

end Listing

namespace FunctionAnalysis

/-- `wsp=5` and `mov wsp, #5` agree, since five fits the low half. -/
theorem entryValue_lowHalf : Arch.arm64.register? "wsp".toList = some ⟨31, 32⟩ ∧ Text.value? ['5'] = some 5 ∧
    Text.immediate? ['5'] = some 5 ∧ ∃ f g i, Listing.Assigns .arm64 "wsp=5".toList f g ∧
      Listing.Moves .arm64 "wsp".toList ['5'] i ∧ (initialState .arm64 (RegisterSet.below 32) f).get 31 =
        ((initialState .arm64 (RegisterSet.below 32) g).apply 64 i).get 31 := by
  have hname : Arch.arm64.register? "wsp".toList = some ⟨31, 32⟩ := by decide
  have hvalue : Text.value? ['5'] = some 5 := by decide
  have himmediate : Text.immediate? ['5'] = some 5 := by decide
  have hassignment : Listing.Builder.assignment .arm64 "wsp=5".toList = .ok (31, 5) := by decide
  obtain ⟨-, ⟨i, hi⟩, hagrees⟩ := entryValue_eq_move_iff hname hvalue himmediate
  have hassigns := Listing.assigns_bare hassignment
  have hregister := (hagrees _ _ i hassigns hi (RegisterSet.below 32)).2.mpr (.inr (.inr (by decide)))
  exact ⟨hname, hvalue, himmediate, _, _, i, hassigns, hi, hregister⟩

/-- After `w0=-1` the whole register is set, and after `mov w0, #-1` only its low half. -/
theorem entryValue_ne_move :
    Listing.Builder.assignment .arm64 "w0=-1".toList = .ok (0, 0xffffffffffffffff) ∧
      Operand.readAll .arm64 "w0, #-1".toList = .ok [.register ⟨0, 32⟩, .immediate 0xffffffffffffffff] ∧
      Semantics.lift Arch.arm64.semantics ⟨0, 4, "mov", [.register ⟨0, 32⟩, .immediate 0xffffffffffffffff]⟩ =
        .ok ⟨0, 4, "mov", [.immediate 0 0xffffffff]⟩ ∧
      ¬ ∀ (arch : Arch) (name text : List Char) (view : RegisterView) (v : Word),
        arch.register? name = some view → Text.value? text = some v → Text.immediate? text = some v →
        ∀ f g i, Listing.Assigns arch (name ++ '=' :: text) f g → Listing.Moves arch name text i →
        ∀ tracked : RegisterSet, (initialState arch tracked f).get view.register =
          ((initialState arch tracked g).apply arch.registerBits i).get view.register := by
  have hassignment : Listing.Builder.assignment .arm64 "w0=-1".toList = .ok (0, 0xffffffffffffffff) := by
    decide
  have hlift : Semantics.lift Arch.arm64.semantics
      ⟨0, 4, "mov", [.register ⟨0, 32⟩, .immediate 0xffffffffffffffff]⟩ =
        .ok ⟨0, 4, "mov", [.immediate 0 0xffffffff]⟩ := by decide
  refine ⟨hassignment, by decide, hlift, fun hagrees => ?_⟩
  have hmoves : Listing.Moves .arm64 "w0".toList "-1".toList ⟨0, 4, "mov", [.immediate 0 0xffffffff]⟩ :=
    ⟨['0'], none, _, by decide, hlift⟩
  have hsame := hagrees .arm64 "w0".toList "-1".toList ⟨0, 32⟩ 0xffffffffffffffff (by decide) (by decide)
    (by decide) _ _ _ (Listing.assigns_bare hassignment) hmoves (RegisterSet.below 32)
  have hentry : (initialState .arm64 (RegisterSet.below 32)
      { Listing.bare with entryValues := [(0, 0xffffffffffffffff)] }).get 0 = .exact 0xffffffffffffffff 64 := by
    decide
  have hmove : ((initialState .arm64 (RegisterSet.below 32) Listing.bare).apply 64
      ⟨0, 4, "mov", [.immediate 0 0xffffffff]⟩).get 0 = .exact 0xffffffff 64 := by decide
  exact absurd (hentry.symm.trans (hsame.trans hmove)) (by decide)

end FunctionAnalysis

end CallFacts
