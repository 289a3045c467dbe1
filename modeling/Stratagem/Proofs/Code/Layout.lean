import Mathlib.Data.List.Nodup
import Stratagem.Code.Instruction

/-
  Instructions laid out one behind another.

  Key definitions include:
    * `Instruction.Legal`
    * `LaidOut`

  Main declarations:
    * `Opcode.ofByte?_toByte`
    * `Instruction.Legal.decodeAt_encode`
    * `LaidOut.decodeCode_encode`
    * `laidOut_of_decodeCode`
-/

namespace Stratagem

------------------------------------------------------------
-- Operations
------------------------------------------------------------

theorem Family.mem_all
    (f : Family) :
    f ∈ Family.all := by
  cases f <;> decide

namespace Opcode

theorem mem_shorts
    (op : Family → Fin 4 → Opcode)
    (f : Family)
    (slot : Fin 4) :
    op f slot ∈ shorts op :=
  List.mem_flatMap.mpr
    ⟨f, f.mem_all, List.mem_map_of_mem (List.mem_finRange slot)⟩

theorem mem_all
    (op : Opcode) :
    op ∈ all := by
  simp only [all, List.flatten_cons, List.flatten_nil,
    List.mem_append]
  cases op <;> simp [mem_shorts, Family.mem_all]

/- The operations stand in the order of their numbers. -/
theorem pairwise_code_lt :
    (all.map code).Pairwise (· < ·) := by
  decide +kernel

/- No two operations have the same number. -/
theorem code_injective :
    Function.Injective code := fun op op' hCode =>
  List.inj_on_of_nodup_map (pairwise_code_lt.imp Nat.ne_of_lt)
    op.mem_all op'.mem_all hCode

theorem find?_code
    (op : Opcode) :
    all.find? (fun o => o.code == op.code) = some op := by
  cases hFind : all.find? (fun o => o.code == op.code) with
  | none =>
      have hOther := List.find?_eq_none.mp hFind op op.mem_all
      simp at hOther
  | some o =>
      have hCode : o.code = op.code := by
        simpa using List.find?_some hFind
      rw [code_injective hCode]

theorem code_lt
    (op : Opcode) :
    op.code < 256 := by
  cases op with
  | loadShort f slot => cases f <;> simp [code, Family.index] <;> omega
  | storeShort f slot => cases f <;> simp [code, Family.index] <;> omega
  | load f => cases f <;> simp [code, Family.index]
  | store f => cases f <;> simp [code, Family.index]
  | returnValue f => cases f <;> simp [code, Family.index]
  | _ => simp [code] <;> omega

/- The byte of an operation leads back to it. -/
@[simp] theorem ofByte?_toByte
    (op : Opcode) :
    ofByte? op.toByte = some op := by
  have hCode : op.toByte.toNat = op.code := by
    simpa [toByte] using Nat.mod_eq_of_lt op.code_lt
  unfold ofByte? table
  rw [hCode, Array.getElem?_map, Array.getElem?_range,
    if_pos op.code_lt]
  exact op.find?_code

end Opcode

------------------------------------------------------------
-- Instructions
------------------------------------------------------------

namespace Instruction

/- The operands are as many as the operation takes. -/
def Legal
    (i : Instruction) : Prop :=
  if i.wide then
    i.opcode.localFamily?.isSome ∧ i.operands.length = 2
  else
    i.opcode ≠ .wide ∧
      i.operands.length = i.opcode.operandSize

@[simp] theorem length_encode
    (i : Instruction) :
    i.encode.length = i.size := by
  unfold encode size
  split <;> simp <;> omega

theorem operandsAt_append
    (offset : Nat)
    (operands rest : List UInt8) :
    operandsAt offset operands.length (operands ++ rest) =
      .ok (operands, rest) := by
  simp [operandsAt]

theorem decodeAt_narrow
    {byte : UInt8}
    {opcode : Opcode}
    (hByte : Opcode.ofByte? byte = some opcode)
    (hNarrow : opcode ≠ .wide)
    (offset : Nat)
    (rest : List UInt8) :
    Instruction.decodeAt offset (byte :: rest) =
      (operandsAt (offset + 1) opcode.operandSize rest).map
        fun (operands, rest) =>
          ({ offset, opcode, operands }, rest) := by
  cases rest with
  | nil =>
      rw [Instruction.decodeAt.eq_2, hByte]
      cases opcode with
      | wide => exact absurd rfl hNarrow
      | _ => rfl
  | cons inner rest =>
      rw [Instruction.decodeAt.eq_3, hByte]
      cases opcode with
      | wide => exact absurd rfl hNarrow
      | _ => rfl

/-
  Behind the byte for wide ones, the next tells the operation.
  (Without the cases, the table would be evaluated to compare
  the two matches.)
-/
theorem decodeAt_wideByte
    {byte : UInt8}
    (hByte : Opcode.ofByte? byte = some .wide)
    (offset : Nat)
    (inner : UInt8)
    (rest : List UInt8) :
    Instruction.decodeAt offset (byte :: inner :: rest) =
      match Opcode.ofByte? inner with
      | some opcode =>
          if opcode.localFamily?.isSome then
            (operandsAt (offset + 2) 2 rest).map
              fun (operands, rest) =>
                ({ offset, opcode, wide := true, operands }, rest)
          else
            .error (.invalidOpcode inner (offset + 1))
      | none => .error (.invalidOpcode inner (offset + 1)) := by
  rw [Instruction.decodeAt.eq_3]
  cases Opcode.ofByte? inner with
  | none => rw [hByte]
  | some opcode => rw [hByte]

theorem decodeAt_wide
    {byte inner : UInt8}
    {opcode : Opcode}
    (hByte : Opcode.ofByte? byte = some .wide)
    (hInner : Opcode.ofByte? inner = some opcode)
    (hFamily : opcode.localFamily?.isSome)
    (offset : Nat)
    (rest : List UInt8) :
    Instruction.decodeAt offset (byte :: inner :: rest) =
      (operandsAt (offset + 2) 2 rest).map
        fun (operands, rest) =>
          ({ offset, opcode, wide := true, operands }, rest) := by
  rw [decodeAt_wideByte hByte, hInner]
  exact if_pos hFamily

/- A legal instruction is read back, whatever follows. -/
theorem Legal.decodeAt_encode
    {i : Instruction}
    (hLegal : i.Legal)
    (rest : List UInt8) :
    Instruction.decodeAt i.offset (i.encode ++ rest) =
      .ok (i, rest) := by
  rcases i with ⟨offset, opcode, wide, operands⟩
  cases wide with
  | true =>
      rcases hLegal with ⟨hFamily, hLength⟩
      have hOperands := operandsAt_append (offset + 2) operands rest
      dsimp only at hFamily hLength
      rw [hLength] at hOperands
      refine (decodeAt_wide (Opcode.ofByte?_toByte _)
        (Opcode.ofByte?_toByte _) hFamily _ _).trans ?_
      exact congrArg _ hOperands
  | false =>
      rcases hLegal with ⟨hNarrow, hLength⟩
      have hOperands := operandsAt_append (offset + 1) operands rest
      dsimp only at hNarrow hLength
      rw [hLength] at hOperands
      refine (decodeAt_narrow (Opcode.ofByte?_toByte _)
        hNarrow _ _).trans ?_
      exact congrArg _ hOperands

end Instruction

------------------------------------------------------------
-- Code
------------------------------------------------------------

theorem Instruction.size_pos
    (i : Instruction) :
    0 < i.size := by
  unfold size
  split <;> omega

theorem Instruction.offset_lt_next
    (i : Instruction) :
    i.offset < i.next :=
  Nat.lt_add_of_pos_right i.size_pos

/- One legal instruction is read before those behind it. -/
theorem decodeFrom_legal
    {n : Nat}
    {i : Instruction}
    (hLegal : i.Legal)
    (bytes : List UInt8)
    (acc : List Instruction) :
    decodeFrom (n + 1) i.offset (i.encode ++ bytes) acc =
      decodeFrom n i.next bytes (i :: acc) := by
  rw [decodeFrom]
  · rw [hLegal.decodeAt_encode]
    rfl
  · intro hEmpty
    have hSize := i.size_pos
    rw [List.append_eq_nil_iff] at hEmpty
    rw [← Instruction.length_encode, hEmpty.1] at hSize
    cases hSize

/- Legal instructions one behind another, from an offset on. -/
def LaidOut : Nat → List Instruction → Prop
  | _, [] => True
  | offset, i :: is =>
      i.offset = offset ∧ i.Legal ∧ LaidOut i.next is

namespace LaidOut

theorem decodeFrom_encode
    {n offset : Nat}
    (is acc : List Instruction)
    (hLaid : LaidOut offset is)
    (hEnough : (is.flatMap Instruction.encode).length ≤ n) :
    decodeFrom n offset (is.flatMap Instruction.encode) acc =
      .ok (acc.reverse ++ is) := by
  induction is generalizing n offset acc with
  | nil => cases n <;> simp [decodeFrom]
  | cons i is ih =>
      rcases hLaid with ⟨rfl, hLegal, hRest⟩
      have hSize := i.size_pos
      rw [List.flatMap_cons] at hEnough ⊢
      rw [List.length_append, Instruction.length_encode] at hEnough
      cases n with
      | zero => omega
      | succ n =>
          rw [decodeFrom_legal hLegal, ih (i :: acc) hRest (by omega)]
          simp

/- The bytes of instructions laid out from zero decode to them. -/
theorem decodeCode_encode
    {is : List Instruction}
    (hLaid : LaidOut 0 is) :
    decodeCode (is.flatMap Instruction.encode) = .ok is :=
  decodeFrom_encode is [] hLaid (Nat.le_refl _)

/- Nothing is laid out before the start. -/
theorem le_offset
    {start : Nat}
    {is : List Instruction}
    (hLaid : LaidOut start is)
    {i : Instruction}
    (hIn : i ∈ is) :
    start ≤ i.offset := by
  induction is generalizing start with
  | nil => cases hIn
  | cons first is ih =>
      rcases hLaid with ⟨rfl, _, hRest⟩
      rcases List.mem_cons.mp hIn with rfl | hTail
      · exact Nat.le_refl _
      · exact Nat.le_trans (Nat.le_add_right _ _) (ih hRest hTail)

/- Instructions laid out have offsets that grow. -/
theorem pairwise
    {offset : Nat}
    {is : List Instruction}
    (hLaid : LaidOut offset is) :
    is.Pairwise fun i j => i.offset < j.offset := by
  induction is generalizing offset with
  | nil => exact List.Pairwise.nil
  | cons first is ih =>
      rcases hLaid with ⟨rfl, _, hRest⟩
      refine List.pairwise_cons.mpr ⟨?_, ih hRest⟩
      intro j hIn
      have hLater := hRest.le_offset hIn
      have hSize := first.offset_lt_next
      omega

/- What is at the end of an instruction is the one behind it. -/
theorem getElem?_succ
    {start n : Nat}
    {is : List Instruction}
    {i j : Instruction}
    (hLaid : LaidOut start is)
    (hAt : is[n]? = some i)
    (hIn : j ∈ is)
    (hNext : j.offset = i.next) :
    is[n + 1]? = some j := by
  induction is generalizing start n with
  | nil => cases hIn
  | cons first is ih =>
      rcases hLaid with ⟨rfl, _, hRest⟩
      cases n with
      | zero =>
          cases hAt
          rcases List.mem_cons.mp hIn with rfl | hTail
          · have hLess := j.offset_lt_next
            omega
          · cases is with
            | nil => cases hTail
            | cons second is =>
                rcases List.mem_cons.mp hTail with rfl | hLater
                · rfl
                · have hLe := hRest.2.2.le_offset hLater
                  have hLess := second.offset_lt_next
                  have hFirst := hRest.1
                  omega
      | succ n =>
          rcases List.mem_cons.mp hIn with rfl | hTail
          · have hLe := hRest.le_offset (List.mem_of_getElem? hAt)
            have hLess := j.offset_lt_next
            have hMore := i.offset_lt_next
            omega
          · exact ih hRest hAt hTail

end LaidOut

------------------------------------------------------------
-- Decoded Code
------------------------------------------------------------

theorem length_of_operandsAt
    {offset count : Nat}
    {bytes operands rest : List UInt8}
    (hRead : operandsAt offset count bytes = .ok (operands, rest)) :
    operands.length = count := by
  unfold operandsAt at hRead
  dsimp only at hRead
  split at hRead
  case isTrue hLength =>
      cases hRead
      exact hLength
  case isFalse => cases hRead

/-
  What is read at an offset is legal and stands there: it has
  operands of the right number.
-/
theorem Instruction.legal_of_decodeAt
    {offset : Nat}
    {bytes rest : List UInt8}
    {i : Instruction}
    (hRead : Instruction.decodeAt offset bytes = .ok (i, rest)) :
    i.offset = offset ∧ i.Legal := by
  have hMap : ∀ {at' count : Nat} {bytes : List UInt8}
      {make : List UInt8 → Instruction},
      (operandsAt at' count bytes).map
          (fun (operands, rest) => (make operands, rest)) =
        .ok (i, rest) →
      ∃ operands, operands.length = count ∧ i = make operands := by
    intro at' count bytes make hMapped
    cases hOperands : operandsAt at' count bytes with
    | error e =>
        rw [hOperands] at hMapped
        cases hMapped
    | ok found =>
        rw [hOperands] at hMapped
        cases hMapped
        exact ⟨found.1, length_of_operandsAt hOperands, rfl⟩
  fun_cases Instruction.decodeAt offset bytes with
  | case1 => cases hRead
  | case2 byte rest hNone =>
      cases rest with
      | nil =>
          rw [Instruction.decodeAt.eq_2, hNone] at hRead
          cases hRead
      | cons inner rest =>
          rw [Instruction.decodeAt.eq_3, hNone] at hRead
          cases hRead
  | case3 byte hByte =>
      rw [Instruction.decodeAt.eq_2, hByte] at hRead
      cases hRead
  | case4 byte hByte inner rest opcode hInner hFamily =>
      rw [decodeAt_wide hByte hInner hFamily] at hRead
      rcases hMap hRead with ⟨operands, hLength, rfl⟩
      exact ⟨rfl, hFamily, hLength⟩
  | case5 byte hByte inner rest opcode hInner hFamily =>
      rw [decodeAt_wideByte hByte, hInner] at hRead
      dsimp only at hRead
      rw [if_neg hFamily] at hRead
      cases hRead
  | case6 byte hByte inner rest hInner =>
      rw [decodeAt_wideByte hByte, hInner] at hRead
      cases hRead
  | case7 byte rest opcode hNarrow hByte =>
      rw [decodeAt_narrow hByte hNarrow] at hRead
      rcases hMap hRead with ⟨operands, hLength, rfl⟩
      exact ⟨rfl, hNarrow, hLength⟩

theorem laidOut_of_decodeFrom
    {n offset : Nat}
    {bytes : List UInt8}
    {acc is : List Instruction}
    (hRead : decodeFrom n offset bytes acc = .ok is) :
    ∃ js, is = acc.reverse ++ js ∧ LaidOut offset js := by
  induction n generalizing offset bytes acc with
  | zero =>
      cases bytes with
      | nil =>
          cases hRead
          exact ⟨[], (List.append_nil _).symm, trivial⟩
      | cons byte bytes => cases hRead
  | succ n ih =>
      cases bytes with
      | nil =>
          cases hRead
          exact ⟨[], (List.append_nil _).symm, trivial⟩
      | cons byte bytes =>
          rw [decodeFrom] at hRead
          · cases hFirst : Instruction.decodeAt offset
              (byte :: bytes) with
            | error e =>
                rw [hFirst] at hRead
                cases hRead
            | ok found =>
                rcases found with ⟨i, rest⟩
                rw [hFirst] at hRead
                rcases ih hRead with ⟨js, rfl, hLaid⟩
                have hLegal := Instruction.legal_of_decodeAt hFirst
                refine ⟨i :: js, by simp, ?_⟩
                exact ⟨hLegal.1, hLegal.2, hLaid⟩
          · intro hEmpty
            cases hEmpty

/- Decoded instructions are laid out from zero. -/
theorem laidOut_of_decodeCode
    {code : List UInt8}
    {is : List Instruction}
    (hDecode : decodeCode code = .ok is) :
    LaidOut 0 is := by
  rcases laidOut_of_decodeFrom hDecode with ⟨js, rfl, hLaid⟩
  exact hLaid

end Stratagem
