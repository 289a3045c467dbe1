import Stratagem.Proofs.Code.Layout

/-
  Decoded code is what the instructions are encoded as.

  Legal instructions tile a piece of code, or else there is a
  first place where no instruction can be read: its operation
  is not known, or it is to be wide and takes no slot, or the
  code ends within it.

  Key definitions include:
    * `Instruction.head`
    * `Instruction.Unreadable`
    * `Instruction.StartsCode`

  Main declarations:
    * `Opcode.toByte_of_ofByte?`
    * `Instruction.startsCode`
    * `Instruction.Unreadable.decodeAt_eq`
    * `decodeCode_tiles`
-/

namespace Stratagem

/- The byte of the operation that a byte stands for. -/
theorem Opcode.toByte_of_ofByte?
    {b : UInt8}
    {op : Opcode}
    (hByte : Opcode.ofByte? b = some op) :
    op.toByte = b := by
  unfold ofByte? table at hByte
  rw [Array.getElem?_map, Array.getElem?_range,
    if_pos b.toNat_lt, Option.map_some, Option.join_some] at hByte
  have hCode : op.code = b.toNat := by
    simpa using List.find?_some hByte
  rw [toByte, hCode, UInt8.ofNat_toNat]

------------------------------------------------------------
-- One Instruction
------------------------------------------------------------

theorem operandsAt_short
    (offset : Nat)
    {count : Nat}
    {bytes : List UInt8}
    (hShort : bytes.length < count) :
    operandsAt offset count bytes =
      .error (.unexpectedEnd offset) := by
  have hLength : ¬ (bytes.take count).length = count := by
    rw [List.length_take]
    omega
  rw [operandsAt]
  exact if_neg hLength

namespace Instruction

/- The bytes before the operands. -/
def head
    (i : Instruction) : List UInt8 :=
  (if i.wide then [Opcode.wide.toByte] else []) ++
    [i.opcode.toByte]

theorem encode_eq_head
    (i : Instruction) :
    i.encode = i.head ++ i.operands := by
  rw [encode, head, List.append_assoc]
  rfl

/-
  No instruction can be read from some bytes: the operation is
  not known, a wide one takes no slot, or they are not all the
  bytes of an instruction.  The end is missed by the operands,
  or by the operation behind the byte for wide ones.
-/
inductive Unreadable
    (offset : Nat) : List UInt8 → DecodeError → Prop where
  | unknown
      (byte : UInt8)
      (rest : List UInt8)
      (hByte : Opcode.ofByte? byte = none) :
      Unreadable offset (byte :: rest) (.invalidOpcode byte offset)
  | notLocal
      (inner : UInt8)
      (rest : List UInt8)
      (hInner :
        (Opcode.ofByte? inner).bind Opcode.localFamily? = none) :
      Unreadable offset (Opcode.wide.toByte :: inner :: rest)
        (.invalidOpcode inner (offset + 1))
  | truncated
      (i : Instruction)
      (given missing : List UInt8)
      (hLegal : i.Legal)
      (hBytes : i.encode = given ++ missing)
      (hGiven : given ≠ [])
      (hMissing : missing ≠ []) :
      Unreadable offset given
        (.unexpectedEnd (offset + min given.length i.head.length))

/- A byte that stands for no operation cannot be read. -/
theorem decodeAt_unknown
    {byte : UInt8}
    (hByte : Opcode.ofByte? byte = none)
    (offset : Nat)
    (rest : List UInt8) :
    Instruction.decodeAt offset (byte :: rest) =
      .error (.invalidOpcode byte offset) := by
  cases rest with
  | nil => rw [Instruction.decodeAt.eq_2, hByte]
  | cons inner rest => rw [Instruction.decodeAt.eq_3, hByte]

/- Only loads and stores that name their slot can be wide. -/
theorem decodeAt_notLocal
    {inner : UInt8}
    (hInner :
      (Opcode.ofByte? inner).bind Opcode.localFamily? = none)
    (offset : Nat)
    (rest : List UInt8) :
    Instruction.decodeAt offset
        (Opcode.wide.toByte :: inner :: rest) =
      .error (.invalidOpcode inner (offset + 1)) := by
  rw [decodeAt_wideByte (Opcode.ofByte?_toByte _)]
  cases hOp : Opcode.ofByte? inner with
  | none => rfl
  | some op =>
      rw [hOp, Option.bind_some] at hInner
      dsimp only
      rw [hInner]
      rfl

/- Nothing is read from the byte for wide ones alone. -/
theorem decodeAt_wideAlone
    (offset : Nat) :
    Instruction.decodeAt offset [Opcode.wide.toByte] =
      .error (.unexpectedEnd (offset + 1)) := by
  rw [Instruction.decodeAt.eq_2, Opcode.ofByte?_toByte]

/- What cannot be read is refused, with that reason. -/
theorem Unreadable.decodeAt_eq
    {offset : Nat}
    {bytes : List UInt8}
    {e : DecodeError}
    (hUnreadable : Unreadable offset bytes e) :
    Instruction.decodeAt offset bytes = .error e := by
  cases hUnreadable with
  | unknown byte rest hByte => exact decodeAt_unknown hByte _ _
  | notLocal inner rest hInner => exact decodeAt_notLocal hInner _ _
  | truncated i given missing hLegal hBytes hGiven hMissing =>
      have hFewer := List.length_pos_iff.mpr hMissing
      rcases i with ⟨start, opcode, wide, operands⟩
      cases wide with
      | false =>
          rcases hLegal with ⟨hNarrow, hLength⟩
          dsimp only at hNarrow hLength
          cases bytes with
          | nil => exact absurd rfl hGiven
          | cons byte more =>
              rcases List.cons.inj hBytes with ⟨rfl, hRest⟩
              have hOperands : operands = more ++ missing := hRest
              have hShort : more.length < opcode.operandSize := by
                rw [← hLength, hOperands, List.length_append]
                omega
              rw [decodeAt_narrow (Opcode.ofByte?_toByte _) hNarrow,
                operandsAt_short _ hShort]
              simp [head]
              rfl
      | true =>
          rcases hLegal with ⟨hFamily, hLength⟩
          dsimp only at hFamily hLength
          match bytes, hGiven, hBytes with
          | [], hGiven, _ => exact absurd rfl hGiven
          | [byte], _, hBytes =>
              rcases List.cons.inj hBytes with ⟨rfl, -⟩
              rw [decodeAt_wideAlone]
              simp [head]
          | byte :: inner :: more, _, hBytes =>
              rcases List.cons.inj hBytes with ⟨rfl, hTail⟩
              rcases List.cons.inj hTail with ⟨rfl, hRest⟩
              have hOperands : operands = more ++ missing := hRest
              have hShort : more.length < 2 := by
                rw [← hLength, hOperands, List.length_append]
                omega
              rw [decodeAt_wide (Opcode.ofByte?_toByte _)
                (Opcode.ofByte?_toByte _) hFamily,
                operandsAt_short _ hShort]
              simp [head]
              rfl

/- What is at the start of some bytes, whatever it is. -/
def StartsCode
    (offset : Nat)
    (bytes : List UInt8) : Prop :=
  (∃ i rest, i.offset = offset ∧ i.Legal ∧
      bytes = i.encode ++ rest ∧
      Instruction.decodeAt offset bytes = .ok (i, rest)) ∨
    ∃ e, Unreadable offset bytes e

/- Behind a known operation its operands are found, or not all. -/
theorem startsCode_of_head
    (i : Instruction)
    (count : Nat)
    (hLegal : ∀ operands : List UInt8, operands.length = count →
      Legal { i with operands })
    (bytes : List UInt8) :
    StartsCode i.offset (i.head ++ bytes) := by
  by_cases hEnough : count ≤ bytes.length
  · have hSplit := List.take_append_drop count bytes
    have hRead := hLegal (bytes.take count)
      (by rw [List.length_take, Nat.min_eq_left hEnough])
    have hBytes : i.head ++ bytes =
        encode { i with operands := bytes.take count } ++
          bytes.drop count := by
      rw [encode_eq_head, List.append_assoc, hSplit]
      rfl
    refine .inl ⟨{ i with operands := bytes.take count },
      bytes.drop count, rfl, hRead, hBytes, ?_⟩
    rw [hBytes]
    exact hRead.decodeAt_encode _
  · -- zeros would make up for the operands that are missing
    have hFull := hLegal
      (bytes ++ List.replicate (count - bytes.length) 0)
      (by rw [List.length_append, List.length_replicate]; omega)
    have hMissing :
        List.replicate (count - bytes.length) (0 : UInt8) ≠ [] := by
      rw [Ne, List.replicate_eq_nil_iff]
      omega
    refine .inr ⟨_, .truncated _ _ _ hFull ?_ ?_ hMissing⟩
    · rw [encode_eq_head, ← List.append_assoc]
      rfl
    · simp [head]

/-
  Bytes start with an instruction or are unreadable.  Behind
  the byte for wide ones, any of them shows what is missing.
-/
theorem startsCode
    (offset : Nat)
    (byte : UInt8)
    (rest : List UInt8) :
    StartsCode offset (byte :: rest) := by
  cases hByte : Opcode.ofByte? byte with
  | none => exact .inr ⟨_, .unknown byte rest hByte⟩
  | some opcode =>
      have hSame := Opcode.toByte_of_ofByte? hByte
      subst hSame
      by_cases hWide : opcode = .wide
      · subst hWide
        cases rest with
        | nil =>
            have hLegal : Legal
                { offset, opcode := .load .int, wide := true,
                  operands := [0, 0] } := ⟨rfl, rfl⟩
            exact .inr ⟨_, .truncated _ [Opcode.wide.toByte]
              ((Opcode.load .int).toByte :: [0, 0]) hLegal rfl
              (List.cons_ne_nil _ _) (List.cons_ne_nil _ _)⟩
        | cons inner rest =>
            cases hInner : (Opcode.ofByte? inner).bind
                Opcode.localFamily? with
            | none => exact .inr ⟨_, .notLocal inner rest hInner⟩
            | some f =>
                rcases Option.bind_eq_some_iff.mp hInner with
                  ⟨opcode, hOpcode, hFamily⟩
                have hSame := Opcode.toByte_of_ofByte? hOpcode
                subst hSame
                exact startsCode_of_head
                  { offset, opcode, wide := true } 2
                  (fun operands hLength =>
                    ⟨by rw [hFamily]; rfl, hLength⟩) rest
      · exact startsCode_of_head { offset, opcode }
          opcode.operandSize
          (fun operands hLength => ⟨hWide, hLength⟩) rest

end Instruction

------------------------------------------------------------
-- Whole Code
------------------------------------------------------------

/-
  Instructions are laid out if all are legal and each one
  starts where the one before it ends.
-/
theorem laidOut_iff
    {start : Nat}
    {is : List Instruction} :
    LaidOut start is ↔
      (∀ i ∈ is, i.Legal) ∧
        is.map Instruction.offset ++
            [start + (is.flatMap Instruction.encode).length] =
          start :: is.map Instruction.next := by
  induction is generalizing start with
  | nil => simp [LaidOut]
  | cons i is ih =>
      have hEnd : i.offset = start →
          start + ((i :: is).flatMap Instruction.encode).length =
            i.next + (is.flatMap Instruction.encode).length := by
        rintro rfl
        rw [List.flatMap_cons, List.length_append,
          Instruction.length_encode, Instruction.next, Nat.add_assoc]
      rw [LaidOut, ih, List.forall_mem_cons, List.map_cons,
        List.map_cons, List.cons_append, List.cons.injEq]
      constructor
      · rintro ⟨hStart, hLegal, hRest, hOffsets⟩
        rw [hEnd hStart]
        exact ⟨⟨hLegal, hRest⟩, hStart, hOffsets⟩
      · rintro ⟨⟨hLegal, hRest⟩, hStart, hOffsets⟩
        rw [hEnd hStart] at hOffsets
        exact ⟨hStart, hLegal, hRest, hOffsets⟩

/- Instructions tile some bytes up to where none can be read. -/
theorem exists_tiling
    (offset : Nat)
    (bytes : List UInt8) :
    ∃ is rest, LaidOut offset is ∧
      bytes = is.flatMap Instruction.encode ++ rest ∧
      (rest = [] ∨
        ∃ e, Instruction.Unreadable
          (offset + (is.flatMap Instruction.encode).length)
          rest e) := by
  induction hLength : bytes.length using Nat.strongRecOn
    generalizing offset bytes with
  | ind n ih =>
      cases bytes with
      | nil => exact ⟨[], [], trivial, rfl, .inl rfl⟩
      | cons byte bytes =>
          rcases Instruction.startsCode offset byte bytes with
            ⟨i, rest, rfl, hLegal, hBytes, -⟩ | ⟨e, hUnreadable⟩
          · have hFewer : rest.length < n := by
              have hSize := i.size_pos
              rw [← hLength, hBytes, List.length_append,
                Instruction.length_encode]
              omega
            rcases ih _ hFewer i.next rest rfl with
              ⟨is, end', hLaid, hTiled, hEnd⟩
            refine ⟨i :: is, end', ⟨rfl, hLegal, hLaid⟩, ?_, ?_⟩
            · rw [hBytes, hTiled, List.flatMap_cons,
                List.append_assoc]
            · rwa [List.flatMap_cons, List.length_append,
                Instruction.length_encode, ← Nat.add_assoc]
          · exact ⟨[], byte :: bytes, trivial, rfl,
              .inr ⟨e, hUnreadable⟩⟩

theorem decodeFrom_error
    {n offset : Nat}
    {byte : UInt8}
    {bytes : List UInt8}
    {e : DecodeError}
    (acc : List Instruction)
    (hRead : Instruction.decodeAt offset (byte :: bytes) = .error e) :
    decodeFrom (n + 1) offset (byte :: bytes) acc = .error e := by
  rw [decodeFrom]
  · rw [hRead]
    rfl
  · intro hEmpty
    cases hEmpty

/-
  Decoding ends with what is wrong at the first such place.
  Where no bytes are left, nothing is wrong.
-/
theorem LaidOut.decodeFrom_unreadable
    {n offset : Nat}
    {is : List Instruction}
    {rest : List UInt8}
    {e : DecodeError}
    (acc : List Instruction)
    (hLaid : LaidOut offset is)
    (hUnreadable : Instruction.Unreadable
      (offset + (is.flatMap Instruction.encode).length) rest e)
    (hEnough :
      (is.flatMap Instruction.encode ++ rest).length ≤ n) :
    decodeFrom n offset (is.flatMap Instruction.encode ++ rest)
      acc = .error e := by
  induction is generalizing n offset acc with
  | nil =>
      cases rest with
      | nil =>
          cases hUnreadable with
          | truncated _ _ _ _ _ hGiven => exact absurd rfl hGiven
      | cons byte rest =>
          cases n with
          | zero => cases hEnough
          | succ n => exact decodeFrom_error acc hUnreadable.decodeAt_eq
  | cons i is ih =>
      rcases hLaid with ⟨rfl, hLegal, hRest⟩
      have hSize := i.size_pos
      rw [List.flatMap_cons, List.length_append,
        Instruction.length_encode, ← Nat.add_assoc] at hUnreadable
      rw [List.flatMap_cons, List.append_assoc, List.length_append,
        Instruction.length_encode] at hEnough
      cases n with
      | zero => omega
      | succ n =>
          rw [List.flatMap_cons, List.append_assoc,
            decodeFrom_legal hLegal]
          exact ih (i :: acc) hRest hUnreadable (by omega)

theorem LaidOut.decodeCode_unreadable
    {is : List Instruction}
    {rest : List UInt8}
    {e : DecodeError}
    (hLaid : LaidOut 0 is)
    (hUnreadable : Instruction.Unreadable
      (is.flatMap Instruction.encode).length rest e) :
    decodeCode (is.flatMap Instruction.encode ++ rest) =
      .error e := by
  rw [← Nat.zero_add (List.length _)] at hUnreadable
  exact hLaid.decodeFrom_unreadable [] hUnreadable (Nat.le_refl _)

/- Decoding reaches the end of the code or an unreadable place. -/
theorem decodeCode_cases
    (code : List UInt8) :
    (∃ is, code = is.flatMap Instruction.encode ∧
        decodeCode code = .ok is) ∨
      ∃ is rest e, LaidOut 0 is ∧
        code = is.flatMap Instruction.encode ++ rest ∧
        Instruction.Unreadable
          (is.flatMap Instruction.encode).length rest e ∧
        decodeCode code = .error e := by
  rcases exists_tiling 0 code with
    ⟨is, rest, hLaid, rfl, rfl | ⟨e, hUnreadable⟩⟩
  · rw [List.append_nil]
    exact .inl ⟨is, rfl, hLaid.decodeCode_encode⟩
  · rw [Nat.zero_add] at hUnreadable
    exact .inr ⟨is, rest, e, hLaid, rfl, hUnreadable,
      hLaid.decodeCode_unreadable hUnreadable⟩

/- The bytes of decoded instructions are the code. -/
theorem encode_of_decodeCode
    {code : List UInt8}
    {is : List Instruction}
    (hDecode : decodeCode code = .ok is) :
    is.flatMap Instruction.encode = code := by
  rcases decodeCode_cases code with
    ⟨js, hCode, hOk⟩ | ⟨_, _, e, _, _, _, hError⟩
  · rw [hOk, Except.ok.injEq] at hDecode
    rw [hCode, hDecode]
  · rw [hError] at hDecode
    cases hDecode

/-
  Code is decoded into instructions exactly if they are legal,
  their bytes one behind the other are the code, the first one
  starts at zero, each other one at the end of the one before
  it, and the last one ends with the code.  Otherwise decoding
  fails where, behind such instructions, none can be read: at
  an unknown operation, at one that cannot be wide, or because
  bytes are missing.
-/
theorem decodeCode_tiles
    (code : List UInt8) :
    (∀ is, decodeCode code = .ok is ↔
      (∀ i ∈ is, i.Legal) ∧
        is.flatMap Instruction.encode = code ∧
        is.map Instruction.offset ++ [code.length] =
          0 :: is.map Instruction.next) ∧
      ∀ e, decodeCode code = .error e ↔
        ∃ is rest, LaidOut 0 is ∧
          code = is.flatMap Instruction.encode ++ rest ∧
          Instruction.Unreadable
            (is.flatMap Instruction.encode).length rest e := by
  constructor
  · intro is
    constructor
    · intro hDecode
      have hBytes := encode_of_decodeCode hDecode
      rcases laidOut_iff.mp (laidOut_of_decodeCode hDecode) with
        ⟨hLegal, hOffsets⟩
      rw [hBytes, Nat.zero_add] at hOffsets
      exact ⟨hLegal, hBytes, hOffsets⟩
    · rintro ⟨hLegal, rfl, hOffsets⟩
      rw [← Nat.zero_add (List.length _)] at hOffsets
      exact (laidOut_iff.mpr ⟨hLegal, hOffsets⟩).decodeCode_encode
  · intro e
    constructor
    · intro hDecode
      rcases decodeCode_cases code with
        ⟨js, -, hOk⟩ | ⟨is, rest, e', hLaid, hCode, hUnreadable, hError⟩
      · rw [hOk] at hDecode
        cases hDecode
      · rw [hError, Except.error.injEq] at hDecode
        exact ⟨is, rest, hLaid, hCode, hDecode ▸ hUnreadable⟩
    · rintro ⟨is, rest, hLaid, rfl, hUnreadable⟩
      exact hLaid.decodeCode_unreadable hUnreadable

end Stratagem
