import Stratagem.ClassFile.Pool
import Stratagem.Code.Opcode

/-
  Instructions and their bytes.

  Key definitions include:
    * `Instruction`
    * `Instruction.encode`
    * `Instruction.target?`
    * `Instruction.constant?`
    * `Instruction.slot?`
    * `Instruction.decodeAt`
    * `decodeCode`
-/

namespace Stratagem

------------------------------------------------------------
-- Instructions
------------------------------------------------------------

/-
  An operation at an offset, with its operands.  A wide
  instruction names its slot by two bytes.
-/
structure Instruction where
  offset : Nat
  opcode : Opcode
  wide : Bool := false
  operands : List UInt8 := []

namespace Instruction

/- How many bytes an instruction takes. -/
def size
    (i : Instruction) : Nat :=
  (if i.wide then 2 else 1) + i.operands.length

/- The offset behind an instruction. -/
def next
    (i : Instruction) : Nat :=
  i.offset + i.size

/- The bytes of an instruction. -/
def encode
    (i : Instruction) : List UInt8 :=
  (if i.wide then [Opcode.wide.toByte] else []) ++
    i.opcode.toByte :: i.operands

/- The first two operands as a number. -/
def word?
    (i : Instruction) : Option UInt16 :=
  match i.operands with
  | hi :: lo :: _ => some (UInt16.ofNat (ofBigEndian [hi, lo]))
  | _ => none

/- The offset that a jump goes to. -/
def target?
    (i : Instruction) : Option Int :=
  if i.opcode.isBranch then
    i.word?.map fun w => i.offset + w.toInt16.toInt
  else
    none

/- The index of the constant that an instruction uses. -/
def constant?
    (i : Instruction) : Option UInt16 :=
  if i.opcode = .ldc then
    i.operands.head?.map UInt8.toUInt16
  else if i.opcode.takesConstant then
    i.word?
  else
    none

/- Slot and width of the local that an instruction uses. -/
def slot?
    (i : Instruction) : Option (Nat × Nat) :=
  match i.opcode.shortSlot?, i.opcode.localFamily? with
  | some place, _ => some place
  | none, some f =>
      if i.wide then
        i.word?.map fun w => (w.toNat, f.slots)
      else
        i.operands.head?.map fun b => (b.toNat, f.slots)
  | none, none => none

/- The operands in words. -/
def displayOperands
    (i : Instruction)
    (p : ConstantPool) : String :=
  match i.target?, i.constant?, i.slot? with
  | some target, _, _ => s!" {target}"
  | none, some index, _ =>
      s!" #{index.toNat} // " ++ p.describe index
  | none, none, some (slot, _) =>
      if i.opcode.shortSlot?.isNone then s!" {slot}" else ""
  | none, none, none =>
      match i.opcode, i.operands with
      | .bipush, b :: _ => s!" {b.toInt8.toInt}"
      | .sipush, _ => s!" {(i.word?.getD 0).toInt16.toInt}"
      | _, _ => ""

/- An instruction as a line of a listing. -/
def display
    (i : Instruction)
    (p : ConstantPool) : String :=
  String.ofList
      (Text.padLeft 5 ' ' (Nat.toDigits 10 i.offset)) ++
    ": " ++ (if i.wide then "wide " else "") ++
    i.opcode.mnemonic ++ i.displayOperands p

end Instruction

------------------------------------------------------------
-- Decoding
------------------------------------------------------------

/-
  The first `count` bytes and the bytes behind them, or the
  end of the code at an offset.
-/
def operandsAt
    (offset count : Nat)
    (bytes : List UInt8) :
    Except DecodeError (List UInt8 × List UInt8) :=
  let operands := bytes.take count
  if operands.length = count then
    .ok (operands, bytes.drop count)
  else
    .error (.unexpectedEnd offset)

/- The instruction at an offset, and the bytes behind it. -/
def Instruction.decodeAt
    (offset : Nat) :
    List UInt8 → Except DecodeError (Instruction × List UInt8)
  | [] => .error (.unexpectedEnd offset)
  | byte :: rest =>
      match Opcode.ofByte? byte with
      | none => .error (.invalidOpcode byte offset)
      | some .wide =>
          match rest with
          | [] => .error (.unexpectedEnd (offset + 1))
          | inner :: rest =>
              match Opcode.ofByte? inner with
              | some opcode =>
                  if opcode.localFamily?.isSome then
                    (operandsAt (offset + 2) 2 rest).map
                      fun (operands, rest) =>
                        ({ offset, opcode, wide := true,
                            operands }, rest)
                  else
                    .error (.invalidOpcode inner (offset + 1))
              | none =>
                  .error (.invalidOpcode inner (offset + 1))
      | some opcode =>
          (operandsAt (offset + 1) opcode.operandSize rest).map
            fun (operands, rest) =>
              ({ offset, opcode, operands }, rest)

/-
  Instructions behind those already read, which are kept in
  reverse.  Every instruction takes a byte, so the number of
  bytes bounds the number of steps.
-/
def decodeFrom : Nat → Nat → List UInt8 → List Instruction →
    Except DecodeError (List Instruction)
  | _, _, [], acc => .ok acc.reverse
  | 0, offset, _ :: _, _ => .error (.unexpectedEnd offset)
  | n + 1, offset, bytes, acc => do
      let (i, rest) ← Instruction.decodeAt offset bytes
      decodeFrom n i.next rest (i :: acc)

/- The instructions of a piece of code. -/
def decodeCode
    (code : List UInt8) :
    Except DecodeError (List Instruction) :=
  decodeFrom code.length 0 code []

end Stratagem
