/-
  Operation codes.

  Only the operations that generated code uses are known.
  Loads, stores, constants and returns come in families, one
  for each sort of value.

  Key definitions include:
    * `Family`
    * `Opcode`
    * `Opcode.toByte`
    * `Opcode.ofByte?`
    * `Opcode.mnemonic`
    * `Opcode.operandSize`
-/

namespace Stratagem

------------------------------------------------------------
-- Families
------------------------------------------------------------

/- Sorts of values that operations tell apart. -/
inductive Family where
  | int
  | long
  | float
  | double
  | ref
deriving DecidableEq

namespace Family

/- All families, in the order of their operations. -/
def all : List Family :=
  [.int, .long, .float, .double, .ref]

/- The position of a family's operation in its group. -/
def index : Family → Nat
  | .int => 0
  | .long => 1
  | .float => 2
  | .double => 3
  | .ref => 4

/- The letter that a family's operations start with. -/
def letter : Family → String
  | .int => "i"
  | .long => "l"
  | .float => "f"
  | .double => "d"
  | .ref => "a"

/- Slots that a value takes. -/
def slots : Family → Nat
  | .long => 2
  | .double => 2
  | _ => 1

end Family

------------------------------------------------------------
-- Operations
------------------------------------------------------------

/-
  An operation.  `iconst k` pushes `k - 1`, the other short
  constants push their number, and a short load or store
  names one of the first four slots.
-/
inductive Opcode where
  | nop
  | aconstNull
  | iconst (k : Fin 7)
  | lconst (k : Fin 2)
  | fconst (k : Fin 3)
  | dconst (k : Fin 2)
  | bipush
  | sipush
  | ldc
  | ldcW
  | ldc2W
  | load (f : Family)
  | loadShort (f : Family) (slot : Fin 4)
  | store (f : Family)
  | storeShort (f : Family) (slot : Fin 4)
  | pop
  | pop2
  | dup
  | dupX1
  | swap
  | ifeq
  | ifne
  | goto
  | returnValue (f : Family)
  | returnVoid
  | getstatic
  | putstatic
  | getfield
  | putfield
  | invokevirtual
  | invokespecial
  | invokestatic
  | invokeinterface
  | new
  | athrow
  | checkcast
  | instanceof
  | wide
  | ifnull
  | ifnonnull
deriving DecidableEq

namespace Opcode

/- Loads or stores of the first four slots. -/
def shorts
    (op : Family → Fin 4 → Opcode) : List Opcode :=
  Family.all.flatMap fun f => (List.finRange 4).map (op f)

/- All operations. -/
def all : List Opcode :=
  List.flatten
    [ [nop, aconstNull],
      (List.finRange 7).map iconst,
      (List.finRange 2).map lconst,
      (List.finRange 3).map fconst,
      (List.finRange 2).map dconst,
      [bipush, sipush, ldc, ldcW, ldc2W],
      Family.all.map load,
      shorts loadShort,
      Family.all.map store,
      shorts storeShort,
      [pop, pop2, dup, dupX1, swap, ifeq, ifne, goto],
      Family.all.map returnValue,
      [returnVoid, getstatic, putstatic, getfield, putfield],
      [invokevirtual, invokespecial, invokestatic],
      [invokeinterface, new, athrow, checkcast, instanceof],
      [wide, ifnull, ifnonnull] ]

/- The number of an operation. -/
def code : Opcode → Nat
  | .nop => 0x00
  | .aconstNull => 0x01
  | .iconst k => 0x02 + k
  | .lconst k => 0x09 + k
  | .fconst k => 0x0b + k
  | .dconst k => 0x0e + k
  | .bipush => 0x10
  | .sipush => 0x11
  | .ldc => 0x12
  | .ldcW => 0x13
  | .ldc2W => 0x14
  | .load f => 0x15 + f.index
  | .loadShort f slot => 0x1a + 4 * f.index + slot
  | .store f => 0x36 + f.index
  | .storeShort f slot => 0x3b + 4 * f.index + slot
  | .pop => 0x57
  | .pop2 => 0x58
  | .dup => 0x59
  | .dupX1 => 0x5a
  | .swap => 0x5f
  | .ifeq => 0x99
  | .ifne => 0x9a
  | .goto => 0xa7
  | .returnValue f => 0xac + f.index
  | .returnVoid => 0xb1
  | .getstatic => 0xb2
  | .putstatic => 0xb3
  | .getfield => 0xb4
  | .putfield => 0xb5
  | .invokevirtual => 0xb6
  | .invokespecial => 0xb7
  | .invokestatic => 0xb8
  | .invokeinterface => 0xb9
  | .new => 0xbb
  | .athrow => 0xbf
  | .checkcast => 0xc0
  | .instanceof => 0xc1
  | .wide => 0xc4
  | .ifnull => 0xc6
  | .ifnonnull => 0xc7

/- The byte of an operation. -/
def toByte
    (op : Opcode) : UInt8 :=
  UInt8.ofNat op.code

/- The operation of every byte that has one. -/
def table : Array (Option Opcode) :=
  (Array.range 256).map fun n =>
    all.find? fun op => op.code == n

/- The operation with a byte. -/
def ofByte?
    (b : UInt8) : Option Opcode :=
  table[b.toNat]?.join

/- The name of an operation. -/
def mnemonic : Opcode → String
  | .nop => "nop"
  | .aconstNull => "aconst_null"
  | .iconst k =>
      if k = 0 then "iconst_m1" else s!"iconst_{k.val - 1}"
  | .lconst k => s!"lconst_{k.val}"
  | .fconst k => s!"fconst_{k.val}"
  | .dconst k => s!"dconst_{k.val}"
  | .bipush => "bipush"
  | .sipush => "sipush"
  | .ldc => "ldc"
  | .ldcW => "ldc_w"
  | .ldc2W => "ldc2_w"
  | .load f => f.letter ++ "load"
  | .loadShort f slot => f.letter ++ s!"load_{slot.val}"
  | .store f => f.letter ++ "store"
  | .storeShort f slot => f.letter ++ s!"store_{slot.val}"
  | .pop => "pop"
  | .pop2 => "pop2"
  | .dup => "dup"
  | .dupX1 => "dup_x1"
  | .swap => "swap"
  | .ifeq => "ifeq"
  | .ifne => "ifne"
  | .goto => "goto"
  | .returnValue f => f.letter ++ "return"
  | .returnVoid => "return"
  | .getstatic => "getstatic"
  | .putstatic => "putstatic"
  | .getfield => "getfield"
  | .putfield => "putfield"
  | .invokevirtual => "invokevirtual"
  | .invokespecial => "invokespecial"
  | .invokestatic => "invokestatic"
  | .invokeinterface => "invokeinterface"
  | .new => "new"
  | .athrow => "athrow"
  | .checkcast => "checkcast"
  | .instanceof => "instanceof"
  | .wide => "wide"
  | .ifnull => "ifnull"
  | .ifnonnull => "ifnonnull"

------------------------------------------------------------
-- Classes of Operations
------------------------------------------------------------

/- Operations that name a constant of the pool by two bytes. -/
def takesConstant : Opcode → Bool
  | .ldcW => true
  | .ldc2W => true
  | .getstatic => true
  | .putstatic => true
  | .getfield => true
  | .putfield => true
  | .invokevirtual => true
  | .invokespecial => true
  | .invokestatic => true
  | .invokeinterface => true
  | .new => true
  | .checkcast => true
  | .instanceof => true
  | _ => false

/- Jumps. -/
def isBranch : Opcode → Bool
  | .ifeq => true
  | .ifne => true
  | .goto => true
  | .ifnull => true
  | .ifnonnull => true
  | _ => false

/- Operations that leave the method with or without a value. -/
def isReturn : Opcode → Bool
  | .returnValue _ => true
  | .returnVoid => true
  | _ => false

/- Operations that never go on with the next one. -/
def isTerminator
    (op : Opcode) : Bool :=
  op.isReturn || op == .goto || op == .athrow

/- Calls. -/
def isInvoke : Opcode → Bool
  | .invokevirtual => true
  | .invokespecial => true
  | .invokestatic => true
  | .invokeinterface => true
  | _ => false

/- The family of a load or store that names its slot. -/
def localFamily? : Opcode → Option Family
  | .load f => some f
  | .store f => some f
  | _ => none

/- Slot and width of a short load or store. -/
def shortSlot? : Opcode → Option (Nat × Nat)
  | .loadShort f slot => some (slot, f.slots)
  | .storeShort f slot => some (slot, f.slots)
  | _ => none

/- How many bytes follow an operation. -/
def operandSize
    (op : Opcode) : Nat :=
  match op with
  | .bipush => 1
  | .ldc => 1
  | .load _ => 1
  | .store _ => 1
  | .sipush => 2
  | .invokeinterface => 4
  | .wide => 3
  | _ => if op.isBranch || op.takesConstant then 2 else 0

end Opcode

end Stratagem
