import Stratagem.ClassFile.Basic
import Stratagem.Code.Instruction

/-
  Class files in words.

  Key definitions include:
    * `ClassFile.display`
-/

namespace Stratagem

namespace ClassFile

/- Flags as four hexadecimal digits. -/
def displayFlags
    (flags : UInt16) : String :=
  "flags 0x" ++ Text.paddedHex 4 flags.toNat

/- The name and the descriptor of a member. -/
def displayMember
    (c : ClassFile)
    (m : Member)
    (separator : String) : String :=
  (c.memberName? m).getD "?" ++ separator ++
    (c.memberDescriptor? m).getD "?" ++ " // " ++
    displayFlags m.access

/- A local variable. -/
def displayLocal
    (c : ClassFile)
    (v : LocalVariable) : String :=
  let name := (c.pool.textAt? v.name).getD "?"
  let descriptor := (c.pool.textAt? v.descriptor).getD "?"
  let start := v.start.toNat
  let stop := v.start.toNat + v.length.toNat
  s!"    local {name} {descriptor} slot {v.slot.toNat} " ++
    s!"[{start}, {stop})"

/- The lines of a method body. -/
def codeLines
    (c : ClassFile)
    (code : CodeAttribute) : List String :=
  let stack := code.maxStack.toNat
  let locals := code.maxLocals.toNat
  let instructions :=
    match decodeCode code.code with
    | .ok is => is.map fun i => "    " ++ i.display c.pool
    | .error e => [s!"    // undecodable code: {e.message}"]
  let table :=
    match c.localsOf? code with
    | some (.ok vs) => vs.map c.displayLocal
    | _ => []
  s!"    stack={stack}, locals={locals}" ::
    instructions ++ table

/- The lines of a method. -/
def methodLines
    (c : ClassFile)
    (m : Member) : List String :=
  let signature :=
    (c.signatureIn? m.attributes).toList.map
      ("    signature " ++ ·)
  let body :=
    match c.codeOf? m with
    | some (.ok code) => c.codeLines code
    | some (.error e) =>
        [s!"    // bad Code attribute: {e.message}"]
    | none => []
  "" :: ("  method " ++ c.displayMember m "") ::
    signature ++ body

/- The lines of a class file. -/
def lines
    (c : ClassFile) : List String :=
  let name := c.thisName?.getD "?"
  let superName := c.superName?.getD "?"
  let major := c.major.toNat
  (s!"class {name} extends {superName} // version {major}, " ++
      displayFlags c.access) ::
    c.interfaceNames.map ("  implements " ++ ·) ++
    (c.signatureIn? c.attributes).toList.map
      ("  signature " ++ ·) ++
    c.fields.map (fun f => "  field " ++ c.displayMember f " ") ++
    c.methods.flatMap c.methodLines

/- A class file in words, line by line. -/
def display
    (c : ClassFile) : String :=
  String.join (c.lines.map (· ++ "\n"))

end ClassFile

end Stratagem
