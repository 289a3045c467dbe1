import Stratagem.ClassFile.Pool

/-
  Class files.

  A class file holds a constant pool, and everything else in
  it refers to names and types by their index there.

  Key definitions include:
    * `Attribute`
    * `Member`
    * `CodeAttribute`
    * `LocalVariable`
    * `ClassFile`
    * `ClassFile.toBytes`
    * `ClassFile.parse`
-/

namespace Stratagem

------------------------------------------------------------
-- Parts
------------------------------------------------------------

/- Named bytes. -/
structure Attribute where
  name : UInt16
  info : List UInt8
deriving DecidableEq

/- A field or a method. -/
structure Member where
  access : UInt16
  name : UInt16
  descriptor : UInt16
  attributes : List Attribute := []
deriving DecidableEq

/- Where exceptions of a class are caught. -/
structure Handler where
  start : UInt16
  stop : UInt16
  handler : UInt16
  catchType : UInt16
deriving DecidableEq

/- The body of a method. -/
structure CodeAttribute where
  maxStack : UInt16
  maxLocals : UInt16
  code : List UInt8
  handlers : List Handler := []
  attributes : List Attribute := []
deriving DecidableEq

/- The name of a slot for a range of code. -/
structure LocalVariable where
  start : UInt16
  length : UInt16
  name : UInt16
  descriptor : UInt16
  slot : UInt16
deriving DecidableEq

/- A class file. -/
structure ClassFile where
  minor : UInt16 := 0
  major : UInt16
  pool : ConstantPool
  access : UInt16
  thisClass : UInt16
  superClass : UInt16
  interfaces : List UInt16 := []
  fields : List Member := []
  methods : List Member := []
  attributes : List Attribute := []

------------------------------------------------------------
-- Encoding
------------------------------------------------------------

/- Items behind their number, which has sixteen bits. -/
def encodeList
    {α : Type}
    (encode : α → List UInt8)
    (xs : List α) : List UInt8 :=
  bigEndian 2 xs.length ++ xs.flatMap encode

/- The bytes of an attribute. -/
def Attribute.encode
    (a : Attribute) : List UInt8 :=
  be16 a.name ++ bigEndian 4 a.info.length ++ a.info

/- The bytes of a member. -/
def Member.encode
    (m : Member) : List UInt8 :=
  be16 m.access ++ be16 m.name ++ be16 m.descriptor ++
    encodeList Attribute.encode m.attributes

/- The bytes of a handler. -/
def Handler.encode
    (h : Handler) : List UInt8 :=
  be16 h.start ++ be16 h.stop ++ be16 h.handler ++
    be16 h.catchType

/- The bytes of a method body. -/
def CodeAttribute.encode
    (c : CodeAttribute) : List UInt8 :=
  be16 c.maxStack ++ be16 c.maxLocals ++
    bigEndian 4 c.code.length ++ c.code ++
    encodeList Handler.encode c.handlers ++
    encodeList Attribute.encode c.attributes

/- The bytes of a local variable. -/
def LocalVariable.encode
    (v : LocalVariable) : List UInt8 :=
  be16 v.start ++ be16 v.length ++ be16 v.name ++
    be16 v.descriptor ++ be16 v.slot

/- The bytes of a table of local variables. -/
def LocalVariable.encodeTable
    (vs : List LocalVariable) : List UInt8 :=
  encodeList LocalVariable.encode vs

/- The number that every class file starts with. -/
def ClassFile.magic : UInt32 :=
  0xcafebabe

/- The bytes of a class file. -/
def ClassFile.toBytes
    (c : ClassFile) : List UInt8 :=
  be32 ClassFile.magic ++ be16 c.minor ++ be16 c.major ++
    c.pool.encode ++ be16 c.access ++ be16 c.thisClass ++
    be16 c.superClass ++ encodeList be16 c.interfaces ++
    encodeList Member.encode c.fields ++
    encodeList Member.encode c.methods ++
    encodeList Attribute.encode c.attributes

------------------------------------------------------------
-- Decoding
------------------------------------------------------------

namespace Decoder

/- Items behind their number. -/
def list
    {α : Type}
    (d : Decoder α) : Decoder (List α) := do
  let count ← u16
  repeated d count.toNat

/- An attribute. -/
def attributeInfo : Decoder Attribute := do
  let name ← u16
  let length ← u32
  let info ← take length.toNat
  return { name, info }

/- A field or a method. -/
def classMember : Decoder Member := do
  let access ← u16
  let name ← u16
  let descriptor ← u16
  let attributes ← list attributeInfo
  return { access, name, descriptor, attributes }

/- A handler. -/
def handler : Decoder Handler := do
  let start ← u16
  let stop ← u16
  let handler ← u16
  let catchType ← u16
  return { start, stop, handler, catchType }

/- A method body. -/
def codeAttribute : Decoder CodeAttribute := do
  let maxStack ← u16
  let maxLocals ← u16
  let length ← u32
  let code ← take length.toNat
  let handlers ← list handler
  let attributes ← list attributeInfo
  return { maxStack, maxLocals, code, handlers, attributes }

/- A local variable. -/
def localVariable : Decoder LocalVariable := do
  let start ← u16
  let length ← u16
  let name ← u16
  let descriptor ← u16
  let slot ← u16
  return { start, length, name, descriptor, slot }

/- A class file, with nothing behind it. -/
def classFile : Decoder ClassFile := do
  let magic ← u32
  if magic ≠ ClassFile.magic then
    throw (.invalidMagic magic)
  let minor ← u16
  let major ← u16
  let pool ← pool
  let access ← u16
  let thisClass ← u16
  let superClass ← u16
  let interfaces ← list u16
  let fields ← list classMember
  let methods ← list classMember
  let attributes ← list attributeInfo
  if ← hasMore then
    throw (.unexpectedEnd (← position))
  return {
    minor, major, pool, access, thisClass, superClass,
    interfaces, fields, methods, attributes }

end Decoder

/- The method body with given bytes. -/
def CodeAttribute.decode
    (info : List UInt8) : Except DecodeError CodeAttribute :=
  Decoder.codeAttribute.runOn info.toArray

/- The table of local variables with given bytes. -/
def LocalVariable.decodeTable
    (info : List UInt8) :
    Except DecodeError (List LocalVariable) :=
  (Decoder.list Decoder.localVariable).runOn info.toArray

/- The class file with given bytes. -/
def ClassFile.parse
    (bytes : Array UInt8) : Except DecodeError ClassFile :=
  Decoder.classFile.runOn bytes

------------------------------------------------------------
-- Queries
------------------------------------------------------------

namespace ClassFile

/- The name of the class. -/
def thisName?
    (c : ClassFile) : Option String :=
  c.pool.classAt? c.thisClass

/- The name of the class that it extends. -/
def superName?
    (c : ClassFile) : Option String :=
  c.pool.classAt? c.superClass

/- The names of the interfaces that have one. -/
def interfaceNames
    (c : ClassFile) : List String :=
  c.interfaces.filterMap c.pool.classAt?

/- The name of a member. -/
def memberName?
    (c : ClassFile)
    (m : Member) : Option String :=
  c.pool.textAt? m.name

/- The descriptor of a member. -/
def memberDescriptor?
    (c : ClassFile)
    (m : Member) : Option String :=
  c.pool.textAt? m.descriptor

/- The first method with a name and, if given, a descriptor. -/
def findMethod?
    (c : ClassFile)
    (name : String)
    (descriptor : Option String) : Option Member :=
  c.methods.find? fun m =>
    c.memberName? m == some name &&
      descriptor.all (c.memberDescriptor? m == some ·)

/- The first field with a name. -/
def findField?
    (c : ClassFile)
    (name : String) : Option Member :=
  c.fields.find? fun m => c.memberName? m == some name

/- The first attribute with a name. -/
def findAttribute?
    (c : ClassFile)
    (attributes : List Attribute)
    (name : String) : Option Attribute :=
  attributes.find? fun a => c.pool.textAt? a.name == some name

/- The signature among attributes. -/
def signatureIn?
    (c : ClassFile)
    (attributes : List Attribute) : Option String := do
  let a ← c.findAttribute? attributes "Signature"
  match a.info with
  | [hi, lo] =>
      c.pool.textAt? (UInt16.ofNat (ofBigEndian [hi, lo]))
  | _ => none

/- The body of a method, if it has one. -/
def codeOf?
    (c : ClassFile)
    (m : Member) : Option (Except DecodeError CodeAttribute) :=
  (c.findAttribute? m.attributes "Code").map fun a =>
    CodeAttribute.decode a.info

/- The local variables of a method body, if it lists them. -/
def localsOf?
    (c : ClassFile)
    (code : CodeAttribute) :
    Option (Except DecodeError (List LocalVariable)) :=
  (c.findAttribute? code.attributes "LocalVariableTable").map
    fun a => LocalVariable.decodeTable a.info

end ClassFile

end Stratagem
