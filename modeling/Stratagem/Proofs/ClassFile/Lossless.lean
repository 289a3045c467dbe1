import Stratagem.Proofs.ClassFile.RoundTrip

/-
  Class files whose pool was filled entry by entry lose
  nothing when they are written and read.

  Whatever is asked of a pool, and whether or not it has room
  for it, the pool stays sound; and sound pools are read back.
  A long or a double takes two indices when it is added, and
  again when it is read.

  Key definitions include:
    * `Entry`
    * `Entry.add`
    * `ConstantPool.ofEntries`
    * `ClassFile.Countable`

  Main declarations:
    * `ConstantPool.sound_ofEntries`
    * `LocalVariable.decodeTable_encodeTable`
    * `written_files_read_back`
-/

namespace Stratagem

------------------------------------------------------------
-- Filling a Pool
------------------------------------------------------------

/- What a pool can be asked to hold. -/
inductive Entry where
  | text (value : String)
  | integer (value : Int32)
  | float (value : Binary32)
  | long (value : Int64)
  | double (value : Binary64)
  | classRef (name : String)
  | string (value : String)
  | nameAndType (name descriptor : String)
  | member (kind : MemberKind) (owner name descriptor : String)

/- The index of an entry, with all that it refers to. -/
def Entry.add : Entry → Pooling UInt16
  | .text s => Pooling.text s
  | .integer n => Pooling.add (.integer n)
  | .float x => Pooling.add (.float x)
  | .long n => Pooling.add (.long n)
  | .double x => Pooling.add (.double x)
  | .classRef name => Pooling.classRef name
  | .string s => Pooling.string s
  | .nameAndType name descriptor =>
      Pooling.nameAndType name descriptor
  | .member kind owner name descriptor =>
      Pooling.member kind owner name descriptor

theorem Entry.grows
    (e : Entry) :
    Pooling.Grows e.add := by
  cases e with
  | text s => exact Pooling.grows_text s
  | classRef name => exact Pooling.grows_classRef name
  | string s => exact Pooling.grows_string s
  | nameAndType name descriptor =>
      exact Pooling.grows_nameAndType name descriptor
  | member kind owner name descriptor =>
      exact Pooling.grows_member kind owner name descriptor
  | _ =>
      apply Pooling.grows_add
      exact trivial

namespace ConstantPool

/- The pool after one more entry, there was room for it or not. -/
def put
    (p : ConstantPool)
    (e : Entry) : ConstantPool :=
  (outcomeOf e.add p).2

/- The pool that was asked to hold entries, one by one. -/
def ofEntries
    (es : List Entry) : ConstantPool :=
  es.foldl put {}

theorem grown_put
    (p : ConstantPool)
    (e : Entry) :
    p.Grown (p.put e) :=
  e.grows p

theorem grown_foldl_put
    (es : List Entry)
    (p : ConstantPool) :
    p.Grown (es.foldl put p) := by
  induction es generalizing p with
  | nil => exact Grown.refl p
  | cons e es ih =>
      exact (p.grown_put e).trans (ih (p.put e))

/- However a pool was filled, it is sound. -/
theorem sound_ofEntries
    (es : List Entry) :
    (ofEntries es).Sound :=
  (grown_foldl_put es {}).sound sound_empty

end ConstantPool

------------------------------------------------------------
-- Tables of Local Variables
------------------------------------------------------------

theorem LocalVariable.reads
    (v : LocalVariable) :
    Reads Decoder.localVariable v.encode v := by
  simp only [LocalVariable.encode, List.append_assoc]
  exact (Reads.u16 v.start).bind <| (Reads.u16 v.length).bind <|
    (Reads.u16 v.name).bind <| (Reads.u16 v.descriptor).bind
      (Reads.u16 v.slot).bind_pure

theorem LocalVariable.decodeTable_encodeTable
    {vs : List LocalVariable}
    (hFew : vs.length ≤ 65535) :
    LocalVariable.decodeTable (LocalVariable.encodeTable vs) =
      .ok vs := by
  apply ReadsLast.runOn
  apply Reads.last
  exact Reads.list hFew fun v _ => v.reads

------------------------------------------------------------
-- Whole Files
------------------------------------------------------------

/- A class file whose lists and attributes can be counted. -/
structure ClassFile.Countable
    (c : ClassFile) : Prop where
  interfaces : c.interfaces.length ≤ 65535
  fields : c.fields.length ≤ 65535
  methods : c.methods.length ≤ 65535
  members : ∀ m ∈ c.fields ++ c.methods,
    AttributesWritable m.attributes
  attributes : AttributesWritable c.attributes

theorem ClassFile.Countable.writable
    {c : ClassFile}
    (hCountable : c.Countable)
    (hSound : c.pool.Sound) :
    c.Writable where
  pool := hSound
  interfaces := hCountable.interfaces
  fields := hCountable.fields
  methods := hCountable.methods
  members := hCountable.members
  attributes := hCountable.attributes

/-
  A class file over a pool that was filled entry by entry is
  read back with its header, its whole pool and all its parts;
  and so are method bodies and tables of local variables.
-/
theorem written_files_read_back :
    (∀ (c : ClassFile) (es : List Entry),
      c.pool = ConstantPool.ofEntries es → c.Countable →
        ClassFile.parse c.toBytes.toArray = .ok c) ∧
    (∀ code : CodeAttribute, code.Writable →
      CodeAttribute.decode code.encode = .ok code) ∧
    (∀ vs : List LocalVariable, vs.length ≤ 65535 →
      LocalVariable.decodeTable (LocalVariable.encodeTable vs) =
        .ok vs) := by
  refine ⟨?_, ?_, ?_⟩
  · intro c es hPool hCountable
    have hSound : c.pool.Sound := by
      rw [hPool]
      exact ConstantPool.sound_ofEntries es
    exact ClassFile.parse_toBytes (hCountable.writable hSound)
  · intro code hWritable
    exact CodeAttribute.decode_encode hWritable
  · intro vs hFew
    exact LocalVariable.decodeTable_encodeTable hFew

/-
  A pool with a long before a class, and a character that
  takes two units.
-/
def wideSampleEntries : List Entry :=
  [.long 7, .classRef "a/😀", .double ⟨0⟩, .text "x"]

/- A field with an attribute in it. -/
def wideSampleField : Member :=
  { access := 1, name := 7, descriptor := 7
    attributes := [{ name := 7, info := [1, 2, 3] }] }

def wideSample : ClassFile :=
  { major := 52
    pool := ConstantPool.ofEntries wideSampleEntries
    access := 1
    thisClass := 4
    superClass := 0
    interfaces := [4]
    fields := [wideSampleField] }

/- A body that returns, and one name for a slot of it. -/
def wideSampleCode : CodeAttribute :=
  { maxStack := 0, maxLocals := 1, code := [177]
    handlers := [{ start := 0, stop := 1, handler := 0, catchType := 0 }]
    attributes := [{ name := 7, info := [0, 0] }] }

def wideSampleLocal : LocalVariable :=
  { start := 0, length := 1, name := 7, descriptor := 7, slot := 0 }

theorem wideSample_countable :
    wideSample.Countable where
  interfaces := by decide
  fields := by decide
  methods := by decide
  members := by
    intro m hm
    have hField : m = wideSampleField := by
      simpa [wideSample] using hm
    rw [hField]
    refine ⟨by decide, ?_⟩
    intro a ha
    have hOne : a = { name := 7, info := [1, 2, 3] } := by
      simpa [wideSampleField] using ha
    rw [hOne]
    show 3 < 2 ^ 32
    decide
  attributes := ⟨by decide, by simp [wideSample]⟩

theorem wideSampleCode_writable :
    wideSampleCode.Writable where
  code := by decide
  handlers := by decide
  attributes := by
    refine ⟨by decide, ?_⟩
    intro a ha
    have hOne : a = { name := 7, info := [0, 0] } := by
      simpa [wideSampleCode] using ha
    rw [hOne]
    show 2 < 2 ^ 32
    decide

theorem wideSample_read_back :
    (wideSample.pool = ConstantPool.ofEntries wideSampleEntries ∧
      wideSample.Countable ∧
      ClassFile.parse wideSample.toBytes.toArray =
        .ok wideSample) ∧
    (wideSampleCode.Writable ∧
      CodeAttribute.decode wideSampleCode.encode =
        .ok wideSampleCode) ∧
    LocalVariable.decodeTable
        (LocalVariable.encodeTable [wideSampleLocal]) =
      .ok [wideSampleLocal] :=
  ⟨⟨rfl, wideSample_countable,
      written_files_read_back.1 _ wideSampleEntries rfl
        wideSample_countable⟩,
    ⟨wideSampleCode_writable,
      written_files_read_back.2.1 _ wideSampleCode_writable⟩,
    written_files_read_back.2.2 _ (by decide)⟩

end Stratagem
