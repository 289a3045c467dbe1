import Stratagem.ClassFile.Basic
import Stratagem.Proofs.Bytes.RoundTrip
import Stratagem.Proofs.ClassFile.PoolGrowth

/-
  Class files are read back as they were written.

  Key definitions include:
    * `Attribute.Writable`
    * `AttributesWritable`
    * `CodeAttribute.Writable`
    * `ClassFile.Writable`

  Main declarations:
    * `ConstantPool.Sound.reads`
    * `CodeAttribute.decode_encode`
    * `ClassFile.parse_toBytes`
-/

namespace Stratagem

------------------------------------------------------------
-- Constant Pools
------------------------------------------------------------

theorem Constant.reads
    {c : Constant}
    (hShort : c.IsShort) :
    Reads Decoder.constant c.encode c := by
  refine Reads.position fun offset => ?_
  rw [Constant.encode, ← List.singleton_append]
  refine (Reads.u8 c.tag).bind ?_
  cases c with
  | text s => exact (Reads.text hShort).bind_pure
  | integer n =>
      have hRead := (Reads.u32 n.toUInt32).bind_pure
        (f := fun m => Constant.integer m.toInt32)
      have hBack : n.toUInt32.toInt32 = n := by simp
      rw [hBack] at hRead
      exact hRead
  | float x => exact (Reads.u32 x.bits).bind_pure
  | long n =>
      have hRead := (Reads.u64 n.toUInt64).bind_pure
        (f := fun m => Constant.long m.toInt64)
      have hBack : n.toUInt64.toInt64 = n := by simp
      rw [hBack] at hRead
      exact hRead
  | double x => exact (Reads.u64 x.bits).bind_pure
  | classRef name => exact (Reads.u16 name).bind_pure
  | string value => exact (Reads.u16 value).bind_pure
  | member kind owner pair =>
      cases kind with
      | field =>
          exact (Reads.u16 owner).bind (Reads.u16 pair).bind_pure
      | method =>
          exact (Reads.u16 owner).bind (Reads.u16 pair).bind_pure
      | interfaceMethod =>
          exact (Reads.u16 owner).bind (Reads.u16 pair).bind_pure
  | nameAndType name descriptor =>
      exact (Reads.u16 name).bind (Reads.u16 descriptor).bind_pure

namespace ConstantPool

/-
  Reading constants appends them one by one, just as they were
  appended when they were added.
-/
theorem reads_poolEntries
    {count : Nat}
    (cs : List Constant)
    (p : ConstantPool)
    (hShort : ∀ c ∈ cs, c.IsShort)
    (hCount : (cs.foldl append p).entries.size = count) :
    Reads (Decoder.poolEntries count p)
      (cs.flatMap Constant.encode) (cs.foldl append p) := by
  induction cs generalizing p with
  | nil =>
      rw [Decoder.poolEntries, if_neg (by simp_all)]
      exact Reads.pure p
  | cons c cs ih =>
      have hGrows :
          ∀ (ds : List Constant) (q : ConstantPool),
            q.entries.size ≤ (ds.foldl append q).entries.size := by
        intro ds
        induction ds with
        | nil => simp
        | cons d ds ihSize =>
            intro q
            have hStep := q.size_lt_size_append d
            have hRest := ihSize (q.append d)
            simp only [List.foldl_cons]
            omega
      have hLess : p.entries.size < count := by
        have hStep := p.size_lt_size_append c
        have hRest := hGrows cs (p.append c)
        simp only [List.foldl_cons] at hCount
        omega
      rw [Decoder.poolEntries, if_pos hLess]
      refine (Constant.reads (hShort c List.mem_cons_self)).bind ?_
      exact ih (p.append c)
        (fun d hd => hShort d (List.mem_cons_of_mem c hd)) hCount

theorem Sound.reads
    {p : ConstantPool}
    (hSound : p.Sound) :
    Reads Decoder.pool p.encode p := by
  have hCount : p.count.toNat = p.entries.size := by
    simpa [count] using
      Nat.mod_eq_of_lt (Nat.lt_succ_of_le hSound.small)
  refine (Reads.u16 p.count).bind ?_
  have hEntries :=
    reads_poolEntries p.constants {} hSound.short rfl
  rw [← hSound.grown] at hEntries
  rw [hCount]
  exact hEntries

end ConstantPool

------------------------------------------------------------
-- Parts
------------------------------------------------------------

/- Items come back if their number fits into two bytes. -/
theorem Reads.list
    {α : Type}
    {d : Decoder α}
    {encode : α → List UInt8}
    {xs : List α}
    (hShort : xs.length ≤ 65535)
    (hEach : ∀ x ∈ xs, Reads d (encode x) x) :
    Reads (Decoder.list d) (encodeList encode xs) xs := by
  have hLength : (UInt16.ofNat xs.length).toNat = xs.length := by
    simpa using Nat.mod_eq_of_lt (Nat.lt_succ_of_le hShort)
  refine (Reads.u16_ofNat xs.length).bind ?_
  rw [hLength]
  exact Reads.repeated hEach

/- An attribute whose length fits into four bytes. -/
def Attribute.Writable
    (a : Attribute) : Prop :=
  a.info.length < 2 ^ 32

theorem Attribute.Writable.reads
    {a : Attribute}
    (hWritable : a.Writable) :
    Reads Decoder.attributeInfo a.encode a := by
  have hLength :
      (UInt32.ofNat a.info.length).toNat = a.info.length := by
    simpa using Nat.mod_eq_of_lt hWritable
  rw [Attribute.encode, List.append_assoc]
  refine (Reads.u16 a.name).bind ((Reads.u32_ofNat _).bind ?_)
  rw [hLength]
  exact (Reads.take a.info).bind_pure

/- Attributes that can be counted and written. -/
structure AttributesWritable
    (as : List Attribute) : Prop where
  few : as.length ≤ 65535
  each : ∀ a ∈ as, a.Writable

theorem AttributesWritable.reads
    {as : List Attribute}
    (hWritable : AttributesWritable as) :
    Reads (Decoder.list Decoder.attributeInfo)
      (encodeList Attribute.encode as) as :=
  Reads.list hWritable.few fun a ha => (hWritable.each a ha).reads

theorem Member.reads
    {m : Member}
    (hWritable : AttributesWritable m.attributes) :
    Reads Decoder.classMember m.encode m := by
  simp only [Member.encode, List.append_assoc]
  exact (Reads.u16 m.access).bind <| (Reads.u16 m.name).bind <|
    (Reads.u16 m.descriptor).bind hWritable.reads.bind_pure

theorem Handler.reads
    (h : Handler) :
    Reads Decoder.handler h.encode h := by
  simp only [Handler.encode, List.append_assoc]
  exact (Reads.u16 h.start).bind <| (Reads.u16 h.stop).bind <|
    (Reads.u16 h.handler).bind (Reads.u16 h.catchType).bind_pure

/- A method body whose parts can be counted and written. -/
structure CodeAttribute.Writable
    (c : CodeAttribute) : Prop where
  code : c.code.length < 2 ^ 32
  handlers : c.handlers.length ≤ 65535
  attributes : AttributesWritable c.attributes

/- A method body is read back as it was written. -/
theorem CodeAttribute.decode_encode
    {c : CodeAttribute}
    (hWritable : c.Writable) :
    CodeAttribute.decode c.encode = .ok c := by
  have hLength :
      (UInt32.ofNat c.code.length).toNat = c.code.length := by
    simpa using Nat.mod_eq_of_lt hWritable.code
  apply ReadsLast.runOn
  apply Reads.last
  simp only [CodeAttribute.encode, List.append_assoc]
  refine (Reads.u16 c.maxStack).bind <|
    (Reads.u16 c.maxLocals).bind ((Reads.u32_ofNat _).bind ?_)
  rw [hLength]
  exact (Reads.take c.code).bind <|
    (Reads.list hWritable.handlers fun h _ => h.reads).bind
      hWritable.attributes.reads.bind_pure

------------------------------------------------------------
-- Class Files
------------------------------------------------------------

/- A class file whose parts can be counted and written. -/
structure ClassFile.Writable
    (c : ClassFile) : Prop where
  pool : c.pool.Sound
  interfaces : c.interfaces.length ≤ 65535
  fields : c.fields.length ≤ 65535
  methods : c.methods.length ≤ 65535
  members : ∀ m ∈ c.fields ++ c.methods,
    AttributesWritable m.attributes
  attributes : AttributesWritable c.attributes

/-
  A class file is read from bytes from which its pool is read,
  with the encoding of its other parts around them.
-/
theorem ClassFile.parse_around_pool
    {c : ClassFile}
    {poolBytes : List UInt8}
    (hPool : Reads Decoder.pool poolBytes c.pool)
    (hInterfaces : c.interfaces.length ≤ 65535)
    (hFields : c.fields.length ≤ 65535)
    (hMethods : c.methods.length ≤ 65535)
    (hMembers : ∀ m ∈ c.fields ++ c.methods,
      AttributesWritable m.attributes)
    (hAttributes : AttributesWritable c.attributes) :
    ClassFile.parse
        (be32 ClassFile.magic ++ be16 c.minor ++ be16 c.major ++
          poolBytes ++ be16 c.access ++ be16 c.thisClass ++
          be16 c.superClass ++ encodeList be16 c.interfaces ++
          encodeList Member.encode c.fields ++
          encodeList Member.encode c.methods ++
          encodeList Attribute.encode c.attributes).toArray =
      .ok c := by
  have hEachField : ∀ m ∈ c.fields,
      Reads Decoder.classMember m.encode m := fun m hm =>
    Member.reads (hMembers m (List.mem_append_left _ hm))
  have hEachMethod : ∀ m ∈ c.methods,
      Reads Decoder.classMember m.encode m := fun m hm =>
    Member.reads (hMembers m (List.mem_append_right _ hm))
  apply ReadsLast.runOn
  simp only [List.append_assoc]
  refine ReadsLast.bind (Reads.u32 ClassFile.magic) ?_
  rw [if_neg (by simp)]
  refine ReadsLast.bind (Reads.u16 c.minor) ?_
  refine ReadsLast.bind (Reads.u16 c.major) ?_
  refine ReadsLast.bind hPool ?_
  refine ReadsLast.bind (Reads.u16 c.access) ?_
  refine ReadsLast.bind (Reads.u16 c.thisClass) ?_
  refine ReadsLast.bind (Reads.u16 c.superClass) ?_
  refine ReadsLast.bind
    (Reads.list hInterfaces fun n _ => Reads.u16 n) ?_
  refine ReadsLast.bind (Reads.list hFields hEachField) ?_
  refine ReadsLast.bind (Reads.list hMethods hEachMethod) ?_
  rw [← List.append_nil (encodeList Attribute.encode c.attributes)]
  refine ReadsLast.bind hAttributes.reads ?_
  refine ReadsLast.hasMore ?_
  exact (Reads.pure c).last

/- A class file is read back as it was written. -/
theorem ClassFile.parse_toBytes
    {c : ClassFile}
    (hWritable : c.Writable) :
    ClassFile.parse c.toBytes.toArray = .ok c :=
  parse_around_pool hWritable.pool.reads hWritable.interfaces
    hWritable.fields hWritable.methods hWritable.members
    hWritable.attributes

end Stratagem
