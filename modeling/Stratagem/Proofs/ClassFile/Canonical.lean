import Stratagem.Proofs.Bytes.Exactness
import Stratagem.Proofs.ClassFile.Lossless

/-
  Which bytes are accepted as class files, and which of these
  are written back as they were.

  Two things are read leniently.  The count before a pool only
  says when reading stops, so a pool may end behind it; and a
  text may be written with more bytes than it needs.  All the
  rest of a file is read from its own encoding only.

  Key definitions include:
    * `Constant.SpelledBy`
    * `ConstantPool.SpelledBy`
    * `ClassFile.Layout`
    * `ClassFile.Layout.Canonical`

  Main declarations:
    * `Constant.SpelledBy.eq_encode_iff`
    * `ClassFile.parse_eq_ok_iff`
    * `ClassFile.written_back_iff`
-/

namespace Stratagem

------------------------------------------------------------
-- Constants
------------------------------------------------------------

namespace Constant

/- Bytes from which a constant is read. -/
inductive SpelledBy : Constant → List UInt8 → Prop
  | text
      {s : String}
      {bytes : List UInt8}
      (hText : ModifiedUtf8.decode? bytes = some s)
      (hShort : bytes.length ≤ 65535) :
      SpelledBy (.text s)
        ([1] ++ (bigEndian 2 bytes.length ++ bytes))
  | other
      {c : Constant}
      (hOther : ∀ s, c ≠ .text s) :
      SpelledBy c c.encode

section Reading

variable {r r' : ByteReader} {c : Constant} {tag : UInt8}

/- A constant that is one number behind a tag. -/
theorem spelledBy_of_number
    {α : Type}
    {d : Decoder α}
    {encodeNumber : α → List UInt8}
    {make : α → Constant}
    (hFinds : Finds d encodeNumber fun _ => True)
    (hEncode : ∀ n, (make n).encode = tag :: encodeNumber n)
    (hOther : ∀ n s, make n ≠ .text s)
    (hRead : Yields (d >>= fun n => pure (make n)) r c r') :
    ∃ bytes, c.SpelledBy bytes ∧
      tag :: r.rest = bytes ++ r'.rest := by
  simp only [yields_bind, yields_pure] at hRead
  rcases hRead with ⟨n, _, hNumber, rfl, rfl⟩
  rcases hFinds hNumber with ⟨hRest, -⟩
  refine ⟨_, .other (hOther n), ?_⟩
  rw [hEncode, hRest, List.cons_append]

/- A constant that is two indices behind a tag. -/
theorem spelledBy_of_indices
    {make : UInt16 → UInt16 → Constant}
    (hEncode : ∀ i j, (make i j).encode =
      tag :: (be16 i ++ be16 j))
    (hOther : ∀ i j s, make i j ≠ .text s)
    (hRead : Yields
      (do let i ← Decoder.u16
          let j ← Decoder.u16
          pure (make i j)) r c r') :
    ∃ bytes, c.SpelledBy bytes ∧
      tag :: r.rest = bytes ++ r'.rest := by
  simp only [yields_bind, yields_pure] at hRead
  rcases hRead with ⟨i, _, hFirst, j, _, hSecond, rfl, rfl⟩
  rcases Finds.u16 hFirst with ⟨hStart, -⟩
  rcases Finds.u16 hSecond with ⟨hRest, -⟩
  refine ⟨_, .other (hOther i j), ?_⟩
  rw [hEncode, hStart, hRest, List.cons_append, List.append_assoc]

/- A constant is read from bytes that spell it. -/
theorem spelledBy_of_yields
    (hRead : Yields Decoder.constant r c r') :
    ∃ bytes, c.SpelledBy bytes ∧ r.rest = bytes ++ r'.rest := by
  simp only [Decoder.constant, Decoder.position, yields_bind,
    yields_get, yields_pure] at hRead
  rcases hRead with
    ⟨offset, _, ⟨_, _, ⟨rfl, rfl⟩, rfl, rfl⟩, tag, _, hTag, hBody⟩
  rcases Finds.u8 hTag with ⟨hStart, -⟩
  rw [hStart]
  split at hBody
  case h_1 =>
      simp only [yields_bind, yields_pure] at hBody
      rcases hBody with ⟨s, _, hText, rfl, rfl⟩
      rcases rest_of_text hText with
        ⟨bytes, hDecoded, hShort, hRest⟩
      refine ⟨_, .text hDecoded hShort, ?_⟩
      simp only [hRest, List.append_assoc]
  case h_2 =>
      exact spelledBy_of_number Finds.u32
        (by simp [encode, Constant.tag, body]) (by simp) hBody
  case h_3 =>
      exact spelledBy_of_number Finds.u32 (fun _ => rfl)
        (by simp) hBody
  case h_4 =>
      exact spelledBy_of_number Finds.u64
        (by simp [encode, Constant.tag, body]) (by simp) hBody
  case h_5 =>
      exact spelledBy_of_number Finds.u64 (fun _ => rfl)
        (by simp) hBody
  case h_6 =>
      exact spelledBy_of_number Finds.u16 (fun _ => rfl)
        (by simp) hBody
  case h_7 =>
      exact spelledBy_of_number Finds.u16 (fun _ => rfl)
        (by simp) hBody
  case h_8 =>
      exact spelledBy_of_indices (fun _ _ => rfl) (by simp) hBody
  case h_9 =>
      exact spelledBy_of_indices (fun _ _ => rfl) (by simp) hBody
  case h_10 =>
      exact spelledBy_of_indices (fun _ _ => rfl) (by simp) hBody
  case h_11 =>
      exact spelledBy_of_indices (fun _ _ => rfl) (by simp) hBody
  case h_12 => exact absurd hBody yields_throw

end Reading

namespace SpelledBy

variable {c : Constant} {bytes : List UInt8}

/- Bytes that spell a constant are read as it. -/
theorem reads
    (hSpelled : c.SpelledBy bytes) :
    Reads Decoder.constant bytes c := by
  cases hSpelled with
  | @text s bytes hText hShort =>
      have hLength : (UInt16.ofNat bytes.length).toNat =
          bytes.length := by
        simpa using Nat.mod_eq_of_lt (Nat.lt_succ_of_le hShort)
      refine Reads.position fun offset => (Reads.u8 1).bind ?_
      refine Reads.bind_pure ?_
      refine (Reads.u16_ofNat _).bind
        (Reads.position fun start => ?_)
      rw [hLength]
      refine (Reads.take bytes).bind_nil ?_
      rw [hText]
      exact Reads.pure s
  | other hOther =>
      refine Constant.reads ?_
      cases c with
      | text s => exact absurd rfl (hOther s)
      | _ => trivial

/- No bytes that spell a constant are fewer than its own. -/
theorem length_encode_le
    (hSpelled : c.SpelledBy bytes) :
    c.encode.length ≤ bytes.length := by
  cases hSpelled with
  | text hText hShort =>
      have hLeast := ModifiedUtf8.encode_shortest hText
      simpa [encode, body, encodeText] using hLeast
  | other hOther => exact Nat.le_refl _

theorem eq_encode
    (hSpelled : c.SpelledBy bytes)
    (hLength : bytes.length ≤ c.encode.length) :
    bytes = c.encode := by
  cases hSpelled with
  | text hText hShort =>
      have hOnly := ModifiedUtf8.eq_encode_of_length hText
        (by simpa [encode, body, encodeText] using hLength)
      rw [hOnly]
      rfl
  | other hOther => rfl

/- The constant's own bytes spell it too. -/
theorem encode_self
    (hSpelled : c.SpelledBy bytes) :
    c.SpelledBy c.encode := by
  cases hSpelled with
  | @text s bytes hText hShort =>
      have hLeast := ModifiedUtf8.encode_shortest hText
      exact .text (ModifiedUtf8.decode?_encode s) (by omega)
  | other hOther => exact .other hOther

/-
  Bytes that spell a constant are its own exactly if none
  that spell it are fewer.
-/
theorem eq_encode_iff
    (hSpelled : c.SpelledBy bytes) :
    bytes = c.encode ↔
      ∀ other, c.SpelledBy other →
        bytes.length ≤ other.length := by
  constructor
  · rintro rfl other hOther
    exact hOther.length_encode_le
  · intro hLeast
    exact hSpelled.eq_encode
      (hLeast c.encode hSpelled.encode_self)

end SpelledBy

end Constant

------------------------------------------------------------
-- Constant Pools
------------------------------------------------------------

namespace ConstantPool

/-
  The bytes of each entry of a pool behind a count.  Reading
  starts an entry as long as the count is not reached, so each
  entry starts below it, and together they reach it.
-/
structure SpelledBy
    (p : ConstantPool)
    (count : Nat)
    (entries : List (List UInt8)) : Prop where
  grown : p = p.constants.foldl append {}
  spelled : List.Forall₂ Constant.SpelledBy p.constants entries
  below : ∀ before c behind,
    p.constants = before ++ c :: behind →
      (before.foldl append {}).entries.size < count
  reached : count ≤ p.entries.size

theorem constants_foldl_append
    (cs : List Constant)
    (p : ConstantPool) :
    (cs.foldl append p).constants = p.constants ++ cs := by
  induction cs generalizing p with
  | nil => simp
  | cons c cs ih => simp [ih]

/- What is read behind the entries of a pool, entry by entry. -/
theorem spelledBy_of_poolEntries
    {count : Nat}
    {p q : ConstantPool}
    {r r' : ByteReader}
    (hRead : Yields (Decoder.poolEntries count q) r p r') :
    ∃ cs entries, p = cs.foldl append q ∧
      List.Forall₂ Constant.SpelledBy cs entries ∧
      (∀ before c behind, cs = before ++ c :: behind →
        (before.foldl append q).entries.size < count) ∧
      count ≤ p.entries.size ∧
      r.rest = entries.flatten ++ r'.rest := by
  induction q using Decoder.poolEntries.induct count
    generalizing r with
  | case1 q hLess ih =>
      rw [Decoder.poolEntries, if_pos hLess, yields_bind] at hRead
      rcases hRead with ⟨c, _, hOne, hMore⟩
      rcases Constant.spelledBy_of_yields hOne with
        ⟨bytes, hSpelled, hStart⟩
      rcases ih c hMore with
        ⟨cs, entries, rfl, hAll, hBelow, hReached, hRest⟩
      refine ⟨c :: cs, bytes :: entries, rfl, .cons hSpelled hAll,
        ?_, hReached, ?_⟩
      · intro before d behind hCons
        cases before with
        | nil => exact hLess
        | cons b before =>
            cases hCons
            exact hBelow before d behind rfl
      · rw [hStart, hRest, List.flatten_cons, List.append_assoc]
  | case2 q hDone =>
      rw [Decoder.poolEntries, if_neg hDone, yields_pure] at hRead
      rcases hRead with ⟨rfl, rfl⟩
      exact ⟨[], [], rfl, .nil, by simp, by omega, rfl⟩

/- A pool is read from a count and bytes that spell it. -/
theorem spelledBy_of_yields
    {p : ConstantPool}
    {r r' : ByteReader}
    (hRead : Yields Decoder.pool r p r') :
    ∃ (count : UInt16) (entries : List (List UInt8)),
      p.SpelledBy count.toNat entries ∧
      r.rest = be16 count ++ entries.flatten ++ r'.rest := by
  simp only [Decoder.pool, yields_bind] at hRead
  rcases hRead with ⟨count, _, hCount, hEntries⟩
  rcases Finds.u16 hCount with ⟨hStart, -⟩
  rcases spelledBy_of_poolEntries hEntries with
    ⟨cs, entries, rfl, hAll, hBelow, hReached, hRest⟩
  have hConstants : (cs.foldl append {}).constants = cs := by
    rw [constants_foldl_append]
    simp [constants]
  refine ⟨count, entries, ⟨?_, ?_, ?_, hReached⟩, ?_⟩
  · rw [hConstants]
  · rwa [hConstants]
  · rwa [hConstants]
  · rw [hStart, hRest, List.append_assoc]

/- Entries are read as long as the count is not reached. -/
theorem reads_poolEntries_of_spelled
    {count : Nat}
    {cs : List Constant}
    {entries : List (List UInt8)}
    (hSpelled : List.Forall₂ Constant.SpelledBy cs entries)
    (q : ConstantPool)
    (hBelow : ∀ before c behind, cs = before ++ c :: behind →
      (before.foldl append q).entries.size < count)
    (hReached : count ≤ (cs.foldl append q).entries.size) :
    Reads (Decoder.poolEntries count q) entries.flatten
      (cs.foldl append q) := by
  induction hSpelled generalizing q with
  | nil =>
      have hDone : ¬ q.entries.size < count :=
        Nat.not_lt.mpr hReached
      rw [Decoder.poolEntries, if_neg hDone]
      exact Reads.pure q
  | @cons c bytes cs entries hOne hAll ih =>
      have hLess : q.entries.size < count := hBelow [] c cs rfl
      rw [Decoder.poolEntries, if_pos hLess, List.flatten_cons]
      refine hOne.reads.bind (ih (q.append c) ?_ hReached)
      intro before d behind hCons
      exact hBelow (c :: before) d behind (by rw [hCons]; rfl)

namespace SpelledBy

variable {p : ConstantPool} {entries : List (List UInt8)}

theorem reads
    {count : UInt16}
    (hSpelled : p.SpelledBy count.toNat entries) :
    Reads Decoder.pool (be16 count ++ entries.flatten) p := by
  have hReached := hSpelled.reached
  refine (Reads.u16 count).bind ?_
  rw [hSpelled.grown] at hReached ⊢
  exact reads_poolEntries_of_spelled hSpelled.spelled {}
    hSpelled.below hReached

/- A pool has one index beyond its count at most. -/
theorem size_le
    {count : Nat}
    (hSpelled : p.SpelledBy count entries) :
    p.entries.size ≤ count + 1 := by
  rw [hSpelled.grown]
  rcases List.eq_nil_or_concat p.constants with
    hNone | ⟨before, c, hLast⟩
  · rw [hNone]
    simp
  · rw [List.concat_eq_append] at hLast
    have hBelow := hSpelled.below before c [] hLast
    have hWidth : c.width ≤ 2 := by
      unfold Constant.width
      split <;> omega
    rw [hLast, List.foldl_append]
    change ((before.foldl append {}).append c).entries.size ≤ _
    rw [size_append]
    omega

/- The count that is written is the one that was read. -/
theorem count_eq_iff
    {count : UInt16}
    (hSpelled : p.SpelledBy count.toNat entries) :
    p.count = count ↔ count.toNat = p.entries.size := by
  have hReached := hSpelled.reached
  have hClose := hSpelled.size_le
  have hSmall := count.toNat_lt
  have hCount : p.count.toNat = p.entries.size % 2 ^ 16 :=
    UInt16.toNat_ofNat'
  rw [← UInt16.toNat_inj, hCount]
  omega

end SpelledBy

end ConstantPool

/- Bytes that spell constants are at least as many as theirs. -/
theorem length_flatMap_encode_le
    {cs : List Constant}
    {entries : List (List UInt8)}
    (hSpelled : List.Forall₂ Constant.SpelledBy cs entries) :
    (cs.flatMap Constant.encode).length ≤
      entries.flatten.length := by
  induction hSpelled with
  | nil => simp
  | cons hOne hAll ih =>
      have hLeast := hOne.length_encode_le
      rw [List.flatMap_cons, List.flatten_cons, List.length_append,
        List.length_append]
      omega

/-
  Bytes that spell constants are those that are written for
  them exactly if each constant has the fewest bytes.  None
  can have fewer than are written for it.
-/
theorem flatten_eq_iff
    {cs : List Constant}
    {entries : List (List UInt8)}
    (hSpelled : List.Forall₂ Constant.SpelledBy cs entries) :
    entries.flatten = cs.flatMap Constant.encode ↔
      ∀ pair ∈ cs.zip entries, ∀ other,
        pair.1.SpelledBy other → pair.2.length ≤ other.length := by
  induction hSpelled with
  | nil => simp
  | @cons c bytes cs entries hOne hAll ih =>
      rw [List.flatMap_cons, List.flatten_cons, List.zip_cons_cons,
        List.forall_mem_cons, ← ih, ← hOne.eq_encode_iff]
      constructor
      · intro hSame
        have hLeast := hOne.length_encode_le
        have hMore := length_flatMap_encode_le hAll
        have hLengths := congrArg List.length hSame
        rw [List.length_append, List.length_append] at hLengths
        exact List.append_inj hSame (by omega)
      · rintro ⟨rfl, hRest⟩
        rw [hRest]

------------------------------------------------------------
-- Parts
------------------------------------------------------------

section Parts

variable {r r' : ByteReader}

theorem Finds.list
    {α : Type}
    {d : Decoder α}
    {encode : α → List UInt8}
    {Kind : α → Prop}
    (hFinds : Finds d encode Kind) :
    Finds (Decoder.list d) (encodeList encode) fun xs =>
      xs.length ≤ 65535 ∧ ∀ x ∈ xs, Kind x := by
  intro r xs r' hRead
  simp only [Decoder.list, yields_bind] at hRead
  rcases hRead with ⟨count, _, hCount, hItems⟩
  rcases Finds.u16 hCount with ⟨hStart, -⟩
  rcases hFinds.repeated hItems with ⟨hLength, hRest, hKinds⟩
  have hSmall := count.toNat_lt
  refine ⟨?_, by omega, hKinds⟩
  rw [hStart, hRest, encodeList, hLength, be16, List.append_assoc]

theorem Attribute.finds :
    Finds Decoder.attributeInfo Attribute.encode
      Attribute.Writable := by
  intro r a r' hRead
  simp only [Decoder.attributeInfo, yields_bind, yields_pure]
    at hRead
  rcases hRead with
    ⟨name, _, hName, length, _, hLength, info, _, hInfo, rfl, rfl⟩
  rcases Finds.u16 hName with ⟨hStart, -⟩
  rcases Finds.u32 hLength with ⟨hNext, -⟩
  rcases rest_of_take hInfo with ⟨hCount, hRest⟩
  refine ⟨?_, ?_⟩
  · simp only [hStart, hNext, hRest, Attribute.encode, hCount, be32,
      List.append_assoc]
  · rw [Attribute.Writable, hCount]
    exact length.toNat_lt

theorem Attribute.finds_list :
    Finds (Decoder.list Decoder.attributeInfo)
      (encodeList Attribute.encode) AttributesWritable := by
  intro r as r' hRead
  rcases Attribute.finds.list hRead with ⟨hRest, hFew, hEach⟩
  exact ⟨hRest, hFew, hEach⟩

theorem Member.finds :
    Finds Decoder.classMember Member.encode fun m =>
      AttributesWritable m.attributes := by
  intro r m r' hRead
  simp only [Decoder.classMember, yields_bind, yields_pure]
    at hRead
  rcases hRead with
    ⟨access, _, hAccess, name, _, hName, descriptor, _, hDescriptor,
      attributes, _, hAttributes, rfl, rfl⟩
  rcases Finds.u16 hAccess with ⟨hFirst, -⟩
  rcases Finds.u16 hName with ⟨hSecond, -⟩
  rcases Finds.u16 hDescriptor with ⟨hThird, -⟩
  rcases Attribute.finds_list hAttributes with ⟨hRest, hWritable⟩
  refine ⟨?_, hWritable⟩
  simp only [hFirst, hSecond, hThird, hRest, Member.encode,
    List.append_assoc]

end Parts

------------------------------------------------------------
-- Class Files
------------------------------------------------------------

namespace ClassFile

/- The bytes of all that stands behind the pool. -/
def encodeBehindPool
    (c : ClassFile) : List UInt8 :=
  be16 c.access ++ be16 c.thisClass ++ be16 c.superClass ++
    encodeList be16 c.interfaces ++
    encodeList Member.encode c.fields ++
    encodeList Member.encode c.methods ++
    encodeList Attribute.encode c.attributes

/-
  How a class file stands in bytes: the count of its pool, the
  bytes of each entry, and its own encoding for all the rest.
-/
structure Layout
    (c : ClassFile)
    (bytes : List UInt8) where
  count : UInt16
  entries : List (List UInt8)
  pool : c.pool.SpelledBy count.toNat entries
  countable : c.Countable
  whole : bytes =
    be32 magic ++ be16 c.minor ++ be16 c.major ++
      (be16 count ++ entries.flatten) ++ c.encodeBehindPool

/-
  A layout whose count is that of the indices in the pool, and
  in which no entry could be written with fewer bytes.
-/
structure Layout.Canonical
    {c : ClassFile}
    {bytes : List UInt8}
    (l : c.Layout bytes) : Prop where
  count : l.count.toNat = c.pool.entries.size
  entries : ∀ pair ∈ c.pool.constants.zip l.entries, ∀ other,
    pair.1.SpelledBy other → pair.2.length ≤ other.length

variable {c : ClassFile} {bytes : List UInt8}

/- A decoder that ends where no byte is left has read them all. -/
theorem rest_of_not_hasMore
    {r r' : ByteReader}
    {more : Bool}
    (hLook : Yields Decoder.hasMore r more r')
    (hNone : ¬ more = true) :
    r.rest = [] := by
  simp only [Decoder.hasMore, yields_bind, yields_get,
    yields_pure] at hLook
  rcases hLook with ⟨_, _, ⟨rfl, rfl⟩, rfl, rfl⟩
  simp only [ByteReader.hasMore, decide_eq_true_eq] at hNone
  rw [ByteReader.rest, List.drop_eq_nil_iff, Array.length_toList]
  omega

/- What is accepted has a layout. -/
theorem exists_layout
    (hParse : parse bytes.toArray = .ok c) :
    Nonempty (c.Layout bytes) := by
  have hAll : bytes = (ByteReader.mk bytes.toArray 0).rest := by
    simp [ByteReader.rest]
  have hRead : ∃ r', Yields Decoder.classFile
      { data := bytes.toArray } c r' :=
    ⟨_, Prod.ext hParse rfl⟩
  simp only [Decoder.classFile, yields_bind] at hRead
  rcases hRead with ⟨_, first, _, hMagic, hRead⟩
  split at hRead
  case isTrue => simp at hRead
  case isFalse hFirst =>
      rw [ne_eq, not_not] at hFirst
      subst hFirst
      simp only [yields_bind] at hRead
      rcases hRead with
        ⟨minor, _, hMinor, major, _, hMajor, pool, _, hPool,
          access, _, hAccess, thisClass, _, hThis,
          superClass, _, hSuper, interfaces, _, hInterfaces,
          fields, _, hFields, methods, _, hMethods,
          attributes, _, hAttributes, more, _, hMore, hEnd⟩
      split at hEnd
      case isTrue => simp at hEnd
      case isFalse hNone =>
          rw [yields_pure] at hEnd
          rcases hEnd with ⟨rfl, rfl⟩
          rcases ConstantPool.spelledBy_of_yields hPool with
            ⟨count, entries, hSpelled, hPoolRest⟩
          rcases Finds.u16.list hInterfaces with
            ⟨hInterfacesRest, hFewInterfaces, -⟩
          rcases Member.finds.list hFields with
            ⟨hFieldsRest, hFewFields, hEachField⟩
          rcases Member.finds.list hMethods with
            ⟨hMethodsRest, hFewMethods, hEachMethod⟩
          rcases Attribute.finds_list hAttributes with
            ⟨hAttributesRest, hWritable⟩
          refine ⟨{
            count, entries
            pool := hSpelled
            countable :=
              ⟨hFewInterfaces, hFewFields, hFewMethods,
                List.forall_mem_append.mpr
                  ⟨hEachField, hEachMethod⟩, hWritable⟩
            whole := ?_ }⟩
          rw [hAll]
          simp only [(Finds.u32 hMagic).1, (Finds.u16 hMinor).1,
            (Finds.u16 hMajor).1, hPoolRest, (Finds.u16 hAccess).1,
            (Finds.u16 hThis).1, (Finds.u16 hSuper).1,
            hInterfacesRest, hFieldsRest, hMethodsRest,
            hAttributesRest, rest_of_not_hasMore hMore hNone,
            encodeBehindPool, List.append_assoc, List.append_nil]

/- What has a layout is accepted. -/
theorem Layout.parse_eq_ok
    (l : c.Layout bytes) :
    parse bytes.toArray = .ok c := by
  have hParse := parse_around_pool l.pool.reads
    l.countable.interfaces l.countable.fields l.countable.methods
    l.countable.members l.countable.attributes
  rw [l.whole]
  simpa only [encodeBehindPool, List.append_assoc] using hParse

/-
  What is written is what was read exactly if the layout is
  canonical.
-/
theorem Layout.toBytes_eq_iff
    (l : c.Layout bytes) :
    c.toBytes = bytes ↔ l.Canonical := by
  have hBytes : c.toBytes =
      be32 magic ++ be16 c.minor ++ be16 c.major ++
        c.pool.encode ++ c.encodeBehindPool := by
    simp only [toBytes, encodeBehindPool, List.append_assoc]
  have hPool : c.toBytes = bytes ↔
      c.pool.encode = be16 l.count ++ l.entries.flatten := by
    conv => lhs; rw [hBytes, l.whole]
    rw [List.append_left_inj, List.append_right_inj]
  rw [hPool, ConstantPool.encode]
  constructor
  · intro hSame
    rcases List.append_inj hSame (by simp [be16]) with
      ⟨hCount, hEntries⟩
    exact ⟨l.pool.count_eq_iff.mp (be16_injective hCount),
      (flatten_eq_iff l.pool.spelled).mp hEntries.symm⟩
  · intro hCanonical
    rw [l.pool.count_eq_iff.mpr hCanonical.count,
      (flatten_eq_iff l.pool.spelled).mpr hCanonical.entries]

/- The bytes of a class file are those that have a layout. -/
theorem parse_eq_ok_iff :
    parse bytes.toArray = .ok c ↔ Nonempty (c.Layout bytes) :=
  ⟨exists_layout, fun ⟨l⟩ => l.parse_eq_ok⟩

/-
  A file that is accepted is written back as it was exactly if
  its count is that of its pool and its texts have no byte too
  many.
-/
theorem written_back_iff
    (hParse : parse bytes.toArray = .ok c) :
    Nonempty (c.Layout bytes) ∧
      ∀ l : c.Layout bytes, c.toBytes = bytes ↔ l.Canonical := by
  refine ⟨parse_eq_ok_iff.mp hParse, ?_⟩
  intro l
  exact l.toBytes_eq_iff

------------------------------------------------------------
-- Samples
------------------------------------------------------------

/- A file with a count and a pool, and with nothing else in it. -/
def bareFile
    (count : UInt8)
    (pool : List UInt8) : List UInt8 :=
  [0xca, 0xfe, 0xba, 0xbe, 0, 0, 0, 52, 0, count] ++ pool ++
    [0, 1] ++ List.replicate 12 0

theorem exists_parse
    {written : List UInt8}
    (hRun : (parse bytes.toArray).toOption.map toBytes =
      some written) :
    ∃ c, parse bytes.toArray = .ok c ∧ c.toBytes = written := by
  rcases Option.map_eq_some_iff.mp hRun with ⟨c, hOk, hWritten⟩
  refine ⟨c, ?_, hWritten⟩
  cases hParse : parse bytes.toArray with
  | error e => simp [hParse, Except.toOption] at hOk
  | ok d =>
      rw [hParse] at hOk
      cases hOk
      rfl

/- A letter in one byte. -/
theorem shortLetter_written_back :
    ∃ c, parse (bareFile 2 [1, 0, 1, 0x41]).toArray = .ok c ∧
      ∃ l : c.Layout (bareFile 2 [1, 0, 1, 0x41]),
        l.Canonical := by
  have hRun :
      (parse (bareFile 2 [1, 0, 1, 0x41]).toArray).toOption.map
        toBytes = some (bareFile 2 [1, 0, 1, 0x41]) := by
    decide +kernel
  rcases exists_parse hRun with ⟨c, hParse, hSame⟩
  rcases written_back_iff hParse with ⟨⟨l⟩, hIff⟩
  exact ⟨c, hParse, l, (hIff l).mp hSame⟩

/- A pool with a count of zero. -/
def countlessFile : List UInt8 :=
  bareFile 0 []

/- A number of eight bytes at the last index below the count. -/
def overrunFile : List UInt8 :=
  bareFile 2 [5, 0, 0, 0, 0, 0, 0, 0, 7]

/- A letter in two bytes. -/
def longLetterFile : List UInt8 :=
  bareFile 2 [1, 0, 2, 0xc1, 0x81]

theorem lenient_files_not_written_back :
    (∃ c, parse countlessFile.toArray = .ok c ∧
      c.toBytes = bareFile 1 [] ∧
      c.toBytes ≠ countlessFile) ∧
    (∃ c, parse overrunFile.toArray = .ok c ∧
      c.toBytes = bareFile 3 [5, 0, 0, 0, 0, 0, 0, 0, 7] ∧
      c.toBytes ≠ overrunFile) ∧
    (∃ c, parse longLetterFile.toArray = .ok c ∧
      c.toBytes = bareFile 2 [1, 0, 1, 0x41] ∧
      c.toBytes ≠ longLetterFile) := by
  have hOther : ∀ {bytes written : List UInt8},
      (parse bytes.toArray).toOption.map toBytes = some written →
      written ≠ bytes →
      ∃ c, parse bytes.toArray = .ok c ∧ c.toBytes = written ∧
        c.toBytes ≠ bytes := by
    intro bytes written hRun hOther
    rcases exists_parse hRun with ⟨c, hParse, rfl⟩
    exact ⟨c, hParse, rfl, hOther⟩
  refine ⟨hOther ?_ ?_, hOther ?_ ?_, hOther ?_ ?_⟩ <;>
    decide +kernel

end ClassFile

end Stratagem
