import Stratagem.Proofs.Assembly.Chart
import Stratagem.Proofs.ClassFile.RoundTrip

/-
  Finished methods.

  The tables of a method are short enough to be written, and
  the code of a finished draft is the code that is known of the
  draft.

  Key definitions include:
    * `FinishedMethod`
    * `Member.Holds`

  Main declarations:
    * `MethodDraft.finish_holds`
    * `Charted.finish`
-/

namespace Stratagem

open Jvm

------------------------------------------------------------
-- Frames
------------------------------------------------------------

namespace Frame

theorem grows_encodeType
    (v : VType) :
    Pooling.Grows (encodeType v) := by
  cases v with
  | object name =>
      exact (Pooling.grows_classRef name).bind fun _ =>
        Pooling.grows_pure _
  | _ => exact Pooling.grows_pure _

theorem grows_encodeTypes
    (vs : List VType) :
    Pooling.Grows (encodeTypes vs) :=
  (Pooling.grows_mapM vs grows_encodeType).bind fun _ =>
    Pooling.grows_pure _

theorem grows_encode
    (f : Frame)
    (delta : UInt16) :
    Pooling.Grows (f.encode delta) :=
  (grows_encodeTypes _).bind fun _ =>
    (grows_encodeTypes _).bind fun _ => Pooling.grows_pure _

theorem grows_encodeFrom
    (fs : List Frame)
    (previous : Option UInt16) :
    Pooling.Grows (encodeFrom previous fs) := by
  induction fs generalizing previous with
  | nil => exact Pooling.grows_pure _
  | cons f fs ih =>
      exact (grows_encode f _).bind fun _ => (ih _).bind fun _ =>
        Pooling.grows_pure _

theorem grows_encodeTable
    (fs : List Frame) :
    Pooling.Grows (encodeTable fs) :=
  (grows_encodeFrom fs none).bind fun _ => Pooling.grows_pure _

variable {p q : ConstantPool} {bytes : List UInt8}

theorem length_encodeType
    {v : VType}
    (hRun : Yields (encodeType v) p bytes q) :
    bytes.length ≤ 3 := by
  cases v with
  | object name =>
      simp only [encodeType, yields_bind, yields_pure] at hRun
      rcases hRun with ⟨_, _, _, rfl, _⟩
      simp [be16]
  | _ =>
      rcases yields_pure.mp hRun with ⟨rfl, _⟩
      simp

theorem length_encodeTypes
    {vs : List VType}
    (hRun : Yields (encodeTypes vs) p bytes q) :
    bytes.length ≤ 2 + 3 * vs.length := by
  simp only [encodeTypes, yields_bind, yields_pure] at hRun
  rcases hRun with ⟨bodies, q', hBodies, rfl, -⟩
  have hLength : bodies.flatten.length ≤ 3 * vs.length := by
    induction vs generalizing p bodies with
    | nil =>
        rcases yields_pure.mp hBodies with ⟨rfl, _⟩
        exact Nat.le_refl 0
    | cons v vs ih =>
        rw [List.mapM_cons] at hBodies
        simp only [yields_bind, yields_pure] at hBodies
        rcases hBodies with ⟨body, _, hOne, rest, _, hRest, rfl, rfl⟩
        have hFirst := length_encodeType hOne
        have hMore := ih rest hRest
        simp only [List.flatten_cons, List.length_append,
          List.length_cons]
        omega
  simp only [List.length_append, length_bigEndian]
  omega

theorem length_dropFillers
    (vs : List VType) :
    (dropFillers vs).length ≤ vs.length := by
  induction vs using dropFillers.induct with
  | case1 => simp [dropFillers]
  | case2 rest ih =>
      simp only [dropFillers, List.length_cons]
      simp only [List.length_tail] at ih
      omega
  | case3 rest ih =>
      simp only [dropFillers, List.length_cons]
      simp only [List.length_tail] at ih
      omega
  | case4 v rest hLong hDouble ih =>
      rw [dropFillers.eq_4 _ _ hLong hDouble]
      simp only [List.length_cons]
      omega

theorem length_compactLocals
    (f : Frame) :
    f.compactLocals.length ≤ f.locals.length := by
  have hTops : ∀ vs : List VType,
      (dropTrailingTops vs).length ≤ vs.length := by
    intro vs
    have hDrop := (List.dropWhile_sublist
      (l := vs.reverse) (· == VType.top)).length_le
    simpa [dropTrailingTops] using hDrop
  exact Nat.le_trans (hTops _) (length_dropFillers _)

/- A frame for so many slots whose stack is empty. -/
theorem length_encodeFrom
    {fs : List Frame}
    {previous : Option UInt16}
    (hEach : ∀ f ∈ fs, f.locals.length ≤ 65535 ∧ f.stack = [])
    (hRun : Yields (encodeFrom previous fs) p bytes q) :
    bytes.length ≤ 196612 * fs.length := by
  induction fs generalizing p bytes previous with
  | nil =>
      rcases yields_pure.mp hRun with ⟨rfl, _⟩
      exact Nat.le_refl 0
  | cons f fs ih =>
      simp only [encodeFrom, encode, yields_bind, yields_pure]
        at hRun
      rcases hRun with ⟨_, _, ⟨locals, _, hLocals, stack, _, hStack,
        rfl, rfl⟩, more, _, hMore, rfl, rfl⟩
      rcases hEach f List.mem_cons_self with ⟨hFew, hEmpty⟩
      rw [hEmpty] at hStack
      have hOne := length_encodeTypes hLocals
      have hTwo := length_encodeTypes hStack
      have hCompact := f.length_compactLocals
      have hRest := ih (fun g hg =>
        hEach g (List.mem_cons_of_mem f hg)) hMore
      simp only [List.length_append, List.length_cons, be16,
        length_bigEndian, List.length_nil] at hTwo ⊢
      omega

end Frame

------------------------------------------------------------
-- Tables
------------------------------------------------------------

namespace MethodDraft

theorem mem_dropRepeats
    {f : Frame}
    {fs : List Frame}
    (hIn : f ∈ dropRepeats fs) :
    f ∈ fs := by
  induction fs using dropRepeats.induct with
  | case1 g h rest hSame ih =>
      rw [dropRepeats, if_pos hSame] at hIn
      rcases List.mem_cons.mp (ih hIn) with rfl | hRest
      · exact List.mem_cons_self
      · exact List.mem_cons_of_mem _ (List.mem_cons_of_mem _ hRest)
  | case2 g h rest hOther ih =>
      rw [dropRepeats, if_neg hOther] at hIn
      rcases List.mem_cons.mp hIn with rfl | hRest
      · exact List.mem_cons_self
      · exact List.mem_cons_of_mem _ (ih hRest)
  | case3 fs hShort =>
      rw [dropRepeats.eq_2 _ hShort] at hIn
      exact hIn

theorem length_dropRepeats
    (fs : List Frame) :
    (dropRepeats fs).length ≤ fs.length := by
  induction fs using dropRepeats.induct with
  | case1 g h rest hSame ih =>
      rw [dropRepeats, if_pos hSame]
      simp only [List.length_cons] at ih ⊢
      omega
  | case2 g h rest hOther ih =>
      rw [dropRepeats, if_neg hOther]
      simp only [List.length_cons] at ih ⊢
      omega
  | case3 fs hShort =>
      exact Nat.le_of_eq
        (congrArg List.length (dropRepeats.eq_2 _ hShort))

variable {m : MethodDraft}

theorem length_frames
    (m : MethodDraft) :
    m.frames.length ≤ m.labels.size := by
  have hRepeats := length_dropRepeats
    ((m.labels.toList.filterMap frameAt?).mergeSort
      fun f g => f.offset ≤ g.offset)
  have hFilter := List.length_filterMap_le frameAt?
    m.labels.toList
  rw [List.length_mergeSort] at hRepeats
  rw [Array.length_toList] at hFilter
  exact Nat.le_trans hRepeats hFilter

/- The labels that have a frame, and what it is. -/
theorem frameAt?_eq_some
    {state : LabelState}
    {f : Frame} :
    frameAt? state = some f ↔
      state.targeted = true ∧ ∃ x e,
        state.offset = some x ∧ state.entry = some e ∧
        f = {
          offset := UInt16.ofNat x
          locals := e.slots.toList
          stack := e.stack.reverse } := by
  unfold frameAt?
  split
  case h_1 offset entry hTargeted hOffset hEntry =>
      rw [hTargeted, hOffset, hEntry]
      simp [eq_comm]
  case h_2 hOther =>
      refine iff_of_false nofun ?_
      rintro ⟨hTargeted, x, e, hOffset, hEntry, -⟩
      exact hOther x e hTargeted hOffset hEntry

/- Every frame is what is known at some label. -/
theorem exists_label
    {f : Frame}
    (hIn : f ∈ m.frames) :
    ∃ state ∈ m.labels.toList, ∃ entry,
      state.entry = some entry ∧ f.locals = entry.slots.toList ∧
        f.stack = entry.stack.reverse := by
  have hSorted := mem_dropRepeats hIn
  rw [List.mem_mergeSort] at hSorted
  rcases List.mem_filterMap.mp hSorted with ⟨state, hState, hFrame⟩
  rcases frameAt?_eq_some.mp hFrame with
    ⟨-, _, entry, -, hEntry, rfl⟩
  exact ⟨state, hState, entry, hEntry, rfl, rfl⟩

theorem grows_signatureAttribute
    (signature : String) :
    Pooling.Grows (signatureAttribute signature) :=
  (Pooling.grows_text _).bind fun _ =>
    (Pooling.grows_text _).bind fun _ => Pooling.grows_pure _

theorem grows_localEntry
    (size start : Nat)
    (v : LocalVar) :
    Pooling.Grows (localEntry size start v) := by
  refine (Pooling.grows_text _).bind fun _ => ?_
  cases v.ty.descriptor with
  | error e => exact Pooling.grows_throw _
  | ok d =>
      exact (Pooling.grows_text _).bind fun _ =>
        Pooling.grows_pure _

theorem grows_localEntries
    (size : Nat)
    (vs : List LocalVar) :
    Pooling.Grows (localEntries size vs) := by
  induction vs with
  | nil => exact Pooling.grows_pure _
  | cons v vs ih =>
      unfold localEntries
      split
      case h_1 start _ =>
          split
          case isTrue =>
              exact (grows_localEntry size start v).bind fun _ =>
                ih.bind fun _ => Pooling.grows_pure _
          case isFalse => exact ih
      case h_2 => exact ih

theorem length_localEntries
    {size : Nat}
    {vs : List LocalVar}
    {entries : List LocalVariable}
    {p q : ConstantPool}
    (hRun : Yields (localEntries size vs) p entries q) :
    entries.length ≤ vs.length := by
  induction vs generalizing p q entries with
  | nil =>
      rcases yields_pure.mp hRun with ⟨rfl, _⟩
      exact Nat.le_refl 0
  | cons v vs ih =>
      unfold localEntries at hRun
      split at hRun
      case h_1 start _ =>
          split at hRun
          case isTrue =>
              simp only [yields_bind, yields_pure] at hRun
              rcases hRun with ⟨_, _, _, more, _, hMore, rfl, _⟩
              have hRest := ih hMore
              simp only [List.length_cons]
              omega
          case isFalse =>
              have hRest := ih hRun
              simp only [List.length_cons]
              omega
      case h_2 =>
          have hRest := ih hRun
          simp only [List.length_cons]
          omega

/- The table of locals is one short attribute or none. -/
theorem localTable_spec
    {size : Nat}
    {p q : ConstantPool}
    {table : List Attribute}
    (hSound : m.Sound)
    (hRun : Yields (m.localTable size) p table q) :
    p.Grown q ∧ table.length ≤ 1 ∧
      ∀ a ∈ table, a.info.length ≤ 655352 := by
  unfold localTable at hRun
  rw [yields_bind] at hRun
  rcases hRun with ⟨entries, p₁, hEntries, hRun⟩
  have hGrown := (grows_localEntries size _).of_yields hEntries
  have hLength := length_localEntries hEntries
  have hFew : m.locals.toList.length ≤ 65535 := by
    have hTypes := Ty.length_le_widths m.types
    have hSmall := hSound.small
    have hLength : m.types.length = m.locals.toList.length :=
      List.length_map _
    rw [hSound.size] at hSmall
    omega
  split at hRun
  case h_1 =>
      rcases yields_pure.mp hRun with ⟨rfl, rfl⟩
      exact ⟨hGrown, Nat.zero_le 1, nofun⟩
  case h_2 =>
      simp only [yields_bind, yields_pure] at hRun
      rcases hRun with ⟨name, p₂, hName, rfl, rfl⟩
      refine ⟨hGrown.trans
        ((Pooling.grows_text _).of_yields hName), Nat.le_refl 1, ?_⟩
      intro a ha
      cases List.mem_singleton.mp ha
      have hEach : ∀ vs : List LocalVariable,
          (vs.flatMap LocalVariable.encode).length =
            10 * vs.length := by
        intro vs
        induction vs with
        | nil => rfl
        | cons v vs ih =>
            simp only [List.flatMap_cons, List.length_append, ih,
              LocalVariable.encode, be16, length_bigEndian,
              List.length_cons]
            omega
      simp only [LocalVariable.encodeTable, encodeList,
        List.length_append, length_bigEndian, hEach]
      omega

/- The table of frames is one short attribute or none. -/
theorem frameTable_spec
    {p q : ConstantPool}
    {table : List Attribute}
    (hSound : m.Sound)
    (hFew : 4 * m.labels.size ≤ 65535)
    (hEntries : ∀ state ∈ m.labels.toList, ∀ entry,
      state.entry = some entry → entry.stack = [])
    (hRun : Yields m.frameTable p table q) :
    p.Grown q ∧ table.length ≤ 1 ∧
      ∀ a ∈ table, a.info.length ≤ 3221094398 := by
  have hEach : ∀ f ∈ m.frames,
      f.locals.length ≤ 65535 ∧ f.stack = [] := by
    intro f hIn
    rcases exists_label hIn with
      ⟨state, hState, entry, hEntry, hLocals, hStack⟩
    have hFits : entry.slots.size ≤ m.slots.size :=
      hSound.entries state (Array.mem_toList_iff.mp hState) entry
        hEntry
    have hSmall := hSound.small
    rw [hLocals, hStack, hEntries state hState entry hEntry,
      Array.length_toList]
    exact ⟨by omega, rfl⟩
  unfold frameTable at hRun
  split at hRun
  case isTrue =>
      rcases yields_pure.mp hRun with ⟨rfl, rfl⟩
      exact ⟨.refl _, Nat.zero_le 1, nofun⟩
  case isFalse =>
      split at hRun
      case h_1 =>
          rcases yields_pure.mp hRun with ⟨rfl, rfl⟩
          exact ⟨.refl _, Nat.zero_le 1, nofun⟩
      case h_2 =>
          simp only [yields_bind, yields_pure] at hRun
          rcases hRun with ⟨info, p₁, hInfo, name, p₂, hName, rfl,
            rfl⟩
          refine ⟨((Frame.grows_encodeTable _).of_yields hInfo).trans
            ((Pooling.grows_text _).of_yields hName),
            Nat.le_refl 1, ?_⟩
          intro a ha
          cases List.mem_singleton.mp ha
          simp only [Frame.encodeTable, yields_bind, yields_pure]
            at hInfo
          rcases hInfo with ⟨bytes, _, hBytes, rfl, _⟩
          have hLength := Frame.length_encodeFrom hEach hBytes
          have hFrames := m.length_frames
          simp only [List.length_append, length_bigEndian]
          omega

end MethodDraft

------------------------------------------------------------
-- Methods
------------------------------------------------------------

/-
  What is known of a finished method: its names, and that its
  code flows from the state on entry and never falls off its
  end.
-/
structure FinishedMethod
    (frame : MethodFrame)
    (s₀ : TypeState)
    (name descriptor : String)
    (access : UInt16)
    (p : ConstantPool)
    (member : Member) : Prop where
  access : member.access = access
  name : p.textAt? member.name = some name
  descriptor : p.textAt? member.descriptor = some descriptor
  writable : AttributesWritable member.attributes
  code : ∃ codeName body rest is points,
    member.attributes =
      { name := codeName, info := CodeAttribute.encode body } ::
        rest ∧
    p.textAt? codeName = some "Code" ∧
    body.Writable ∧
    decodeCode body.code = .ok is ∧
    Linked p is points ∧
    (∃ stop, Flow frame body.maxStack.toNat 0 s₀ points stop
      none) ∧
    LocalsWithin body.maxLocals.toNat points

/- More constants do not matter. -/
theorem FinishedMethod.within
    {frame : MethodFrame}
    {s₀ : TypeState}
    {name descriptor : String}
    {access : UInt16}
    {p q : ConstantPool}
    {member : Member}
    (hWithin : p.Within q)
    (hFinished : FinishedMethod frame s₀ name descriptor access p
      member) :
    FinishedMethod frame s₀ name descriptor access q member := by
  rcases hFinished.code with ⟨codeName, body, rest, is, points,
    hAttributes, hName, hBody, hDecode, hLinked, hFlow, hLocals⟩
  exact ⟨hFinished.access, hWithin.textAt? hFinished.name,
    hWithin.textAt? hFinished.descriptor, hFinished.writable,
    codeName, body, rest, is, points, hAttributes,
    hWithin.textAt? hName, hBody, hDecode, hLinked.within hWithin,
    hFlow, hLocals⟩

theorem length_encoded
    (is : List Instruction) :
    (is.flatMap Instruction.encode).length =
      Instruction.sizes is := by
  induction is with
  | nil => rfl
  | cons i is ih =>
      simp only [List.flatMap_cons, List.length_append, ih,
        Instruction.length_encode, Instruction.sizes,
        List.map_cons, List.sum_cons]

theorem writable_signatureAttribute
    {p q : ConstantPool}
    {text : String}
    {a : Attribute}
    (hRun : Yields (MethodDraft.signatureAttribute text) p a q) :
    a.Writable := by
  simp only [MethodDraft.signatureAttribute, yields_bind,
    yields_pure] at hRun
  rcases hRun with ⟨_, _, _, _, _, _, rfl, _⟩
  simp [Attribute.Writable, be16]

theorem signatures_spec
    {p q : ConstantPool}
    {texts : List String}
    {as : List Attribute}
    (hRun : Yields (texts.mapM MethodDraft.signatureAttribute) p as
      q) :
    p.Grown q ∧ as.length = texts.length ∧
      ∀ a ∈ as, a.Writable := by
  have hGrown := (Pooling.grows_mapM _
    MethodDraft.grows_signatureAttribute).of_yields hRun
  refine ⟨hGrown, ?_⟩
  clear hGrown
  induction texts generalizing p as with
  | nil =>
      rcases yields_pure.mp hRun with ⟨rfl, rfl⟩
      exact ⟨rfl, nofun⟩
  | cons text texts ih =>
      rw [List.mapM_cons] at hRun
      simp only [yields_bind, yields_pure] at hRun
      rcases hRun with ⟨a, p₁, hFirst, rest, p₂, hRest, rfl, rfl⟩
      rcases ih hRest with ⟨hLength, hEach⟩
      refine ⟨by rw [List.length_cons, List.length_cons, hLength],
        ?_⟩
      intro b hb
      rcases List.mem_cons.mp hb with rfl | hTail
      · exact writable_signatureAttribute hFirst
      · exact hEach b hTail

/-
  A member that holds a draft: it has the names of the draft
  and a body with a code, which catches nothing.
-/
structure Member.Holds
    (m : MethodDraft)
    (code : List UInt8)
    (p : ConstantPool)
    (member : Member) : Prop where
  access : member.access = m.access
  name : p.textAt? member.name = some m.name
  descriptor : p.textAt? member.descriptor = some m.descriptor
  writable : AttributesWritable member.attributes
  body : ∃ codeName body rest,
    member.attributes =
      { name := codeName, info := CodeAttribute.encode body } ::
        rest ∧
    p.textAt? codeName = some "Code" ∧
    body.Writable ∧
    body.code = code ∧
    body.handlers = [] ∧
    body.maxStack = m.maxStack ∧
    body.maxLocals = m.maxLocals

theorem Member.Holds.within
    {m : MethodDraft}
    {code : List UInt8}
    {p q : ConstantPool}
    {member : Member}
    (hHolds : member.Holds m code p)
    (hWithin : p.Within q) :
    member.Holds m code q := by
  rcases hHolds.body with
    ⟨codeName, body, rest, hAttributes, hName, hBody⟩
  exact ⟨hHolds.access, hWithin.textAt? hHolds.name,
    hWithin.textAt? hHolds.descriptor, hHolds.writable, codeName,
    body, rest, hAttributes, hWithin.textAt? hName, hBody⟩

namespace MethodDraft

variable {m m' : MethodDraft} {member : Member}

/- One attribute at most takes little more than what it holds. -/
theorem length_encode_of_few
    {as : List Attribute}
    {n : Nat}
    (hFew : as.length ≤ 1)
    (hEach : ∀ a ∈ as, a.info.length ≤ n) :
    (as.flatMap Attribute.encode).length ≤ 6 + n := by
  rcases as with _ | ⟨a, _ | ⟨b, as⟩⟩
  · exact Nat.zero_le _
  · have hInfo := hEach a List.mem_cons_self
    simp only [List.flatMap_cons, List.flatMap_nil,
      List.append_nil, Attribute.encode, List.length_append,
      be16, length_bigEndian]
    omega
  · simp at hFew

/- The parts of a method, and where its names are found. -/
theorem member_spec
    {q : ConstantPool}
    {code : List UInt8}
    (hSound : m.Sound)
    (hFew : 4 * m.labels.size ≤ 65535)
    (hEntries : ∀ state ∈ m.labels.toList, ∀ entry,
      state.entry = some entry → entry.stack = [])
    (hSmall : code.length ≤ 65535)
    (hRun : Yields (m.member code) m.pool member q) :
    m.pool.Grown q ∧ member.Holds m code q := by
  simp only [MethodDraft.member, yields_bind, yields_pure] at hRun
  rcases hRun with ⟨localTable, p₁, hLocals, frameTable, p₂,
    hFrames, codeName, p₃, hCode, signatures, p₄, hSignatures,
    name, p₅, hName, descriptor, p₆, hDescriptor, rfl, rfl⟩
  rcases localTable_spec hSound hLocals with
    ⟨hGrown₁, hOne, hEachLocal⟩
  rcases frameTable_spec hSound hFew hEntries hFrames with
    ⟨hGrown₂, hTwo, hEachFrame⟩
  rcases signatures_spec hSignatures with
    ⟨hGrown₄, hThree, hEachSignature⟩
  have hGrown₃ := (Pooling.grows_text _).of_yields hCode
  have hGrown₅ := (Pooling.grows_text _).of_yields hName
  have hGrown₆ := (Pooling.grows_text _).of_yields hDescriptor
  have hSound₂ := hGrown₂.sound (hGrown₁.sound hSound.pool)
  have hSound₄ := hGrown₄.sound (hGrown₃.sound hSound₂)
  have hSound₅ := hGrown₅.sound hSound₄
  have hAfter := (hGrown₄.trans hGrown₅).trans hGrown₆
  have hAll := ((hGrown₁.trans hGrown₂).trans hGrown₃).trans hAfter
  have hLocalBytes := length_encode_of_few hOne hEachLocal
  have hFrameBytes := length_encode_of_few hTwo hEachFrame
  have hBody : CodeAttribute.Writable
      { maxStack := m.maxStack
        maxLocals := m.maxLocals
        code
        attributes := localTable ++ frameTable } := by
    refine ⟨?_, Nat.zero_le _, ?_, ?_⟩
    · dsimp only
      omega
    · rw [List.length_append]
      omega
    · intro a ha
      unfold Attribute.Writable
      rcases List.mem_append.mp ha with hIn | hIn
      · have hInfo := hEachLocal a hIn
        omega
      · have hInfo := hEachFrame a hIn
        omega
  refine ⟨hAll, rfl, ?_, ?_, ?_, codeName, _, signatures, rfl, ?_,
    hBody, rfl, rfl, rfl, rfl⟩
  · exact hGrown₆.within.textAt?
      (Pooling.text_textAt? hSound₄.indexed hName)
  · exact Pooling.text_textAt? hSound₅.indexed hDescriptor
  · refine ⟨?_, ?_⟩
    · have hOne : m.signature.toList.length ≤ 1 := by
        cases m.signature <;> simp
      rw [List.length_cons]
      omega
    · intro a ha
      rcases List.mem_cons.mp ha with rfl | hIn
      · simp only [Attribute.Writable, CodeAttribute.encode,
          encodeList, List.length_append, be16, length_bigEndian,
          List.flatMap_append, List.flatMap_nil, List.length_nil]
        omega
      · exact hEachSignature a hIn
  · exact hAfter.within.textAt?
      (Pooling.text_textAt? hSound₂.indexed hCode)

/-
  A finished method holds its draft.  Each label takes some of
  the code, so the table of frames is not too long.
-/
theorem finish_holds
    (hSound : m.Sound)
    (hFew : ∀ is, m.resolve = .ok is →
      4 * m.labels.size ≤ Instruction.sizes is)
    (hEntries : ∀ state ∈ m.labels.toList, ∀ entry,
      state.entry = some entry → entry.stack = [])
    (hRun : Yields finish m member m') :
    ∃ is, m.resolve = .ok is ∧
      m.pool.Grown m'.pool ∧
      member.Holds m (is.flatMap Instruction.encode) m'.pool := by
  unfold finish at hRun
  simp only [yields_bind, yields_get] at hRun
  rcases hRun with ⟨_, m, ⟨rfl, rfl⟩, hRun⟩
  split at hRun
  case h_1 => exact absurd hRun yields_throw
  case h_2 => exact absurd hRun yields_throw
  case h_3 is _ hResolve =>
      split at hRun
      case isTrue => exact absurd hRun yields_throw
      case isFalse hSize =>
          rcases Emitter.yields_pooled.mp hRun with ⟨q, hMember, rfl⟩
          have hLabels := hFew is hResolve
          rw [← length_encoded] at hLabels
          exact ⟨is, hResolve, member_spec hSound (by omega)
            hEntries (by omega) hMember⟩

end MethodDraft

/- A draft whose code is known becomes such a method. -/
theorem Charted.finish
    {frame : MethodFrame}
    {s₀ : TypeState}
    {m m' : MethodDraft}
    {member : Member}
    (hChart : Charted frame s₀ m none)
    (hRun : Yields MethodDraft.finish m member m') :
    m.pool.Grown m'.pool ∧
      FinishedMethod frame s₀ m.name m.descriptor m.access m'.pool
        member := by
  rcases hChart.code with
    ⟨is, points, hResolve, hLaid, hEnd, hLinked, hFlow, hWithin⟩
  have hFew : ∀ js, m.resolve = .ok js →
      4 * m.labels.size ≤ Instruction.sizes js := by
    intro js hSame
    rw [hResolve] at hSame
    cases hSame
    rw [← hEnd]
    exact hChart.fewLabels
  rcases MethodDraft.finish_holds hChart.sound hFew hChart.entries
      hRun with ⟨js, hSame, hGrown, hHolds⟩
  rw [hResolve] at hSame
  cases hSame
  rcases hHolds.body with ⟨codeName, body, rest, hAttributes,
    hCodeName, hBody, hCode, -, hStack, hLocals⟩
  refine ⟨hGrown, hHolds.access, hHolds.name, hHolds.descriptor,
    hHolds.writable, codeName, body, rest, is, points, hAttributes,
    hCodeName, hBody, ?_, hLinked.within hGrown.within,
    ⟨m.offset, ?_⟩, ?_⟩
  · rw [hCode]
    exact hLaid.decodeCode_encode
  · rw [hStack]
    exact hFlow
  · have hNumber : m.maxLocals.toNat = Ty.widths m.types := by
      have hFits := hChart.sound.small
      rw [← hChart.sound.size]
      simp only [MethodDraft.maxLocals, UInt16.toNat_ofNat']
      exact Nat.mod_eq_of_lt (by omega)
    rw [hLocals, hNumber]
    exact hWithin

end Stratagem
