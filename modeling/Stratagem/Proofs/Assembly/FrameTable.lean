import Mathlib.Data.List.Forall2
import Mathlib.Data.List.TakeWhile
import Stratagem.Proofs.Assembly.Finished
import Stratagem.Proofs.ClassFile.WellTyped

/-
  Tables of frames say what they were made of.

  A table is read back by the rule for class files: the first
  frame gives its offset, and each other its distance from the
  byte behind the frame before; and a type of two slots stands
  for both.

  Key definitions include:
    * `FullFrame`
    * `FullFrame.placeAll`
    * `Checkpoint`
    * `Frame.decodeTable`
    * `Jvm.VType.Filled`

  Main declarations:
    * `Jvm.VType.spread_dropFillers_iff`
    * `Frame.slots_checkpoint_iff`
    * `Frame.decodeTable_encodeTable`
-/

namespace Stratagem

open Jvm

------------------------------------------------------------
-- Reading Tables
------------------------------------------------------------

/-
  A frame as it stands in a table.  Its locals are listed
  without fillers.
-/
structure FullFrame where
  delta : UInt16
  locals : List VType
  stack : List VType

/-
  What is known at an offset: the types by slot, and those on
  the stack from its bottom.
-/
structure Checkpoint where
  offset : Nat
  slots : List VType
  stack : List VType

/- A type whose offset, if it has one, fits into two bytes. -/
def Jvm.VType.Writable
    (v : VType) : Prop :=
  ∀ x, v = .uninit x → x < 65536

/- What frames in a row say, the first at least at an offset. -/
def FullFrame.placeAll
    (least : Nat) : List FullFrame → List Checkpoint
  | [] => []
  | f :: fs =>
      let offset := least + f.delta.toNat
      { offset, slots := VType.spread f.locals, stack := f.stack } ::
        placeAll (offset + 1) fs

namespace Decoder

/- A type; the name of a class is looked up. -/
def vtype
    (p : ConstantPool) : Decoder VType := do
  let start ← position
  match ← u8 with
  | 0 => return .top
  | 1 => return .int
  | 2 => return .float
  | 3 => return .double
  | 4 => return .long
  | 5 => return .null
  | 6 => return .uninitThis
  | 7 => do
      match p.classAt? (← u16) with
      | some name => return .object name
      | none => throw (.invalidTag 7 start)
  | 8 => return .uninit (← u16).toNat
  | tag => throw (.invalidTag tag start)

/- A frame that lists all types. -/
def fullFrame
    (p : ConstantPool) : Decoder FullFrame := do
  let start ← position
  let tag ← u8
  if tag ≠ 255 then
    throw (.invalidTag tag start)
  let delta ← u16
  let locals ← list (vtype p)
  let stack ← list (vtype p)
  return { delta, locals, stack }

/- Frames behind their number, with nothing behind them. -/
def frameTable
    (p : ConstantPool) : Decoder (List Checkpoint) := do
  let frames ← list (fullFrame p)
  if ← hasMore then
    throw (.unexpectedEnd (← position))
  return FullFrame.placeAll 0 frames

end Decoder

/- What a table of frames says. -/
def Frame.decodeTable
    (p : ConstantPool)
    (info : List UInt8) : Except DecodeError (List Checkpoint) :=
  (Decoder.frameTable p).runOn info.toArray

------------------------------------------------------------
-- Fillers
------------------------------------------------------------

namespace Jvm.VType

/- Behind each type of two slots the next slot is unusable. -/
def Filled
    (vs : List VType) : Prop :=
  ∀ i, (vs.getD i .top).slots = 2 → vs.getD (i + 1) .top = .top

/- Two lists of slots that differ in unusable ones at the end. -/
def SameSlots
    (vs ws : List VType) : Prop :=
  ∀ i, vs.getD i .top = ws.getD i .top

theorem slots_cases
    (v : VType) :
    v.slots = 1 ∨ v.slots = 2 := by
  cases v <;> simp [slots]

/- What a list of slots starts with takes one slot of it. -/
theorem spread_cons_one
    {v : VType}
    (vs : List VType)
    (hOne : v.slots = 1) :
    spread (v :: vs) = v :: spread vs := by
  rw [spread, hOne, if_neg (by decide)]

/- Or two. -/
theorem spread_cons_two
    {v : VType}
    (vs : List VType)
    (hTwo : v.slots = 2) :
    spread (v :: vs) = v :: .top :: spread vs := by
  rw [spread, if_pos hTwo]

theorem Filled.cons_one
    {v : VType}
    {vs : List VType}
    (hOne : v.slots = 1)
    (hFilled : Filled vs) :
    Filled (v :: vs) := by
  intro i hTwo
  cases i with
  | zero =>
      rw [List.getD_cons_zero, hOne] at hTwo
      cases hTwo
  | succ i => exact hFilled i hTwo

theorem Filled.cons_two
    {v : VType}
    {vs : List VType}
    (hFilled : Filled vs) :
    Filled (v :: .top :: vs) := by
  intro i hTwo
  cases i with
  | zero => rfl
  | succ i => exact hFilled.cons_one (v := .top) rfl i hTwo

/- In slots that types were given, none lacks its filler. -/
theorem filled_spread
    (vs : List VType) :
    Filled (spread vs) := by
  induction vs with
  | nil =>
      intro i _
      rfl
  | cons v vs ih =>
      rcases v.slots_cases with hOne | hTwo
      · rw [spread_cons_one vs hOne]
        exact ih.cons_one hOne
      · rw [spread_cons_two vs hTwo]
        exact ih.cons_two

theorem Filled.tail
    {v : VType}
    {vs : List VType}
    (hFilled : Filled (v :: vs)) :
    Filled vs :=
  fun i => hFilled (i + 1)

theorem SameSlots.cons
    {vs ws : List VType}
    (v : VType)
    (hSame : SameSlots vs ws) :
    SameSlots (v :: vs) (v :: ws) := by
  intro i
  cases i with
  | zero => rfl
  | succ i => exact hSame i

theorem SameSlots.trans
    {us vs ws : List VType}
    (hFirst : SameSlots us vs)
    (hNext : SameSlots vs ws) :
    SameSlots us ws :=
  fun i => (hFirst i).trans (hNext i)

/- The filler of a type that is followed by one, or by none. -/
theorem SameSlots.filler
    {v : VType}
    {vs ws : List VType}
    (hFiller : vs.getD 0 .top = .top)
    (hSame : SameSlots ws vs.tail) :
    SameSlots (v :: .top :: ws) (v :: vs) := by
  refine SameSlots.cons v fun i => ?_
  cases vs with
  | nil =>
      cases i with
      | zero => rfl
      | succ i => exact hSame i
  | cons w vs =>
      cases i with
      | zero => exact hFiller.symm
      | succ i => exact hSame i

theorem sameSlots_dropFillers
    {vs : List VType}
    (hFilled : Filled vs) :
    SameSlots (spread (Frame.dropFillers vs)) vs := by
  induction vs using Frame.dropFillers.induct with
  | case1 =>
      rw [Frame.dropFillers]
      exact fun _ => rfl
  | case2 rest ih =>
      rw [Frame.dropFillers, spread_cons_two _ rfl]
      refine .filler (hFilled 0 rfl) (ih ?_)
      cases rest with
      | nil => exact fun _ _ => rfl
      | cons w rest => exact hFilled.tail.tail
  | case3 rest ih =>
      rw [Frame.dropFillers, spread_cons_two _ rfl]
      refine .filler (hFilled 0 rfl) (ih ?_)
      cases rest with
      | nil => exact fun _ _ => rfl
      | cons w rest => exact hFilled.tail.tail
  | case4 v rest hLong hDouble ih =>
      have hOne : v.slots = 1 := by
        cases v with
        | long => exact absurd rfl hLong
        | double => exact absurd rfl hDouble
        | _ => rfl
      rw [Frame.dropFillers.eq_4 _ _ hLong hDouble,
        spread_cons_one _ hOne]
      exact (ih hFilled.tail).cons v

theorem spread_append
    (vs ws : List VType) :
    spread (vs ++ ws) = spread vs ++ spread ws := by
  induction vs with
  | nil => rfl
  | cons v vs ih =>
      rcases v.slots_cases with hOne | hTwo
      · rw [List.cons_append, spread_cons_one _ hOne,
          spread_cons_one _ hOne, ih]
        rfl
      · rw [List.cons_append, spread_cons_two _ hTwo,
          spread_cons_two _ hTwo, ih]
        rfl

theorem spread_tops
    (n : Nat) :
    spread (List.replicate n .top) = List.replicate n .top := by
  induction n with
  | zero => rfl
  | succ n ih =>
      rw [List.replicate_succ, spread_cons_one _ rfl, ih]

theorem SameSlots.tops
    (vs : List VType)
    (n : Nat) :
    SameSlots vs (vs ++ List.replicate n .top) := by
  intro i
  simp only [List.getD_eq_getElem?_getD, List.getElem?_append,
    List.getElem?_replicate]
  split
  case isTrue => rfl
  case isFalse hOut =>
      rw [List.getElem?_eq_none (Nat.not_lt.mp hOut)]
      split <;> rfl

/- Fillers come back exactly if they were there. -/
theorem spread_dropFillers_iff
    {vs : List VType} :
    SameSlots (spread (Frame.dropFillers vs)) vs ↔ Filled vs := by
  constructor
  · intro hSame i hTwo
    rw [← hSame] at hTwo ⊢
    exact filled_spread _ i hTwo
  · exact sameSlots_dropFillers

end Jvm.VType

------------------------------------------------------------
-- Frames
------------------------------------------------------------

namespace Frame

/- What a frame says. -/
def checkpoint
    (f : Frame) : Checkpoint :=
  { offset := f.offset.toNat
    slots := VType.spread f.compactLocals
    stack := f.stack }

/- What is left out at the end is unusable. -/
theorem exists_trailingTops
    (vs : List VType) :
    ∃ n, vs = dropTrailingTops vs ++ List.replicate n .top := by
  refine ⟨(vs.reverse.takeWhile (· == VType.top)).length, ?_⟩
  have hTops : vs.reverse.takeWhile (· == VType.top) =
      List.replicate
        (vs.reverse.takeWhile (· == VType.top)).length .top := by
    refine List.eq_replicate_of_mem fun v hv => ?_
    simpa using List.mem_takeWhile_imp hv
  have hSplit := congrArg List.reverse
    (List.takeWhile_append_dropWhile
      (p := (· == VType.top)) (l := vs.reverse))
  rw [List.reverse_append, List.reverse_reverse, hTops,
    List.reverse_replicate] at hSplit
  exact hSplit.symm

/- A frame says what it was made of if no filler is missing. -/
theorem slots_checkpoint_iff
    (f : Frame) :
    VType.SameSlots f.checkpoint.slots f.locals ↔
      VType.Filled f.locals := by
  rcases exists_trailingTops (dropFillers f.locals) with ⟨n, hTops⟩
  have hSame : VType.SameSlots f.checkpoint.slots
      (VType.spread (dropFillers f.locals)) := by
    rw [hTops, VType.spread_append, VType.spread_tops]
    exact VType.SameSlots.tops _ n
  rw [← VType.spread_dropFillers_iff]
  constructor
  · exact fun hBoth i => (hSame i).symm.trans (hBoth i)
  · exact hSame.trans

/- A frame as it is written at a distance. -/
def full
    (f : Frame)
    (delta : UInt16) : FullFrame :=
  { delta, locals := f.compactLocals, stack := f.stack }

/- Frames as they are written in a row. -/
def fulls
    (previous : Option UInt16) : List Frame → List FullFrame
  | [] => []
  | f :: fs =>
      f.full
        (match previous with
        | none => f.offset
        | some o => f.offset - o - 1) ::
      fulls (some f.offset) fs

/-
  If the offsets of frames rise, no distance is negative, and
  the frames are found where they were.
-/
theorem placeAll_fulls
    {fs : List Frame}
    {o : Option UInt16}
    (hRising : (fs.map Frame.offset).Pairwise (· < ·))
    (hBehind : ∀ b ∈ o, ∀ f ∈ fs, b < f.offset) :
    FullFrame.placeAll (o.elim 0 (·.toNat + 1))
        (fulls o fs) =
      fs.map checkpoint := by
  induction fs generalizing o with
  | nil => rfl
  | cons f fs ih =>
      rw [List.map_cons, List.pairwise_cons] at hRising
      rcases hRising with ⟨hFirst, hRest⟩
      have hNext := ih (o := some f.offset) hRest (by
        rintro b ⟨⟩ g hIn
        exact hFirst g.offset (List.mem_map_of_mem hIn))
      have hPlace : (o.elim 0 (·.toNat + 1)) +
          (match o with
            | none => f.offset
            | some b => f.offset - b - 1).toNat =
          f.offset.toNat := by
        cases o with
        | none => exact Nat.zero_add _
        | some b =>
            have hLess := UInt16.lt_iff_toNat_lt.mp
              (hBehind b rfl f List.mem_cons_self)
            have hSmall := f.offset.toNat_lt
            dsimp only [Option.elim]
            rw [UInt16.toNat_sub_of_le, UInt16.toNat_sub_of_le,
              UInt16.toNat_one]
            · omega
            · exact UInt16.le_iff_toNat_le.mpr (Nat.le_of_lt hLess)
            · rw [UInt16.le_iff_toNat_le, UInt16.toNat_sub_of_le,
                UInt16.toNat_one]
              · omega
              · exact UInt16.le_iff_toNat_le.mpr (Nat.le_of_lt hLess)
      rw [List.map_cons]
      unfold fulls FullFrame.placeAll
      dsimp only [full]
      rw [hPlace]
      exact congrArg (f.checkpoint :: ·) hNext

end Frame

------------------------------------------------------------
-- Reading What Was Written
------------------------------------------------------------

section Pieces

variable {α : Type} {d : Decoder α}
variable {bodies : List (List UInt8)} {xs : List α}

/- Values that were written one by one come back. -/
theorem Reads.collect_pieces
    (acc : List α)
    (hEach : List.Forall₂ (Reads d) bodies xs) :
    Reads (Decoder.collect d xs.length acc) bodies.flatten
      (acc.reverse ++ xs) := by
  induction hEach generalizing acc with
  | nil => simpa [Decoder.collect] using Reads.pure acc.reverse
  | @cons body x bodies xs hOne _ ih =>
      have hRest := ih (x :: acc)
      rw [List.reverse_cons, List.append_assoc,
        List.singleton_append] at hRest
      exact hOne.bind hRest

/- And so does a list of them behind its length. -/
theorem Reads.list_pieces
    (hFew : xs.length ≤ 65535)
    (hEach : List.Forall₂ (Reads d) bodies xs) :
    Reads (Decoder.list d)
      (bigEndian 2 xs.length ++ bodies.flatten) xs := by
  have hLength : (UInt16.ofNat xs.length).toNat = xs.length := by
    simpa using Nat.mod_eq_of_lt (Nat.lt_succ_of_le hFew)
  refine (Reads.u16_ofNat xs.length).bind ?_
  rw [hLength]
  exact Reads.collect_pieces [] hEach

end Pieces

namespace Frame

variable {p q r : ConstantPool} {bytes : List UInt8}

theorem reads_encodeType
    {v : VType}
    (hIndexed : p.Indexed)
    (hWritable : v.Writable)
    (hRun : Yields (encodeType v) p bytes q)
    (hWithin : q.Within r) :
    Reads (Decoder.vtype r) bytes v := by
  refine Reads.position fun start => ?_
  cases v with
  | object name =>
      simp only [encodeType, yields_bind, yields_pure] at hRun
      rcases hRun with ⟨index, _, hClass, rfl, rfl⟩
      have hName := hWithin.classAt?
        (Pooling.classRef_classAt? hIndexed hClass)
      refine (Reads.u8 7).bind ((Reads.u16 index).bind_nil ?_)
      rw [hName]
      exact Reads.pure _
  | uninit x =>
      rcases yields_pure.mp hRun with ⟨rfl, rfl⟩
      have hRead := (Reads.u16_ofNat x).bind_pure
        (f := fun n => VType.uninit n.toNat)
      rw [UInt16.toNat_ofNat',
        Nat.mod_eq_of_lt (hWritable x rfl)] at hRead
      exact (Reads.u8 8).bind hRead
  | _ =>
      rcases yields_pure.mp hRun with ⟨rfl, rfl⟩
      exact (Reads.u8 _).bind_nil (Reads.pure _)

theorem reads_each_type
    {vs : List VType}
    {bodies : List (List UInt8)}
    (hIndexed : p.Indexed)
    (hWritable : ∀ v ∈ vs, v.Writable)
    (hRun : Yields (vs.mapM encodeType) p bodies q)
    (hWithin : q.Within r) :
    List.Forall₂ (Reads (Decoder.vtype r)) bodies vs := by
  induction vs generalizing p bodies with
  | nil =>
      rcases yields_pure.mp hRun with ⟨rfl, -⟩
      exact .nil
  | cons v vs ih =>
      rw [List.mapM_cons] at hRun
      simp only [yields_bind, yields_pure] at hRun
      rcases hRun with ⟨body, p₁, hOne, rest, _, hRest, rfl, rfl⟩
      have hGrown := (grows_encodeType v).of_yields hOne
      have hMore := (Pooling.grows_mapM vs
        grows_encodeType).of_yields hRest
      exact .cons
        (reads_encodeType hIndexed (hWritable v List.mem_cons_self)
          hOne (hMore.within.trans hWithin))
        (ih (hGrown.indexed hIndexed)
          (fun w hIn => hWritable w (List.mem_cons_of_mem v hIn))
          hRest)

theorem reads_encodeTypes
    {vs : List VType}
    (hIndexed : p.Indexed)
    (hFew : vs.length ≤ 65535)
    (hWritable : ∀ v ∈ vs, v.Writable)
    (hRun : Yields (encodeTypes vs) p bytes q)
    (hWithin : q.Within r) :
    Reads (Decoder.list (Decoder.vtype r)) bytes vs := by
  simp only [encodeTypes, yields_bind, yields_pure] at hRun
  rcases hRun with ⟨bodies, _, hBodies, rfl, rfl⟩
  exact Reads.list_pieces hFew
    (reads_each_type hIndexed hWritable hBodies hWithin)

/- A frame whose lists and types fit into their fields. -/
structure Writable
    (f : Frame) : Prop where
  locals : f.locals.length ≤ 65535
  stack : f.stack.length ≤ 65535
  types : ∀ v ∈ f.locals ++ f.stack, v.Writable

theorem mem_dropFillers
    {v : VType}
    {vs : List VType}
    (hIn : v ∈ dropFillers vs) :
    v ∈ vs := by
  induction vs using dropFillers.induct with
  | case1 => simp [dropFillers] at hIn
  | case2 rest ih =>
      rw [dropFillers] at hIn
      rcases List.mem_cons.mp hIn with rfl | hRest
      · exact List.mem_cons_self
      · exact List.mem_cons_of_mem _ (List.mem_of_mem_tail (ih hRest))
  | case3 rest ih =>
      rw [dropFillers] at hIn
      rcases List.mem_cons.mp hIn with rfl | hRest
      · exact List.mem_cons_self
      · exact List.mem_cons_of_mem _ (List.mem_of_mem_tail (ih hRest))
  | case4 w rest hLong hDouble ih =>
      rw [dropFillers.eq_4 _ _ hLong hDouble] at hIn
      rcases List.mem_cons.mp hIn with rfl | hRest
      · exact List.mem_cons_self
      · exact List.mem_cons_of_mem _ (ih hRest)

/- The locals of a frame are among its slots. -/
theorem mem_compactLocals
    {f : Frame}
    {v : VType}
    (hIn : v ∈ f.compactLocals) :
    v ∈ f.locals := by
  rcases exists_trailingTops (dropFillers f.locals) with ⟨n, hTops⟩
  refine mem_dropFillers ?_
  rw [hTops]
  exact List.mem_append_left _ hIn

theorem reads_encode
    {f : Frame}
    {delta : UInt16}
    (hIndexed : p.Indexed)
    (hWritable : f.Writable)
    (hRun : Yields (f.encode delta) p bytes q)
    (hWithin : q.Within r) :
    Reads (Decoder.fullFrame r) bytes (f.full delta) := by
  simp only [encode, yields_bind, yields_pure] at hRun
  rcases hRun with ⟨locals, p₁, hLocals, stack, _, hStack, rfl, rfl⟩
  have hGrown := (grows_encodeTypes _).of_yields hLocals
  have hMore := (grows_encodeTypes _).of_yields hStack
  have hReadLocals := reads_encodeTypes hIndexed
    (Nat.le_trans f.length_compactLocals hWritable.locals)
    (fun v hIn => hWritable.types v
      (List.mem_append_left _ (mem_compactLocals hIn)))
    hLocals (hMore.within.trans hWithin)
  have hReadStack := reads_encodeTypes
    (hGrown.indexed hIndexed) hWritable.stack
    (fun v hIn => hWritable.types v (List.mem_append_right _ hIn))
    hStack hWithin
  have hBytes : 255 :: be16 delta ++ locals ++ stack =
      [255] ++ (be16 delta ++ (locals ++ stack)) := by
    simp
  rw [hBytes]
  exact Reads.position fun start => (Reads.u8 255).bind
    ((Reads.u16 delta).bind (hReadLocals.bind hReadStack.bind_pure))

theorem exists_frames
    {fs : List Frame}
    {previous : Option UInt16}
    (hIndexed : p.Indexed)
    (hWritable : ∀ f ∈ fs, f.Writable)
    (hRun : Yields (encodeFrom previous fs) p bytes q)
    (hWithin : q.Within r) :
    ∃ bodies, bytes = bodies.flatten ∧
      List.Forall₂ (Reads (Decoder.fullFrame r)) bodies
        (fulls previous fs) := by
  induction fs generalizing p bytes previous with
  | nil =>
      rcases yields_pure.mp hRun with ⟨rfl, -⟩
      exact ⟨[], rfl, .nil⟩
  | cons f fs ih =>
      simp only [encodeFrom, yields_bind, yields_pure] at hRun
      rcases hRun with ⟨body, p₁, hOne, more, _, hMore, rfl, rfl⟩
      have hGrown := (grows_encode f _).of_yields hOne
      have hRest := (grows_encodeFrom fs _).of_yields hMore
      rcases ih (hGrown.indexed hIndexed)
        (fun g hIn => hWritable g (List.mem_cons_of_mem f hIn))
        hMore with ⟨bodies, rfl, hBodies⟩
      exact ⟨body :: bodies, rfl, .cons
        (reads_encode hIndexed (hWritable f List.mem_cons_self) hOne
          (hRest.within.trans hWithin)) hBodies⟩

theorem length_fulls
    (fs : List Frame)
    (previous : Option UInt16) :
    (fulls previous fs).length = fs.length := by
  induction fs generalizing previous with
  | nil => rfl
  | cons f fs ih => exact congrArg (· + 1) (ih _)

/- Frames whose offsets rise say in a table what they said. -/
theorem decodeTable_encodeTable
    {fs : List Frame}
    (hIndexed : p.Indexed)
    (hFew : fs.length ≤ 65535)
    (hWritable : ∀ f ∈ fs, f.Writable)
    (hRising : (fs.map Frame.offset).Pairwise (· < ·))
    (hRun : Yields (encodeTable fs) p bytes q)
    (hWithin : q.Within r) :
    decodeTable r bytes = .ok (fs.map checkpoint) := by
  simp only [encodeTable, yields_bind, yields_pure] at hRun
  rcases hRun with ⟨rest, _, hRest, rfl, rfl⟩
  rcases exists_frames hIndexed hWritable hRest hWithin with
    ⟨bodies, rfl, hBodies⟩
  have hLength := length_fulls fs none
  have hList := Reads.list_pieces
    (Nat.le_trans (Nat.le_of_eq hLength) hFew) hBodies
  rw [hLength] at hList
  have hPlaced := placeAll_fulls (o := none) hRising (by
    rintro b ⟨⟩)
  apply ReadsLast.runOn
  rw [← List.append_nil (bigEndian 2 fs.length ++ bodies.flatten)]
  refine ReadsLast.bind hList (ReadsLast.hasMore ?_)
  rw [← hPlaced]
  exact (Reads.pure _).last

end Frame

end Stratagem
