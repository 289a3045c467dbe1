import Stratagem.Bytes.Deferred
import Stratagem.Proofs.Bytes.Texts

/-
  Writing later is writing at once.

  Places do not overlap each other or what is emitted, so that
  a number that is put into a place replaces just the one that
  was there.  What steps write is therefore written at once as
  well, and it is read back item by item as long as every text
  fits behind a length of two bytes.

  Key definitions include:
    * `Item.IsShort`

  Main declarations:
    * `ByteWriter.toList_patch`
    * `ByteWriter.Proper.length_itemsOf`
    * `ByteWriter.Proper.itemsOf_concat_patch`
    * `ByteWriter.Proper.toList_runAll`
    * `Decoder.yields_items_iff`
    * `ByteWriter.deferred_eq_direct`
-/

namespace Stratagem

namespace ByteWriter

variable {w : ByteWriter} {places : List (Nat × Room)}

------------------------------------------------------------
-- Bytes
------------------------------------------------------------

theorem toList_emit
    (w : ByteWriter)
    (item : Item) :
    (w.emit item).bytes.toList = w.bytes.toList ++ item.encode :=
  toList_append w item.encode

theorem toList_reserve
    (w : ByteWriter)
    (room : Room) :
    (w.reserve room.width).bytes.toList =
      w.bytes.toList ++ room.zero.encode := by
  rw [reserve, toList_append]
  cases room <;> rfl

/- Bytes replace as many others where they are put. -/
theorem toList_patch
    {before old behind : List UInt8}
    (new : List UInt8)
    (hBytes : w.bytes.toList = before ++ old ++ behind)
    (hLength : old.length = new.length) :
    (w.patch before.length new).bytes.toList =
      before ++ new ++ behind := by
  induction new generalizing w before old with
  | nil =>
      rw [List.length_nil, List.length_eq_zero_iff] at hLength
      rw [patch, hBytes, hLength]
  | cons b new ih =>
      cases old with
      | nil => cases hLength
      | cons a old =>
          have hOne :
              (w.bytes.setIfInBounds before.length b).toList =
                (before ++ [b]) ++ old ++ behind := by
            rw [Array.toList_setIfInBounds, hBytes]
            simp
          have hNext : before.length + 1 = (before ++ [b]).length := by
            simp
          have hRest := ih
            (w := ⟨w.bytes.setIfInBounds before.length b⟩) hOne
            (Nat.succ.inj hLength)
          rw [patch, hNext, hRest]
          simp

theorem offset_patch
    (w : ByteWriter)
    (offset : Nat)
    (bytes : List UInt8) :
    (w.patch offset bytes).offset = w.offset := by
  induction bytes generalizing w offset with
  | nil => rfl
  | cons b bytes ih =>
      rw [patch, ih]
      exact Array.size_setIfInBounds

theorem offset_emit
    (w : ByteWriter)
    (item : Item) :
    (w.emit item).offset = w.offset + item.encode.length :=
  offset_append w item.encode

theorem offset_reserve
    (w : ByteWriter)
    (room : Room) :
    (w.reserve room.width).offset = w.offset + room.width := by
  rw [reserve, offset_append, List.length_replicate]

theorem Room.width_pos
    (room : Room) :
    0 < room.width := by
  cases room <;> decide

theorem offset_le_runAll
    (steps : List Step)
    (w : ByteWriter) :
    w.offset ≤ (runAll steps w).offset := by
  induction steps generalizing w with
  | nil => exact Nat.le_refl _
  | cons s steps ih =>
      refine Nat.le_trans ?_ (ih (s.apply w))
      cases s with
      | emit item => rw [Step.apply, offset_emit]; omega
      | reserve room => rw [Step.apply, offset_reserve]; omega
      | patch offset filling => rw [Step.apply, offset_patch]

------------------------------------------------------------
-- Places
------------------------------------------------------------

/- Only numbers of one width are put into a place. -/
theorem Proper.room_of_patch
    {offset : Nat}
    {room : Room}
    {steps : List Step}
    (hProper : Proper places w steps)
    (hOnly : ∀ r, (offset, r) ∈ places → r = room)
    (hBelow : offset < w.offset)
    {filling : Filling}
    (hPatch : .patch offset filling ∈ steps) :
    filling.room = room := by
  induction steps generalizing places w with
  | nil => cases hPatch
  | cons s steps ih =>
      cases s with
      | emit item =>
          refine ih hProper hOnly ?_ (by simpa using hPatch)
          rw [offset_emit]
          omega
      | reserve r =>
          refine ih hProper ?_ ?_ (by simpa using hPatch)
          · -- a later place is further behind
            intro r' hThere
            rcases List.mem_cons.mp hThere with hHere | hOld
            · cases hHere
              exact absurd hBelow (Nat.lt_irrefl _)
            · exact hOnly r' hOld
          · rw [offset_reserve]
            omega
      | patch place filling' =>
          rcases List.mem_cons.mp hPatch with hHere | hLater
          · cases hHere
            exact hOnly _ hProper.1
          · refine ih hProper.2 hOnly ?_ hLater
            rwa [offset_patch]

theorem mem_fillings_iff
    {offset : Nat}
    {filling : Filling}
    {steps : List Step} :
    filling ∈ steps.filterMap (Step.fillingAt? offset) ↔
      .patch offset filling ∈ steps := by
  rw [List.mem_filterMap]
  constructor
  · rintro ⟨s, hIn, hFilling⟩
    cases s with
    | emit item => cases hFilling
    | reserve room => cases hFilling
    | patch place filling' =>
        rw [Step.fillingAt?, Option.ite_none_right_eq_some] at hFilling
        rcases hFilling with ⟨rfl, hSame⟩
        cases hSame
        exact hIn
  · intro hIn
    exact ⟨_, hIn, if_pos rfl⟩

theorem Filling.length_encode
    (filling : Filling) :
    filling.item.encode.length = filling.room.width := by
  cases filling <;> simp [item, room, Room.width, Item.encode, be16, be32]

theorem Room.length_zero
    (room : Room) :
    room.zero.encode.length = room.width := by
  cases room <;> rfl

/- What a place holds in the end has the width of the place. -/
theorem length_lastItem
    {offset : Nat}
    {room : Room}
    {steps : List Step}
    (hRooms : ∀ filling, .patch offset filling ∈ steps →
      filling.room = room) :
    (lastItem offset room steps).encode.length = room.width := by
  unfold lastItem
  cases hLast :
      (steps.filterMap (Step.fillingAt? offset)).getLast? with
  | none => exact room.length_zero
  | some filling =>
      have hPatch := mem_fillings_iff.mp
        (List.mem_of_getLast? hLast)
      rw [← hRooms filling hPatch]
      exact filling.length_encode

/- The items take the bytes that are written. -/
theorem Proper.length_itemsOf
    {steps : List Step}
    (later : List Step)
    (hProper : Proper places w (steps ++ later))
    (hBelow : ∀ p ∈ places, p.1 < w.offset) :
    (runAll steps w).offset =
      w.offset +
        ((itemsOf w later steps).flatMap Item.encode).length := by
  induction steps generalizing places w with
  | nil => rfl
  | cons s steps ih =>
      cases s with
      | emit item =>
          have hRest := ih hProper (by
            intro p hIn
            have := hBelow p hIn
            rw [offset_emit]
            omega)
          rw [offset_emit, Nat.add_assoc] at hRest
          rw [itemsOf, List.flatMap_cons, List.length_append]
          exact hRest
      | reserve room =>
          have hBehind : Proper ((w.offset, room) :: places)
              (w.reserve room.width) (steps ++ later) := hProper
          have hRest := ih hBehind (by
            intro p hIn
            rw [offset_reserve]
            rcases List.mem_cons.mp hIn with rfl | hOld
            · exact Nat.lt_add_of_pos_right room.width_pos
            · have := hBelow p hOld
              omega)
          have hWidth :
              (lastItem w.offset room
                (steps ++ later)).encode.length = room.width := by
            refine length_lastItem fun filling hPatch =>
              hBehind.room_of_patch ?_ ?_ hPatch
            · intro r hThere
              rcases List.mem_cons.mp hThere with hHere | hOld
              · cases hHere
                rfl
              · exact absurd (hBelow _ hOld) (Nat.lt_irrefl _)
            · rw [offset_reserve]
              exact Nat.lt_add_of_pos_right room.width_pos
          rw [offset_reserve, Nat.add_assoc] at hRest
          rw [itemsOf, List.flatMap_cons, List.length_append, hWidth]
          exact hRest
      | patch offset filling =>
          have hRest := ih hProper.2 (by
            intro p hIn
            rw [offset_patch]
            exact hBelow p hIn)
          rw [offset_patch] at hRest
          exact hRest

------------------------------------------------------------
-- Items
------------------------------------------------------------

theorem itemsOf_append
    (w : ByteWriter)
    (steps more later : List Step) :
    itemsOf w later (steps ++ more) =
      itemsOf w (more ++ later) steps ++
        itemsOf (runAll steps w) later more := by
  induction steps generalizing w with
  | nil => rfl
  | cons s steps ih =>
      cases s with
      | emit item =>
          rw [List.cons_append, itemsOf, ih, itemsOf]
          rfl
      | reserve room =>
          rw [List.cons_append, itemsOf, ih, itemsOf,
            List.append_assoc]
          rfl
      | patch offset filling =>
          rw [List.cons_append, itemsOf, ih, itemsOf]
          rfl

theorem lastItem_append
    (offset : Nat)
    (room : Room)
    (steps : List Step)
    {s : Step}
    (hOther : s.fillingAt? offset = none) :
    lastItem offset room (steps ++ [s]) =
      lastItem offset room steps := by
  rw [lastItem, List.filterMap_append, List.filterMap_cons_none hOther,
    List.filterMap_nil, List.append_nil]
  rfl

theorem lastItem_patched
    (offset : Nat)
    (room : Room)
    (steps : List Step)
    (filling : Filling) :
    lastItem offset room (steps ++ [.patch offset filling]) =
      filling.item := by
  rw [lastItem, List.filterMap_append]
  simp [Step.fillingAt?]

/-
  A step behind others changes what no place of theirs holds,
  if it puts a number into none of them.
-/
theorem itemsOf_of_elsewhere
    {s : Step}
    (steps later : List Step)
    (w : ByteWriter)
    (hElsewhere : ∀ offset, w.offset ≤ offset →
      offset < (runAll steps w).offset → s.fillingAt? offset = none) :
    itemsOf w (later ++ [s]) steps = itemsOf w later steps := by
  induction steps generalizing w with
  | nil => rfl
  | cons first steps ih =>
      cases first with
      | emit item =>
          rw [itemsOf, itemsOf, ih]
          intro offset hFrom hTo
          refine hElsewhere offset ?_ hTo
          rw [offset_emit] at hFrom
          omega
      | reserve room =>
          have hEnd : w.offset <
              (runAll steps (w.reserve room.width)).offset := by
            have hGrows := offset_le_runAll steps
              (w.reserve room.width)
            have hWidth := room.width_pos
            rw [offset_reserve] at hGrows
            omega
          rw [itemsOf, itemsOf, ih, ← List.append_assoc,
            lastItem_append _ _ _
              (hElsewhere w.offset (Nat.le_refl _) hEnd)]
          intro offset hFrom hTo
          refine hElsewhere offset ?_ hTo
          rw [offset_reserve] at hFrom
          omega
      | patch place filling =>
          rw [itemsOf, itemsOf, ih]
          intro offset hFrom hTo
          refine hElsewhere offset ?_ hTo
          rwa [offset_patch] at hFrom

------------------------------------------------------------
-- Runs
------------------------------------------------------------

theorem runAll_concat
    (steps : List Step)
    (s : Step)
    (w : ByteWriter) :
    runAll (steps ++ [s]) w = s.apply (runAll steps w) := by
  simp [runAll]

theorem Proper.left
    {steps more : List Step}
    (hProper : Proper places w (steps ++ more)) :
    Proper places w steps := by
  induction steps generalizing places w with
  | nil => trivial
  | cons s steps ih =>
      cases s with
      | emit item => exact ih hProper
      | reserve room => exact ih hProper
      | patch offset filling => exact ⟨hProper.1, ih hProper.2⟩

/- A place that a number is put into was reserved by a step. -/
theorem Proper.reserved
    {steps : List Step}
    {offset : Nat}
    {filling : Filling}
    (hProper : Proper places w (steps ++ [.patch offset filling])) :
    (offset, filling.room) ∈ places ∨
      ∃ before behind,
        steps = before ++ .reserve filling.room :: behind ∧
          (runAll before w).offset = offset := by
  induction steps generalizing places w with
  | nil => exact .inl hProper.1
  | cons s steps ih =>
      have hLater : ∀ {w' : ByteWriter}, s.apply w = w' →
          (∃ before behind,
            steps = before ++ .reserve filling.room :: behind ∧
              (runAll before w').offset = offset) →
          ∃ before behind,
            s :: steps = before ++ .reserve filling.room :: behind ∧
              (runAll before w).offset = offset := by
        rintro _ rfl ⟨before, behind, rfl, hOffset⟩
        exact ⟨s :: before, behind, rfl, hOffset⟩
      cases s with
      | emit item => exact (ih hProper).imp_right (hLater rfl)
      | reserve room =>
          rcases ih hProper with hThere | hMore
          · rcases List.mem_cons.mp hThere with hHere | hOld
            · cases hHere
              exact .inr ⟨[], steps, rfl, rfl⟩
            · exact .inl hOld
          · exact .inr (hLater rfl hMore)
      | patch place filling' =>
          exact (ih hProper.2).imp_right (hLater rfl)

/-
  A number that is put into a place replaces one item, which
  takes as many bytes and starts where the place does.  The
  place ends where the steps behind it start to write.
-/
theorem Proper.itemsOf_concat_patch
    {steps : List Step}
    {offset : Nat}
    {filling : Filling}
    (hProper : Proper [] w (steps ++ [.patch offset filling])) :
    ∃ before old behind,
      itemsOf w [] steps = before ++ old :: behind ∧
      itemsOf w [] (steps ++ [.patch offset filling]) =
        before ++ filling.item :: behind ∧
      old.encode.length = filling.item.encode.length ∧
      w.offset + (before.flatMap Item.encode).length = offset := by
  rcases hProper.reserved with hNone | ⟨before, behind, rfl, hPlace⟩
  · cases hNone
  let first := itemsOf w (.reserve filling.room :: behind) before
  let last := itemsOf
    ((runAll before w).reserve filling.room.width) [] behind
  let old := lastItem offset filling.room behind
  have hBefore :
      w.offset + (first.flatMap Item.encode).length = offset := by
    rw [← hPlace]
    exact (hProper.left.length_itemsOf _ (by simp)).symm
  have hWidth : old.encode.length = filling.room.width := by
    have hUntil :
        Proper [] w ((before ++ [.reserve filling.room]) ++ behind) := by
      simpa using hProper.left
    have hEnd := hUntil.length_itemsOf behind (by simp)
    rw [runAll_concat, Step.apply, offset_reserve, hPlace,
      itemsOf_append, itemsOf, itemsOf, hPlace, List.nil_append,
      List.flatMap_append, List.flatMap_singleton,
      List.length_append] at hEnd
    change _ = w.offset + ((first.flatMap Item.encode).length +
      old.encode.length) at hEnd
    omega
  refine ⟨first, old, last, ?_, ?_, ?_, hBefore⟩
  · rw [itemsOf_append, itemsOf, hPlace, List.append_nil,
      List.append_nil]
  · have hFirst : itemsOf w
        (.reserve filling.room :: behind ++ [.patch offset filling])
          before = first := by
      refine itemsOf_of_elsewhere before _ w fun place _ hTo => ?_
      exact if_neg (by omega)
    have hLast : itemsOf
        ((runAll before w).reserve filling.room.width)
          [.patch offset filling] behind = last := by
      refine itemsOf_of_elsewhere behind [] _ fun place hFrom _ => ?_
      rw [offset_reserve] at hFrom
      have hPos := filling.room.width_pos
      exact if_neg (by omega)
    rw [List.append_assoc, itemsOf_append, List.append_nil,
      hFirst, List.cons_append, itemsOf, hPlace, List.append_nil,
      lastItem_patched, itemsOf_append, List.append_nil, hLast,
      itemsOf, itemsOf, List.append_nil]
  · rw [hWidth, filling.length_encode]

/- A step that puts no number anywhere leaves the items before it. -/
theorem direct_concat
    (steps : List Step)
    {s : Step}
    (hNowhere : ∀ offset, s.fillingAt? offset = none) :
    direct (steps ++ [s]) =
      direct steps ++ itemsOf (runAll steps {}) [] [s] := by
  have hSteps : itemsOf {} [s] steps = direct steps :=
    itemsOf_of_elsewhere steps [] {} fun offset _ _ =>
      hNowhere offset
  rw [direct, itemsOf_append, List.append_nil, hSteps]

/- After steps the bytes are those of the items. -/
theorem Proper.toList_runAll
    {steps : List Step}
    (hProper : Proper [] {} steps) :
    (runAll steps {}).bytes.toList =
      (direct steps).flatMap Item.encode := by
  induction steps using List.reverseRecOn with
  | nil => rfl
  | append_singleton steps s ih =>
      have hBytes := ih hProper.left
      rw [runAll_concat]
      cases s with
      | emit item =>
          rw [Step.apply, toList_emit, hBytes,
            direct_concat steps fun _ => rfl, List.flatMap_append]
          exact congrArg _ (List.append_nil _).symm
      | reserve room =>
          rw [Step.apply, toList_reserve, hBytes,
            direct_concat steps fun _ => rfl, List.flatMap_append]
          exact congrArg _ (List.append_nil _).symm
      | patch offset filling =>
          rcases hProper.itemsOf_concat_patch with
            ⟨before, old, behind, hOld, hNew, hLength, hOffset⟩
          have hPlace :
              (before.flatMap Item.encode).length = offset := by
            rw [← hOffset]
            exact (Nat.zero_add _).symm
          rw [direct, hOld, List.flatMap_append, List.flatMap_cons,
            ← List.append_assoc] at hBytes
          have hAfter := toList_patch _ hBytes hLength
          rw [hPlace, List.append_assoc] at hAfter
          rw [Step.apply, hAfter, direct, hNew, List.flatMap_append,
            List.flatMap_cons]

/- Items that are emitted leave their bytes, one after another. -/
theorem toList_runAll_emit
    (items : List Item)
    (w : ByteWriter) :
    (runAll (items.map .emit) w).bytes.toList =
      w.bytes.toList ++ items.flatMap Item.encode := by
  induction items generalizing w with
  | nil => simp [runAll]
  | cons item items ih =>
      have hRest := ih (w.emit item)
      rw [toList_emit, List.append_assoc] at hRest
      rw [List.flatMap_cons]
      exact hRest

end ByteWriter

------------------------------------------------------------
-- Reading Back
------------------------------------------------------------

/- An item whose length, if it has one, fits into two bytes. -/
def Item.IsShort : Item → Prop
  | .text s => (ModifiedUtf8.encode s).length ≤ 65535
  | _ => True

/- An item is read back as what it is. -/
theorem Reads.item
    (item : Item)
    (hShort : item.IsShort) :
    Reads (Decoder.item item.kind) item.encode item := by
  cases item with
  | u8 n => exact (Reads.u8 n).bind_pure
  | i8 n =>
      have hRead := (Reads.u8 n.toUInt8).bind_pure
        (f := fun m => Item.i8 m.toInt8)
      exact hRead
  | u16 n => exact (Reads.u16 n).bind_pure
  | i16 n =>
      have hRead := (Reads.u16 n.toUInt16).bind_pure
        (f := fun m => Item.i16 m.toInt16)
      exact hRead
  | u32 n => exact (Reads.u32 n).bind_pure
  | i32 n =>
      have hRead := (Reads.u32 n.toUInt32).bind_pure
        (f := fun m => Item.i32 m.toInt32)
      exact hRead
  | i64 n =>
      have hRead := (Reads.u64 n.toUInt64).bind_pure
        (f := fun m => Item.i64 m.toInt64)
      exact hRead
  | f32 x => exact (Reads.u32 x.bits).bind_pure
  | f64 x => exact (Reads.u64 x.bits).bind_pure
  | bytes bs => exact (Reads.take bs).bind_pure
  | text s => exact (Reads.text hShort).bind_pure

theorem Reads.items
    (items : List Item)
    (hShort : ∀ item ∈ items, item.IsShort) :
    Reads (Decoder.items (items.map Item.kind))
      (items.flatMap Item.encode) items := by
  induction items with
  | nil => exact Reads.pure []
  | cons item items ih =>
      rw [List.forall_mem_cons] at hShort
      rw [List.map_cons, List.flatMap_cons, Decoder.items,
        List.mapM_cons]
      exact (Reads.item item hShort.1).bind
        (ih hShort.2).bind_pure

/- A text that is read had a length that fits into two bytes. -/
theorem Item.isShort_of_yields
    {item : Item}
    {r r' : ByteReader}
    (hRead : Yields (Decoder.item item.kind) r item r') :
    item.IsShort := by
  cases item with
  | text s =>
      simp only [Item.kind, Decoder.item, yields_bind, yields_pure]
        at hRead
      rcases hRead with ⟨t, _, hText, hSame, -⟩
      cases hSame
      rcases rest_of_text hText with ⟨bytes, hDecoded, hFew, -⟩
      exact Nat.le_trans (ModifiedUtf8.encode_shortest hDecoded) hFew
  | _ => trivial

/-
  Items are read back from what was written of them, with no
  byte left over, exactly if all of them are short.
-/
theorem Decoder.yields_items_iff
    (items : List Item) :
    (∃ r, Yields (Decoder.items (items.map Item.kind))
        { data := (items.flatMap Item.encode).toArray } items r ∧
      r.remaining = 0) ↔
      ∀ item ∈ items, item.IsShort := by
  constructor
  · rintro ⟨r, hRead, -⟩
    generalize ByteReader.mk _ 0 = start at hRead
    induction items generalizing start with
    | nil => simp
    | cons item items ih =>
        rw [List.map_cons, Decoder.items, List.mapM_cons] at hRead
        simp only [yields_bind, yields_pure] at hRead
        rcases hRead with ⟨_, _, hFirst, _, _, hRest, hSame, rfl⟩
        cases hSame
        exact List.forall_mem_cons.mpr
          ⟨Item.isShort_of_yields hFirst, ih _ hRest⟩
  · intro hShort
    have hRead := Reads.items items hShort [] []
    simp only [List.nil_append, List.append_nil, List.length_nil]
      at hRead
    exact ⟨_, hRead, by simp [ByteReader.remaining]⟩

------------------------------------------------------------
-- Deferred Writing
------------------------------------------------------------

namespace ByteWriter

variable {steps : List Step}

theorem Proper.bytes_runAll
    (hProper : Proper [] {} steps) :
    (runAll steps {}).bytes =
      ((direct steps).flatMap Item.encode).toArray :=
  Array.toList_inj.mp hProper.toList_runAll

/- The same writer is left by emitting the items. -/
theorem Proper.runAll_eq
    (hProper : Proper [] {} steps) :
    runAll steps {} = runAll ((direct steps).map .emit) {} := by
  have hSame : (runAll steps {}).bytes =
      (runAll ((direct steps).map .emit) {}).bytes := by
    apply Array.toList_inj.mp
    rw [hProper.toList_runAll, toList_runAll_emit]
    rfl
  exact congrArg ByteWriter.mk hSame

/- The items are read from what the steps have written. -/
theorem Proper.readable_iff
    (hProper : Proper [] {} steps) :
    (∃ r, Yields (Decoder.items ((direct steps).map Item.kind))
        { data := (runAll steps {}).bytes } (direct steps) r ∧
      r.remaining = 0) ↔
      ∀ item ∈ direct steps, item.IsShort := by
  rw [hProper.bytes_runAll]
  exact Decoder.yields_items_iff (direct steps)

/-
  Steps that put numbers only into places of theirs leave the
  bytes that are left by emitting, in their order, the items of
  the steps and for each place the number that it gets last, or
  zero.  Reading items of the same kinds gives just these and
  ends at the end, if and only if no text is too long for its
  length.
-/
theorem deferred_eq_direct
    (steps : List Step)
    (hProper : Proper [] {} steps) :
    runAll steps {} = runAll ((direct steps).map .emit) {} ∧
      ((∃ r, Yields (Decoder.items ((direct steps).map Item.kind))
          { data := (runAll steps {}).bytes } (direct steps) r ∧
        r.remaining = 0) ↔
        ∀ item ∈ direct steps, item.IsShort) :=
  ⟨hProper.runAll_eq, hProper.readable_iff⟩

/-
  A place that gets two numbers keeps the second one, although
  other bytes were written in between.
-/
theorem deferred_eq_direct_twice :
    let steps : List Step :=
      [.emit (.u8 0xa7), .reserve .two, .emit (.text "x"),
        .patch 1 (.u16 9), .reserve .four, .patch 6 (.u32 7),
        .patch 1 (.i16 (-2)), .reserve .two]
    let items : List Item :=
      [.u8 0xa7, .i16 (-2), .text "x", .u32 7, .u16 0]
    Proper [] {} steps ∧ direct steps = items ∧
      runAll steps {} = runAll (items.map .emit) {} ∧
      ∃ r, Yields (Decoder.items (items.map Item.kind))
          { data := (runAll steps {}).bytes } items r ∧
        r.remaining = 0 := by
  intro steps items
  have hProper : Proper [] {} steps := by decide +kernel
  have hDirect : direct steps = items := by rfl
  have hShort : ∀ item ∈ direct steps, item.IsShort := by
    have hText : (ModifiedUtf8.encode "x").length ≤ 65535 := by
      decide +kernel
    rw [hDirect]
    simp only [items, List.forall_mem_cons]
    exact ⟨trivial, trivial, hText, trivial, trivial, by simp⟩
  have hBoth := deferred_eq_direct steps hProper
  have hRead := hBoth.2.mpr hShort
  rw [hDirect] at hBoth hRead
  exact ⟨hProper, hDirect, hBoth.1, hRead⟩

/- A text whose length does not fit is not read back. -/
theorem unread_of_long_text :
    let steps : List Step :=
      [.emit (.text (String.ofList (List.replicate 65536 'a')))]
    Proper [] {} steps ∧
      ¬ ∃ r, Yields (Decoder.items ((direct steps).map Item.kind))
          { data := (runAll steps {}).bytes } (direct steps) r ∧
        r.remaining = 0 := by
  intro steps
  have hProper : Proper [] {} steps := trivial
  refine ⟨hProper, fun hRead => ?_⟩
  have hShort := hProper.readable_iff.mp hRead _ List.mem_cons_self
  have hLong := ModifiedUtf8.length_le_encode
    (String.ofList (List.replicate 65536 'a'))
  rw [String.toList_ofList, List.length_replicate] at hLong
  exact absurd (Nat.le_trans hLong hShort) (by decide)

end ByteWriter

end Stratagem
