import Stratagem.Jvm.Ty.Parser

/-
  Slices of a text between two offsets in bytes.

  The first byte of a character is different from all others,
  so bytes that start with a character's first one start at a
  character wherever they stand, and they are the bytes of no
  other characters.

  Key definitions include:
    * `Text.bytes`
    * `Text.utf8`

  Main declarations:
    * `Text.eq_append_of_utf8`
    * `Jvm.dropBytes_eq_some`
    * `Jvm.takeBytes_append`
    * `Jvm.le_of_takeBytes`
-/

namespace Stratagem

------------------------------------------------------------
-- Bytes
------------------------------------------------------------

namespace Text

/- The bytes of a text as UTF-8. -/
def bytes
    (s : String) : List UInt8 :=
  s.toUTF8.data.toList

/- The bytes of characters as UTF-8. -/
def utf8
    (cs : List Char) : List UInt8 :=
  cs.flatMap String.utf8EncodeChar

theorem bytes_eq_utf8
    (s : String) :
    bytes s = utf8 s.toList := by
  rw [bytes, String.toUTF8_eq_toByteArray, ← String.utf8Encode_toList]
  simp [List.utf8Encode, utf8]

@[simp] theorem utf8_append
    (cs ds : List Char) :
    utf8 (cs ++ ds) = utf8 cs ++ utf8 ds :=
  List.flatMap_append

@[simp] theorem length_utf8
    (cs : List Char) :
    (utf8 cs).length = byteCount cs := by
  induction cs with
  | nil => rfl
  | cons c cs ih =>
      rw [utf8, List.flatMap_cons, List.length_append,
        String.length_utf8EncodeChar]
      exact congrArg _ ih

@[simp] theorem byteCount_cons
    (c : Char)
    (cs : List Char) :
    byteCount (c :: cs) = c.utf8Size + byteCount cs :=
  rfl

@[simp] theorem byteCount_append
    (cs ds : List Char) :
    byteCount (cs ++ ds) = byteCount cs + byteCount ds := by
  rw [← length_utf8, utf8_append, List.length_append, length_utf8,
    length_utf8]

theorem byteCount_pos
    {cs : List Char}
    (hSome : cs ≠ []) :
    0 < byteCount cs := by
  cases cs with
  | nil => exact absurd rfl hSome
  | cons c cs =>
      rw [byteCount_cons]
      exact Nat.add_pos_left c.utf8Size_pos _

/- A first byte stands where a character starts. -/
theorem exists_split_of_first
    {cs : List Char}
    {n : Nat}
    {b : UInt8}
    (hByte : (utf8 cs)[n]? = some b)
    (hFirst : b.IsUTF8FirstByte) :
    ∃ before tail, cs = before ++ tail ∧ byteCount before = n := by
  induction cs generalizing n with
  | nil => cases hByte
  | cons c cs ih =>
      rw [utf8, List.flatMap_cons, List.getElem?_append,
        String.length_utf8EncodeChar] at hByte
      split at hByte
      case isTrue hWithin =>
          rcases List.getElem?_eq_some_iff.mp hByte with ⟨hLt, rfl⟩
          have hZero :=
            UInt8.isUTF8FirstByte_getElem_utf8EncodeChar.mp hFirst
          exact ⟨[], c :: cs, rfl, hZero.symm⟩
      case isFalse hBehind =>
          rcases ih hByte with ⟨before, tail, rfl, hCount⟩
          refine ⟨c :: before, tail, rfl, ?_⟩
          rw [byteCount_cons, hCount]
          omega

/- Bytes of characters are those of no others. -/
theorem eq_append_of_utf8
    {used tail : List Char}
    {behind : List UInt8}
    (hBytes : utf8 tail = utf8 used ++ behind) :
    ∃ more, tail = used ++ more := by
  have hArrays :
      used.utf8Encode ++ behind.toByteArray = tail.utf8Encode := by
    rw [List.utf8Encode, List.utf8Encode, ← List.toByteArray_append]
    exact congrArg List.toByteArray hBytes.symm
  rcases List.isPrefix_of_utf8Encode_append_eq_utf8Encode _ hArrays
    with ⟨more, rfl⟩
  exact ⟨more, rfl⟩

/- Where the bytes of characters stand, there they are. -/
theorem exists_split_of_utf8
    {cs used : List Char}
    {start : Nat}
    (hSome : used ≠ [])
    (hBytes : ((utf8 cs).drop start).take (byteCount used) =
      utf8 used) :
    ∃ before more, cs = before ++ (used ++ more) ∧
      byteCount before = start := by
  cases used with
  | nil => exact absurd rfl hSome
  | cons c used =>
      have hLead : 0 < (String.utf8EncodeChar c).length := by
        rw [String.length_utf8EncodeChar]
        exact c.utf8Size_pos
      have hHead : (utf8 (c :: used))[0]? =
          some (String.utf8EncodeChar c)[0] := by
        rw [utf8, List.flatMap_cons, List.getElem?_append_left hLead]
        exact List.getElem?_eq_getElem hLead
      rw [← hBytes, List.getElem?_take_of_lt
        (byteCount_pos (List.cons_ne_nil c used)),
        List.getElem?_drop, Nat.add_zero] at hHead
      rcases exists_split_of_first hHead
          UInt8.isUTF8FirstByte_getElem_zero_utf8EncodeChar with
        ⟨before, tail, rfl, hStart⟩
      have hTail : ((utf8 (before ++ tail)).drop start) =
          utf8 tail := by
        rw [utf8_append, ← hStart, ← length_utf8, List.drop_left]
      rw [hTail] at hBytes
      have hSplit := List.take_append_drop (byteCount (c :: used))
        (utf8 tail)
      rw [hBytes] at hSplit
      rcases eq_append_of_utf8 hSplit.symm with ⟨more, rfl⟩
      exact ⟨before, more, rfl, hStart⟩

end Text

------------------------------------------------------------
-- Slices
------------------------------------------------------------

namespace Jvm

open Text

@[simp] theorem dropBytes_zero
    (cs : List Char) :
    dropBytes 0 cs = some cs := by
  rw [dropBytes]

/- What is left behind so many bytes. -/
theorem dropBytes_eq_some
    {n : Nat}
    {cs tail : List Char} :
    dropBytes n cs = some tail ↔
      ∃ before, cs = before ++ tail ∧ byteCount before = n := by
  constructor
  · intro hDrop
    induction cs generalizing n with
    | nil =>
        cases n with
        | zero =>
            rw [dropBytes_zero] at hDrop
            exact ⟨[], Option.some.inj hDrop, rfl⟩
        | succ n =>
            rw [dropBytes] at hDrop
            cases hDrop
    | cons c cs ih =>
        cases n with
        | zero =>
            rw [dropBytes_zero] at hDrop
            exact ⟨[], Option.some.inj hDrop, rfl⟩
        | succ n =>
            rw [dropBytes, Option.ite_none_right_eq_some] at hDrop
            rcases ih hDrop.2 with ⟨before, rfl, hCount⟩
            refine ⟨c :: before, rfl, ?_⟩
            have hFits := hDrop.1
            rw [byteCount_cons, hCount]
            omega
  · rintro ⟨before, rfl, rfl⟩
    induction before with
    | nil => exact dropBytes_zero tail
    | cons c before ih =>
        have hPos := c.utf8Size_pos
        rw [byteCount_cons, List.cons_append]
        rcases hCount : c.utf8Size + byteCount before with _ | n
        · omega
        · rw [dropBytes, if_pos (by omega)]
          have hLeft : n + 1 - c.utf8Size = byteCount before := by
            omega
          rw [hLeft]
          exact ih

theorem takeBytes_isPrefix
    (n : Nat)
    (cs : List Char) :
    (takeBytes n cs).1 <+: cs := by
  induction cs generalizing n with
  | nil => cases n <;> simp [takeBytes]
  | cons c cs ih =>
      cases n with
      | zero => simp [takeBytes]
      | succ n =>
          rw [takeBytes]
          split
          · exact List.prefix_cons_inj c |>.mpr (ih _)
          · exact ⟨cs, rfl⟩

/- Characters are taken if there is room for their bytes. -/
theorem takeBytes_append
    {n : Nat}
    {used : List Char}
    (more : List Char)
    (hRoom : byteCount used ≤ n) :
    ∃ rest, (takeBytes n (used ++ more)).1 = used ++ rest := by
  induction used generalizing n with
  | nil => exact ⟨_, rfl⟩
  | cons c used ih =>
      rw [byteCount_cons] at hRoom
      have hPos := c.utf8Size_pos
      cases n with
      | zero => omega
      | succ n =>
          rw [List.cons_append, takeBytes, if_pos (by omega)]
          rcases ih (n := n + 1 - c.utf8Size) (by omega) with
            ⟨rest, hRest⟩
          exact ⟨rest, congrArg (c :: ·) hRest⟩

/-
  There is room for all bytes up to a character of one byte,
  for only a longer one can be cut.
-/
theorem le_of_takeBytes
    {n : Nat}
    {cs front rest : List Char}
    {c : Char}
    (hTake : (takeBytes n cs).1 = front ++ c :: rest)
    (hSmall : c.utf8Size = 1) :
    byteCount (front ++ [c]) ≤ n := by
  induction front generalizing n cs with
  | nil =>
      cases n with
      | zero => simp [takeBytes] at hTake
      | succ n => simp [hSmall, byteCount]
  | cons d front ih =>
      cases n with
      | zero => simp [takeBytes] at hTake
      | succ n =>
          cases cs with
          | nil => simp [takeBytes] at hTake
          | cons e cs =>
              rw [takeBytes] at hTake
              split at hTake
              case isTrue hFits =>
                  rcases List.cons.inj hTake with ⟨rfl, hInner⟩
                  have hRest := ih hInner
                  rw [List.cons_append, byteCount_cons]
                  omega
              case isFalse => simp at hTake

end Jvm

end Stratagem
