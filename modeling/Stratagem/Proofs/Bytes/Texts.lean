import Stratagem.Bytes.Writer
import Stratagem.Proofs.Bytes.Exactness

/-
  The text encoding loses nothing.

  The bytes of a text are those of its characters, one after
  another, and none of them is a zero or opens a form of four
  bytes.  A text is read back from what was written of it as
  long as its length fits into the two bytes before it.

  Main declarations:
    * `ModifiedUtf8.encode_append`
    * `ModifiedUtf8.range_of_mem_encode`
    * `ByteWriter.text_readable_iff`
    * `ModifiedUtf8.lossless`
-/

namespace Stratagem

------------------------------------------------------------
-- Encoded Texts
------------------------------------------------------------

namespace ModifiedUtf8

variable {s t : String}

/- The bytes of a unit neither are zero nor open a longer form. -/
theorem range_of_mem_bytesOf
    {u : Nat}
    {b : UInt8}
    (hUnit : u < 0x10000)
    (hByte : b ∈ bytesOf u) :
    b ≠ 0 ∧ b < 0xf0 := by
  have hRange :
      ∀ n, 0 < n → n < 0xf0 →
        UInt8.ofNat n ≠ 0 ∧ UInt8.ofNat n < 0xf0 := by
    intro n hPositive hSmall
    have hNat : (UInt8.ofNat n).toNat = n := by
      simpa using Nat.mod_eq_of_lt (show n < 256 by omega)
    constructor
    · intro hZero
      rw [hZero] at hNat
      exact absurd hNat (Nat.ne_of_lt hPositive)
    · rw [UInt8.lt_iff_toNat_lt, hNat]
      exact hSmall
  unfold bytesOf at hByte
  split at hByte
  case isTrue hShort =>
      rw [List.mem_singleton] at hByte
      rw [hByte]
      exact hRange u hShort.1 (by omega)
  case isFalse hShort =>
      split at hByte
      case isTrue hTwo =>
          simp only [List.mem_cons, List.not_mem_nil, or_false]
            at hByte
          rcases hByte with rfl | rfl <;>
            exact hRange _ (by omega) (by omega)
      case isFalse hTwo =>
          simp only [List.mem_cons, List.not_mem_nil, or_false]
            at hByte
          rcases hByte with rfl | rfl | rfl <;>
            exact hRange _ (by omega) (by omega)

theorem range_of_mem_encode
    {b : UInt8}
    (hByte : b ∈ encode s) :
    b ≠ 0 ∧ b < 0xf0 := by
  rcases List.mem_flatMap.mp hByte with ⟨u, hUnit, hByte⟩
  rcases List.mem_flatMap.mp hUnit with ⟨c, -, hUnit⟩
  exact range_of_mem_bytesOf (unitsOf_lt c u hUnit) hByte

/- Texts are encoded character by character. -/
theorem encode_append
    (s t : String) :
    encode (s ++ t) = encode s ++ encode t := by
  rw [encode, String.toList_append, List.flatMap_append,
    List.flatMap_append]
  rfl

/- What can be decoded can be told apart. -/
theorem encode_injective
    (hSame : encode s = encode t) :
    s = t := by
  have hDecoded := decode?_encode s
  rw [hSame, decode?_encode] at hDecoded
  exact (Option.some.inj hDecoded).symm

end ModifiedUtf8

------------------------------------------------------------
-- Written Texts
------------------------------------------------------------

namespace ByteWriter

theorem toList_append
    (w : ByteWriter)
    (bs : List UInt8) :
    (w.append bs).bytes.toList = w.bytes.toList ++ bs := by
  rcases w with ⟨bytes⟩
  change (bs.foldl Array.push bytes).toList = bytes.toList ++ bs
  induction bs generalizing bytes with
  | nil => simp
  | cons b bs ih =>
      rw [List.foldl_cons, ih, Array.toList_push,
        List.append_assoc]
      rfl

theorem offset_append
    (w : ByteWriter)
    (bs : List UInt8) :
    (w.append bs).offset = w.offset + bs.length := by
  rw [offset, ← Array.length_toList, toList_append,
    List.length_append, Array.length_toList]
  rfl

/-
  A text is read from where it was written, up to where it
  ends, exactly if its length fits into two bytes.  A longer
  one would have to be read from fewer bytes than it takes.
-/
theorem text_readable_iff
    (w : ByteWriter)
    (s : String)
    (more : List UInt8) :
    let written := w.emit (.text s)
    let data := (written.append more).bytes
    Yields Decoder.text { data, position := w.offset } s
        { data, position := written.offset } ↔
      (ModifiedUtf8.encode s).length ≤ 65535 := by
  intro written data
  have hData :
      data =
        (w.bytes.toList ++ (encodeText s ++ more)).toArray := by
    apply Array.toList_inj.mp
    change ((w.append (encodeText s)).append more).bytes.toList =
      _
    rw [toList_append, toList_append, List.append_assoc]
  have hOffset :
      written.offset =
        w.bytes.toList.length + (encodeText s).length := by
    rw [Array.length_toList]
    exact offset_append w (encodeText s)
  constructor
  · intro hRead
    rcases rest_of_text hRead with
      ⟨bytes, hDecoded, hShort, -⟩
    exact Nat.le_trans (ModifiedUtf8.encode_shortest hDecoded)
      hShort
  · intro hShort
    have hRead :=
      Reads.text hShort w.bytes.toList more
    rw [hOffset, hData]
    exact hRead

end ByteWriter

------------------------------------------------------------
-- The Encoding
------------------------------------------------------------

/-
  Every text is decoded from its encoding, whose bytes are
  neither zero nor above those that open a form of three
  bytes; texts put together are encoded one after the other;
  different texts are encoded differently; and a text that was
  written is read back if and only if it has at most 65535
  bytes, whatever was written before and behind it.
-/
theorem ModifiedUtf8.lossless
    (s : String) :
    decode? (encode s) = some s ∧
      (∀ b ∈ encode s, b ≠ 0 ∧ b < 0xf0) ∧
      (∀ t, encode (s ++ t) = encode s ++ encode t) ∧
      (∀ t, encode s = encode t ↔ s = t) ∧
      ∀ (w : ByteWriter) (more : List UInt8),
        let written := w.emit (.text s)
        let data := (written.append more).bytes
        Yields Decoder.text { data, position := w.offset } s
            { data, position := written.offset } ↔
          (encode s).length ≤ 65535 := by
  refine ⟨decode?_encode s, fun b => range_of_mem_encode,
    encode_append s, fun t => ⟨encode_injective, ?_⟩,
    fun w more => w.text_readable_iff s more⟩
  intro hSame
  rw [hSame]

/- The zero character, and one that takes two units. -/
example :
    ModifiedUtf8.encode
        (String.ofList [Char.ofNat 0, Char.ofNat 0x1f600]) =
      [0xc0, 0x80, 0xed, 0xa0, 0xbd, 0xed, 0xb8, 0x80] := by
  decide +kernel

end Stratagem
