import Mathlib.Data.List.Induction
import Stratagem.Proofs.Bytes.RoundTrip

/-
  What decoders accept.

  A decoder of numbers accepts nothing but the encoding of the
  number that it gives.  A text can be written in several ways,
  and of these its encoding is the only shortest one.

  Key definitions include:
    * `Finds`

  Main declarations:
    * `bigEndian_ofBigEndian`
    * `ModifiedUtf8.encode_shortest`
    * `ModifiedUtf8.eq_encode_of_length`
    * `Finds.u16`
    * `Finds.repeated`
    * `rest_of_text`
-/

namespace Stratagem

------------------------------------------------------------
-- Numbers
------------------------------------------------------------

theorem ofBigEndian_lt
    (bytes : List UInt8) :
    ofBigEndian bytes < 256 ^ bytes.length := by
  induction bytes using List.reverseRecOn with
  | nil => simp [ofBigEndian]
  | append_singleton bytes b ih =>
      have hByte := b.toNat_lt
      rw [ofBigEndian_concat, List.length_append,
        List.length_singleton, Nat.pow_succ]
      omega

/- Bytes are the digits of the number that they make. -/
theorem bigEndian_ofBigEndian
    (bytes : List UInt8) :
    bigEndian bytes.length (ofBigEndian bytes) = bytes := by
  induction bytes using List.reverseRecOn with
  | nil => rfl
  | append_singleton bytes b ih =>
      have hByte := b.toNat_lt
      have hHigh :
          (256 * ofBigEndian bytes + b.toNat) / 256 =
            ofBigEndian bytes := by omega
      have hLow :
          UInt8.ofNat (256 * ofBigEndian bytes + b.toNat) = b := by
        apply UInt8.toNat.inj
        rw [UInt8.toNat_ofNat']
        omega
      rw [ofBigEndian_concat, List.length_append,
        List.length_singleton, bigEndian, hHigh, hLow, ih]

theorem be16_injective
    {m n : UInt16}
    (hSame : be16 m = be16 n) :
    m = n := by
  have hNumbers := congrArg ofBigEndian hSame
  have hLeft := m.toNat_lt
  have hRight := n.toNat_lt
  rw [be16, be16, ofBigEndian_bigEndian, ofBigEndian_bigEndian]
    at hNumbers
  apply UInt16.toNat.inj
  omega

------------------------------------------------------------
-- Texts
------------------------------------------------------------

namespace ModifiedUtf8

/-
  Bytes that are read as units.  They may be more than the
  units need, and if they are as many then they are those that
  the units are written with.
-/
structure Carries
    (bytes : List UInt8)
    (units : List Nat) : Prop where
  small : ∀ u ∈ units, u < 0x10000
  least : (units.flatMap bytesOf).length ≤ bytes.length
  only : bytes.length ≤ (units.flatMap bytesOf).length →
    bytes = units.flatMap bytesOf

theorem Carries.nil :
    Carries [] [] :=
  ⟨by simp, by simp, by simp⟩

/- Bytes of one unit in front of the bytes of others. -/
theorem Carries.cons
    (bytes : List UInt8)
    {rest : List UInt8}
    {u : Nat}
    {units : List Nat}
    (hSmall : u < 0x10000)
    (hLeast : (bytesOf u).length ≤ bytes.length)
    (hOnly : bytes.length ≤ (bytesOf u).length →
      bytes = bytesOf u)
    (hRest : Carries rest units) :
    Carries (bytes ++ rest) (u :: units) where
  small := by
    intro v hv
    rcases List.mem_cons.mp hv with rfl | hv
    · exact hSmall
    · exact hRest.small v hv
  least := by
    have hMore := hRest.least
    rw [List.flatMap_cons, List.length_append, List.length_append]
    omega
  only := by
    intro hLength
    have hMore := hRest.least
    rw [List.flatMap_cons, List.length_append,
      List.length_append] at hLength
    rw [List.flatMap_cons, hOnly (by omega),
      ← hRest.only (by omega)]

theorem continuation?_eq_some
    {b : UInt8}
    {low : Nat}
    (hByte : continuation? b = some low) :
    low < 0x40 ∧ b = UInt8.ofNat (0x80 + low) := by
  unfold continuation? at hByte
  split at hByte
  case isTrue hMark =>
      cases hByte
      refine ⟨by omega, ?_⟩
      apply UInt8.toNat.inj
      rw [UInt8.toNat_ofNat']
      have hSmall := b.toNat_lt
      omega
  case isFalse => cases hByte

theorem length_bytesOf_le_two
    {u : Nat}
    (hFew : u < 0x800) :
    (bytesOf u).length ≤ 2 := by
  rw [bytesOf, if_pos hFew]
  split <;> simp

/-
  Units are read from as many bytes as they take, or more.  A
  unit below 0x80 would have taken one byte, and one below
  0x800 would have taken two.
-/
theorem carries_of_readUnits
    {acc units : List Nat}
    {bytes : List UInt8}
    (hRead : readUnits acc bytes = some units) :
    ∃ more, units = acc.reverse ++ more ∧ Carries bytes more := by
  fun_induction readUnits acc bytes with
  | case1 acc =>
      cases hRead
      exact ⟨[], by simp, .nil⟩
  | case2 acc a rest n hShort ih =>
      rcases ih hRead with ⟨more, rfl, hRest⟩
      refine ⟨n :: more, by simp, ?_⟩
      have hBytes : bytesOf n = [a] := by
        rw [bytesOf, if_pos hShort, UInt8.ofNat_toNat]
      exact Carries.cons [a] (by omega)
        (by rw [hBytes]) (fun _ => hBytes.symm) hRest
  | case3 acc a n hShort hLead b rest low hLow ih =>
      rcases ih hRead with ⟨more, rfl, hRest⟩
      rcases continuation?_eq_some hLow with ⟨hSmall, rfl⟩
      refine ⟨(n % 0x20 * 0x40 + low) :: more, by simp, ?_⟩
      by_cases hOne : 0 < n % 0x20 * 0x40 + low ∧
          n % 0x20 * 0x40 + low < 0x80
      · have hBytes : (bytesOf (n % 0x20 * 0x40 + low)).length =
            1 := by
          rw [bytesOf, if_pos hOne]
          rfl
        exact Carries.cons [a, _] (by omega)
          (by simp [hBytes]) (by simp [hBytes]) hRest
      · have hHigh : 0xc0 + (n % 0x20 * 0x40 + low) / 0x40 =
            a.toNat := by omega
        have hLast : (n % 0x20 * 0x40 + low) % 0x40 = low := by
          omega
        have hBytes : bytesOf (n % 0x20 * 0x40 + low) =
            [a, UInt8.ofNat (0x80 + low)] := by
          rw [bytesOf, if_neg hOne, if_pos (by omega), hHigh,
            hLast, UInt8.ofNat_toNat]
        exact Carries.cons [a, _] (by omega)
          (by rw [hBytes]) (fun _ => hBytes.symm) hRest
  | case6 acc a n hShort hTwo hLead b c rest mid low hMid hLow ih =>
      rcases ih hRead with ⟨more, rfl, hRest⟩
      rcases continuation?_eq_some hMid with ⟨hMidSmall, rfl⟩
      rcases continuation?_eq_some hLow with ⟨hSmall, rfl⟩
      refine ⟨(n % 0x10 * 0x1000 + mid * 0x40 + low) :: more,
        by simp, ?_⟩
      by_cases hFew : n % 0x10 * 0x1000 + mid * 0x40 + low < 0x800
      · have hBytes := length_bytesOf_le_two hFew
        exact Carries.cons [a, _, _] (by omega)
          (Nat.le_succ_of_le hBytes)
          (fun hLength =>
            absurd (Nat.le_trans hLength hBytes) (by simp))
          hRest
      · have hHigh :
            0xe0 + (n % 0x10 * 0x1000 + mid * 0x40 + low) / 0x1000 =
              a.toNat := by omega
        have hMiddle :
            (n % 0x10 * 0x1000 + mid * 0x40 + low) / 0x40 % 0x40 =
              mid := by omega
        have hLast :
            (n % 0x10 * 0x1000 + mid * 0x40 + low) % 0x40 =
              low := by omega
        have hBytes :
            bytesOf (n % 0x10 * 0x1000 + mid * 0x40 + low) =
              [a, UInt8.ofNat (0x80 + mid),
                UInt8.ofNat (0x80 + low)] := by
          rw [bytesOf, if_neg (by omega), if_neg hFew, hHigh,
            hMiddle, hLast, UInt8.ofNat_toNat]
        exact Carries.cons [a, _, _] (by omega)
          (by rw [hBytes]) (fun _ => hBytes.symm) hRest
  | case4 => cases hRead
  | case5 => cases hRead
  | case7 => cases hRead
  | case8 => cases hRead
  | case9 => cases hRead

theorem toNat_ofNat_valid
    {n : Nat}
    (hValid : n < 0xd800 ∨ 0xdfff < n ∧ n < 0x110000) :
    (Char.ofNat n).toNat = n := by
  rw [Char.ofNat, dif_pos hValid]
  rfl

/- Units that are read as characters are just theirs. -/
theorem units_of_readChars
    {acc cs : List Char}
    {units : List Nat}
    (hSmall : ∀ u ∈ units, u < 0x10000)
    (hRead : readChars acc units = some cs) :
    ∃ more, cs = acc.reverse ++ more ∧
      units = more.flatMap unitsOf := by
  fun_induction readChars acc units with
  | case1 acc =>
      cases hRead
      exact ⟨[], by simp, rfl⟩
  | case2 acc u rest hPlain ih =>
      rcases ih (fun v hv => hSmall v (List.mem_cons_of_mem u hv))
        hRead with ⟨more, rfl, rfl⟩
      have hLess := hSmall u List.mem_cons_self
      refine ⟨Char.ofNat u :: more, by simp, ?_⟩
      simp only [List.flatMap_cons, unitsOf,
        toNat_ofNat_valid (n := u) (by omega), if_pos hLess]
      rfl
  | case3 acc u hPlain hHigh v rest hLow ih =>
      rcases ih (fun w hw => hSmall w (List.mem_cons_of_mem u
        (List.mem_cons_of_mem v hw))) hRead with ⟨more, rfl, rfl⟩
      refine ⟨Char.ofNat
        (0x10000 + (u - 0xd800) * 0x400 + (v - 0xdc00)) :: more,
        by simp, ?_⟩
      have hFirst : 0xd800 +
          (0x10000 + (u - 0xd800) * 0x400 + (v - 0xdc00) - 0x10000) /
            0x400 = u := by omega
      have hSecond : 0xdc00 +
          (0x10000 + (u - 0xd800) * 0x400 + (v - 0xdc00) - 0x10000) %
            0x400 = v := by omega
      simp only [List.flatMap_cons, unitsOf, toNat_ofNat_valid
        (n := 0x10000 + (u - 0xd800) * 0x400 + (v - 0xdc00))
        (by omega)]
      rw [if_neg (by omega), hFirst, hSecond]
      rfl
  | case4 => cases hRead
  | case5 => cases hRead
  | case6 => cases hRead

/- Bytes that are read as a text carry its units. -/
theorem carries_of_decode?
    {bytes : List UInt8}
    {s : String}
    (hRead : decode? bytes = some s) :
    Carries bytes (s.toList.flatMap unitsOf) := by
  simp only [decode?, Option.bind_eq_bind, Option.bind_eq_some_iff]
    at hRead
  rcases hRead with ⟨units, hUnits, chars, hChars, hText⟩
  rcases carries_of_readUnits hUnits with ⟨more, rfl, hCarries⟩
  rcases units_of_readChars hCarries.small hChars with
    ⟨cs, rfl, hMore⟩
  cases hText
  rw [hMore] at hCarries
  simpa using hCarries

/- No other bytes that are read as a text are fewer. -/
theorem encode_shortest
    {bytes : List UInt8}
    {s : String}
    (hRead : decode? bytes = some s) :
    (encode s).length ≤ bytes.length :=
  (carries_of_decode? hRead).least

/- And no others are as few. -/
theorem eq_encode_of_length
    {bytes : List UInt8}
    {s : String}
    (hRead : decode? bytes = some s)
    (hLength : bytes.length ≤ (encode s).length) :
    bytes = encode s :=
  (carries_of_decode? hRead).only hLength

end ModifiedUtf8

------------------------------------------------------------
-- Decoders
------------------------------------------------------------

variable {r r' : ByteReader}

theorem rest_of_take
    {count : Nat}
    {bytes : List UInt8}
    (hRead : Yields (Decoder.take count) r bytes r') :
    bytes.length = count ∧ r.rest = bytes ++ r'.rest := by
  simp only [Decoder.take, yields_bind, yields_get] at hRead
  rcases hRead with ⟨_, _, ⟨rfl, rfl⟩, hRead⟩
  split at hRead
  case isTrue hEnough =>
      simp only [yields_bind, yields_set, yields_pure] at hRead
      rcases hRead with ⟨_, _, rfl, rfl, rfl⟩
      rw [Array.toList_extract, List.extract_eq_take_drop]
      constructor
      · simp
        omega
      · rw [ByteReader.rest, ByteReader.rest, Nat.add_sub_cancel_left,
          ← List.drop_drop, List.take_append_drop]
  case isFalse => exact absurd hRead yields_throw

theorem rest_of_number
    {width n : Nat}
    (hRead : Yields (Decoder.number width) r n r') :
    n < 256 ^ width ∧ r.rest = bigEndian width n ++ r'.rest := by
  simp only [Decoder.number, yields_bind, yields_pure] at hRead
  rcases hRead with ⟨bytes, _, hTake, rfl, rfl⟩
  rcases rest_of_take hTake with ⟨rfl, hRest⟩
  rw [bigEndian_ofBigEndian]
  exact ⟨ofBigEndian_lt bytes, hRest⟩

/-
  A decoder gives values of a kind only, and each of them from
  nothing but its encoding.
-/
def Finds
    {α : Type}
    (d : Decoder α)
    (encode : α → List UInt8)
    (Kind : α → Prop) : Prop :=
  ∀ ⦃r x r'⦄, Yields d r x r' →
    r.rest = encode x ++ r'.rest ∧ Kind x

namespace Finds

/- Numbers that are kept in a type with room for them. -/
theorem ofNumber
    {α : Type}
    {width : Nat}
    {ofNat : Nat → α}
    {toNat : α → Nat}
    (hBack : ∀ n < 256 ^ width, toNat (ofNat n) = n) :
    Finds (Decoder.number width >>= fun n => pure (ofNat n))
      (fun x => bigEndian width (toNat x)) fun _ => True := by
  intro r x r' hRead
  simp only [yields_bind, yields_pure] at hRead
  rcases hRead with ⟨n, _, hNumber, rfl, rfl⟩
  rcases rest_of_number hNumber with ⟨hSmall, hRest⟩
  refine ⟨?_, trivial⟩
  dsimp only
  rw [hBack n hSmall, hRest]

theorem u8 :
    Finds Decoder.u8 (fun n => [n]) fun _ => True := by
  have hBytes : ∀ n : UInt8, bigEndian 1 n.toNat = [n] := by
    intro n
    simp [bigEndian]
  simp only [← hBytes]
  exact ofNumber fun n hSmall => by
    simpa using Nat.mod_eq_of_lt hSmall

theorem u16 :
    Finds Decoder.u16 be16 fun _ => True :=
  ofNumber fun n hSmall => by
    simpa using Nat.mod_eq_of_lt hSmall

theorem u32 :
    Finds Decoder.u32 be32 fun _ => True :=
  ofNumber fun n hSmall => by
    simpa using Nat.mod_eq_of_lt hSmall

theorem u64 :
    Finds Decoder.u64 be64 fun _ => True :=
  ofNumber fun n hSmall => by
    simpa using Nat.mod_eq_of_lt hSmall

section Collecting

variable {α : Type} {d : Decoder α}
variable {encode : α → List UInt8} {Kind : α → Prop}

theorem collect
    (hFinds : Finds d encode Kind)
    {count : Nat}
    {acc xs : List α}
    (hRead : Yields (Decoder.collect d count acc) r xs r') :
    ∃ ys, xs = acc.reverse ++ ys ∧ ys.length = count ∧
      r.rest = ys.flatMap encode ++ r'.rest ∧
      ∀ y ∈ ys, Kind y := by
  induction count generalizing r acc with
  | zero =>
      simp only [Decoder.collect, yields_pure] at hRead
      rcases hRead with ⟨rfl, rfl⟩
      exact ⟨[], by simp, rfl, rfl, by simp⟩
  | succ count ih =>
      simp only [Decoder.collect, yields_bind] at hRead
      rcases hRead with ⟨y, _, hOne, hMore⟩
      rcases hFinds hOne with ⟨hStart, hKind⟩
      rcases ih hMore with ⟨ys, rfl, rfl, hRest, hKinds⟩
      refine ⟨y :: ys, by simp, rfl, ?_, ?_⟩
      · rw [hStart, hRest, List.flatMap_cons, List.append_assoc]
      · exact List.forall_mem_cons.mpr ⟨hKind, hKinds⟩

/- So many of the same are found one by one. -/
theorem repeated
    (hFinds : Finds d encode Kind)
    {count : Nat}
    {xs : List α}
    (hRead : Yields (Decoder.repeated d count) r xs r') :
    xs.length = count ∧
      r.rest = xs.flatMap encode ++ r'.rest ∧
      ∀ x ∈ xs, Kind x := by
  rcases hFinds.collect hRead with ⟨ys, rfl, hFound⟩
  exact hFound

end Collecting

end Finds

/- A text is read from its length and some bytes that carry it. -/
theorem rest_of_text
    {s : String}
    (hRead : Yields Decoder.text r s r') :
    ∃ bytes, ModifiedUtf8.decode? bytes = some s ∧
      bytes.length ≤ 65535 ∧
      r.rest = bigEndian 2 bytes.length ++ bytes ++ r'.rest := by
  simp only [Decoder.text, Decoder.position, yields_bind,
    yields_get, yields_pure] at hRead
  rcases hRead with
    ⟨length, _, hLength, _, _, ⟨_, _, ⟨rfl, rfl⟩, rfl, rfl⟩, bytes,
      _, hTake, hText⟩
  rcases Finds.u16 hLength with ⟨hStart, -⟩
  rcases rest_of_take hTake with ⟨hCount, hRest⟩
  have hSmall := length.toNat_lt
  split at hText
  case h_1 t hDecoded =>
      rw [yields_pure] at hText
      rcases hText with ⟨rfl, rfl⟩
      refine ⟨bytes, hDecoded, by omega, ?_⟩
      rw [hStart, hRest, hCount, be16, List.append_assoc]
  case h_2 => exact absurd hText yields_throw

end Stratagem
