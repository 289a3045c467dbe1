import Mathlib.Algebra.Ring.Nat
import Stratagem.Bytes.Reader
import Stratagem.Proofs.Steps

/-
  What was written is read back.

  Key definitions include:
    * `Reads`
    * `ReadsLast`

  Main declarations:
    * `ofBigEndian_bigEndian`
    * `ModifiedUtf8.decode?_encode`
    * `Reads.bind`
    * `Reads.text`
    * `Reads.repeated`
    * `ReadsLast.runOn`
-/

namespace Stratagem

------------------------------------------------------------
-- Numbers
------------------------------------------------------------

@[simp] theorem length_bigEndian
    (width n : Nat) :
    (bigEndian width n).length = width := by
  induction width generalizing n with
  | zero => rfl
  | succ width ih => simp [bigEndian, ih]

theorem ofBigEndian_concat
    (bytes : List UInt8)
    (b : UInt8) :
    ofBigEndian (bytes ++ [b]) =
      256 * ofBigEndian bytes + b.toNat := by
  simp [ofBigEndian]

/- A number comes back up to the digits that were written. -/
theorem ofBigEndian_bigEndian
    (width n : Nat) :
    ofBigEndian (bigEndian width n) = n % 256 ^ width := by
  induction width generalizing n with
  | zero => simp [bigEndian, ofBigEndian, Nat.mod_one]
  | succ width ih =>
      rw [bigEndian, ofBigEndian_concat, ih, Nat.pow_succ,
        Nat.mul_comm (256 ^ width) 256, Nat.mod_mul,
        UInt8.toNat_ofNat', Nat.add_comm]

------------------------------------------------------------
-- Texts
------------------------------------------------------------

namespace ModifiedUtf8

/- One unit is read back, whatever follows. -/
theorem readUnits_bytesOf
    (acc : List Nat)
    {u : Nat}
    (hUnit : u < 0x10000)
    (rest : List UInt8) :
    readUnits acc (bytesOf u ++ rest) =
      readUnits (u :: acc) rest := by
  have hByte :
      ∀ n < 256, (UInt8.ofNat n).toNat = n := by
    intro n hn
    simpa using Nat.mod_eq_of_lt hn
  have hContinuation :
      ∀ n < 0x40,
        continuation? (UInt8.ofNat (0x80 + n)) = some n := by
    intro n hn
    rw [continuation?, hByte _ (by omega), if_pos (by omega)]
    congr 1
    omega
  unfold bytesOf
  split
  case isTrue hShort =>
      simp only [List.cons_append, List.nil_append]
      rw [readUnits.eq_def]
      simp only [hByte u (by omega), if_pos hShort]
  case isFalse hShort =>
      split
      case isTrue hTwo =>
          simp only [List.cons_append, List.nil_append]
          rw [readUnits.eq_def]
          simp only [hByte (0xc0 + u / 0x40) (by omega)]
          rw [if_neg (by omega), if_pos (by omega)]
          simp only [hContinuation (u % 0x40) (by omega)]
          congr 2
          omega
      case isFalse hTwo =>
          simp only [List.cons_append, List.nil_append]
          rw [readUnits.eq_def]
          simp only [hByte (0xe0 + u / 0x1000) (by omega)]
          rw [if_neg (by omega), if_neg (by omega),
            if_pos (by omega)]
          simp only [hContinuation (u % 0x40) (by omega),
            hContinuation (u / 0x40 % 0x40) (by omega)]
          congr 2
          omega

theorem readUnits_encoded
    (acc : List Nat)
    (units : List Nat)
    (hUnits : ∀ u ∈ units, u < 0x10000) :
    readUnits acc (units.flatMap bytesOf) =
      some (acc.reverse ++ units) := by
  induction units generalizing acc with
  | nil => simp [readUnits]
  | cons u units ih =>
      rw [List.flatMap_cons,
        readUnits_bytesOf acc (hUnits u List.mem_cons_self),
        ih (u :: acc) fun v hv =>
          hUnits v (List.mem_cons_of_mem u hv)]
      simp

/- A text has no more characters than bytes. -/
theorem length_le_encode
    (s : String) :
    s.toList.length ≤ (encode s).length := by
  have hMore : ∀ {α β : Type} (f : α → List β) (xs : List α),
      (∀ x, 1 ≤ (f x).length) →
        xs.length ≤ (xs.flatMap f).length := by
    intro α β f xs hEach
    induction xs with
    | nil => exact Nat.le_refl _
    | cons x xs ih =>
        have hOne := hEach x
        rw [List.flatMap_cons, List.length_append,
          List.length_cons]
        omega
  have hUnits := hMore unitsOf s.toList fun c => by
    unfold unitsOf
    dsimp only
    split <;> simp
  have hBytes := hMore bytesOf (s.toList.flatMap unitsOf)
    fun u => by
      unfold bytesOf
      split
      · simp
      · split <;> simp
  exact Nat.le_trans hUnits hBytes

theorem unitsOf_lt
    (c : Char) :
    ∀ u ∈ unitsOf c, u < 0x10000 := by
  intro u hu
  have hValid : c.toNat < 0xd800 ∨
      0xdfff < c.toNat ∧ c.toNat < 0x110000 := c.valid
  simp only [unitsOf] at hu
  split at hu <;> simp at hu <;> omega

/- One character is read back, whatever follows. -/
theorem readChars_unitsOf
    (acc : List Char)
    (c : Char)
    (rest : List Nat) :
    readChars acc (unitsOf c ++ rest) =
      readChars (c :: acc) rest := by
  have hValid : c.toNat < 0xd800 ∨
      0xdfff < c.toNat ∧ c.toNat < 0x110000 := c.valid
  simp only [unitsOf]
  split
  case isTrue hSmall =>
      simp only [List.cons_append, List.nil_append]
      rw [readChars.eq_def]
      simp only
      rw [if_pos (by omega), Char.ofNat_toNat]
  case isFalse hSmall =>
      simp only [List.cons_append, List.nil_append]
      rw [readChars.eq_def]
      simp only
      rw [if_neg (by omega), if_pos (by omega),
        if_pos (by omega)]
      have hBack :
          0x10000 +
              (0xd800 + (c.toNat - 0x10000) / 0x400 - 0xd800) *
                0x400 +
              (0xdc00 + (c.toNat - 0x10000) % 0x400 - 0xdc00) =
            c.toNat := by
        omega
      rw [hBack, Char.ofNat_toNat]

theorem readChars_encoded
    (acc cs : List Char) :
    readChars acc (cs.flatMap unitsOf) =
      some (acc.reverse ++ cs) := by
  induction cs generalizing acc with
  | nil => simp [readChars]
  | cons c cs ih =>
      rw [List.flatMap_cons, readChars_unitsOf, ih]
      simp

/- Every text can be written and is read back. -/
theorem decode?_encode
    (s : String) :
    decode? (encode s) = some s := by
  have hUnits : ∀ u ∈ s.toList.flatMap unitsOf, u < 0x10000 := by
    intro u hu
    rcases List.mem_flatMap.mp hu with ⟨c, _, hc⟩
    exact unitsOf_lt c u hc
  rw [decode?, encode, readUnits_encoded [] _ hUnits]
  simp [readChars_encoded]

end ModifiedUtf8

------------------------------------------------------------
-- Decoders
------------------------------------------------------------

/-
  A decoder turns bytes into a value and stops behind them,
  whatever stands before and behind.
-/
def Reads
    {α : Type}
    (d : Decoder α)
    (bytes : List UInt8)
    (x : α) : Prop :=
  ∀ before behind : List UInt8,
    let data := (before ++ (bytes ++ behind)).toArray
    Yields d { data, position := before.length } x
      { data, position := before.length + bytes.length }

namespace Reads

variable {α β : Type}

theorem pure
    (x : α) :
    Reads (Pure.pure x) [] x := by
  intro before behind
  simp

/- One decoder after another reads what each of them reads. -/
theorem bind
    {d : Decoder α}
    {f : α → Decoder β}
    {xs ys : List UInt8}
    {a : α}
    {b : β}
    (hFirst : Reads d xs a)
    (hNext : Reads (f a) ys b) :
    Reads (d >>= f) (xs ++ ys) b := by
  intro before behind
  have hStart := hFirst before (ys ++ behind)
  have hEnd := hNext (before ++ xs) behind
  simp only [List.append_assoc, List.length_append] at *
  rw [← Nat.add_assoc]
  exact yields_bind.mpr ⟨a, _, hStart, hEnd⟩

/- A last step on the result may take no bytes. -/
theorem bind_nil
    {d : Decoder α}
    {f : α → Decoder β}
    {xs : List UInt8}
    {a : α}
    {b : β}
    (hFirst : Reads d xs a)
    (hNext : Reads (f a) [] b) :
    Reads (d >>= f) xs b := by
  have hBoth := hFirst.bind hNext
  rwa [List.append_nil] at hBoth

theorem bind_pure
    {d : Decoder α}
    {f : α → β}
    {xs : List UInt8}
    {a : α}
    (hFirst : Reads d xs a) :
    Reads (d >>= fun y => Pure.pure (f y)) xs (f a) :=
  hFirst.bind_nil (pure (f a))

/- A decoder may look where it is. -/
theorem position
    {f : Nat → Decoder β}
    {ys : List UInt8}
    {b : β}
    (hNext : ∀ n, Reads (f n) ys b) :
    Reads (Decoder.position >>= f) ys b := by
  intro before behind
  refine yields_bind.mpr
    ⟨before.length, _, ?_, hNext before.length before behind⟩
  simp [Decoder.position]

theorem take
    (bytes : List UInt8) :
    Reads (Decoder.take bytes.length) bytes bytes := by
  intro before behind
  refine yields_bind.mpr ⟨_, _, yields_get.mpr ⟨rfl, rfl⟩, ?_⟩
  rw [if_pos (by simp)]
  refine yields_bind.mpr ⟨⟨⟩, _, yields_set.mpr rfl, ?_⟩
  rw [yields_pure]
  refine ⟨?_, rfl⟩
  simp

/- A number comes back up to the width that is read. -/
theorem number
    (width n : Nat) :
    Reads (Decoder.number width) (bigEndian width n)
      (n % 256 ^ width) := by
  have hTake := take (bigEndian width n)
  rw [length_bigEndian] at hTake
  rw [← ofBigEndian_bigEndian]
  exact hTake.bind_pure

theorem u8
    (n : UInt8) :
    Reads Decoder.u8 [n] n := by
  have hNumber := (number 1 n.toNat).bind_pure (f := UInt8.ofNat)
  have hBytes : bigEndian 1 n.toNat = [n] := by
    simp [bigEndian]
  have hSmall : n.toNat < 256 ^ 1 := n.toNat_lt
  rw [hBytes, Nat.mod_eq_of_lt hSmall, UInt8.ofNat_toNat] at hNumber
  exact hNumber

/- A list length of sixteen bits. -/
theorem u16_ofNat
    (n : Nat) :
    Reads Decoder.u16 (bigEndian 2 n) (UInt16.ofNat n) := by
  have hNumber := (number 2 n).bind_pure (f := UInt16.ofNat)
  have hSame : UInt16.ofNat (n % 256 ^ 2) = UInt16.ofNat n := by
    apply UInt16.toNat.inj
    simp
  rwa [hSame] at hNumber

theorem u16
    (n : UInt16) :
    Reads Decoder.u16 (be16 n) n := by
  simpa [be16] using u16_ofNat n.toNat

theorem u32_ofNat
    (n : Nat) :
    Reads Decoder.u32 (bigEndian 4 n) (UInt32.ofNat n) := by
  have hNumber := (number 4 n).bind_pure (f := UInt32.ofNat)
  have hSame : UInt32.ofNat (n % 256 ^ 4) = UInt32.ofNat n := by
    apply UInt32.toNat.inj
    simp
  rwa [hSame] at hNumber

theorem u32
    (n : UInt32) :
    Reads Decoder.u32 (be32 n) n := by
  simpa [be32] using u32_ofNat n.toNat

theorem u64
    (n : UInt64) :
    Reads Decoder.u64 (be64 n) n := by
  have hNumber := (number 8 n.toNat).bind_pure (f := UInt64.ofNat)
  have hSmall : n.toNat < 256 ^ 8 := n.toNat_lt
  rw [Nat.mod_eq_of_lt hSmall, UInt64.ofNat_toNat] at hNumber
  exact hNumber

/- A text comes back if its length fits into two bytes. -/
theorem text
    {s : String}
    (hShort : (ModifiedUtf8.encode s).length ≤ 65535) :
    Reads Decoder.text (encodeText s) s := by
  have hLength :
      (UInt16.ofNat (ModifiedUtf8.encode s).length).toNat =
        (ModifiedUtf8.encode s).length := by
    simpa using Nat.mod_eq_of_lt (Nat.lt_succ_of_le hShort)
  refine (u16_ofNat _).bind (position fun start => ?_)
  rw [hLength]
  refine (take (ModifiedUtf8.encode s)).bind_nil ?_
  rw [ModifiedUtf8.decode?_encode]
  exact pure s

theorem collect
    {d : Decoder α}
    {encode : α → List UInt8}
    (xs acc : List α)
    (hEach : ∀ x ∈ xs, Reads d (encode x) x) :
    Reads (Decoder.collect d xs.length acc) (xs.flatMap encode)
      (acc.reverse ++ xs) := by
  induction xs generalizing acc with
  | nil => simpa [Decoder.collect] using pure acc.reverse
  | cons x xs ih =>
      have hRest := ih (x :: acc) fun y hy =>
        hEach y (List.mem_cons_of_mem x hy)
      rw [List.reverse_cons, List.append_assoc,
        List.singleton_append] at hRest
      exact (hEach x List.mem_cons_self).bind hRest

/- So many of the same come back one by one. -/
theorem repeated
    {d : Decoder α}
    {encode : α → List UInt8}
    {xs : List α}
    (hEach : ∀ x ∈ xs, Reads d (encode x) x) :
    Reads (Decoder.repeated d xs.length) (xs.flatMap encode)
      xs :=
  collect xs [] hEach

end Reads

------------------------------------------------------------
-- Whole Inputs
------------------------------------------------------------

/- A decoder turns the last bytes of its input into a value. -/
def ReadsLast
    {α : Type}
    (d : Decoder α)
    (bytes : List UInt8)
    (x : α) : Prop :=
  ∀ before : List UInt8,
    let data := (before ++ bytes).toArray
    Yields d { data, position := before.length } x
      { data, position := data.size }

section Whole

variable {α β : Type}

theorem Reads.last
    {d : Decoder α}
    {bytes : List UInt8}
    {x : α}
    (hReads : Reads d bytes x) :
    ReadsLast d bytes x := by
  intro before
  have hRun := hReads before []
  simp only [List.append_nil] at hRun
  simpa using hRun

theorem ReadsLast.bind
    {d : Decoder α}
    {f : α → Decoder β}
    {xs ys : List UInt8}
    {a : α}
    {b : β}
    (hFirst : Reads d xs a)
    (hNext : ReadsLast (f a) ys b) :
    ReadsLast (d >>= f) (xs ++ ys) b := by
  intro before
  have hEnd := hNext (before ++ xs)
  have hStart := hFirst before ys
  simp only [List.append_assoc, List.length_append] at hEnd
  exact yields_bind.mpr ⟨a, _, hStart, hEnd⟩

/- No byte is left behind the last one. -/
theorem ReadsLast.hasMore
    {f : Bool → Decoder β}
    {b : β}
    (hNext : ReadsLast (f false) [] b) :
    ReadsLast (Decoder.hasMore >>= f) [] b := by
  intro before
  refine yields_bind.mpr ⟨false, _, ?_, hNext before⟩
  simp [Decoder.hasMore, ByteReader.hasMore]

/- What a decoder reads it finds in just those bytes. -/
theorem ReadsLast.runOn
    {d : Decoder α}
    {bytes : List UInt8}
    {x : α}
    (hReads : ReadsLast d bytes x) :
    d.runOn bytes.toArray = .ok x :=
  congrArg Prod.fst (hReads [])

end Whole

end Stratagem
