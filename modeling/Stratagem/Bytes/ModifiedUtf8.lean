/-
  The text encoding of class files.

  Texts are encoded by their sixteen-bit units, so that a
  character above U+FFFF is written as two surrogates; and
  the zero character takes two bytes, so that no byte of an
  encoded text is zero.

  Key definitions include:
    * `ModifiedUtf8.encode`
    * `ModifiedUtf8.decode?`
-/

namespace Stratagem

namespace ModifiedUtf8

------------------------------------------------------------
-- Encoding
------------------------------------------------------------

/- The sixteen-bit units of a character. -/
def unitsOf
    (c : Char) : List Nat :=
  let n := c.toNat
  if n < 0x10000 then
    [n]
  else
    [0xd800 + (n - 0x10000) / 0x400,
      0xdc00 + (n - 0x10000) % 0x400]

/- The bytes of a unit. -/
def bytesOf
    (u : Nat) : List UInt8 :=
  if 0 < u ∧ u < 0x80 then
    [UInt8.ofNat u]
  else if u < 0x800 then
    [UInt8.ofNat (0xc0 + u / 0x40),
      UInt8.ofNat (0x80 + u % 0x40)]
  else
    [UInt8.ofNat (0xe0 + u / 0x1000),
      UInt8.ofNat (0x80 + u / 0x40 % 0x40),
      UInt8.ofNat (0x80 + u % 0x40)]

/- The bytes of a text. -/
def encode
    (s : String) : List UInt8 :=
  (s.toList.flatMap unitsOf).flatMap bytesOf

------------------------------------------------------------
-- Decoding
------------------------------------------------------------

/- The low bits of a byte that goes on with a unit. -/
def continuation?
    (b : UInt8) : Option Nat :=
  if b.toNat / 0x40 = 2 then some (b.toNat % 0x40) else none

/-
  Units behind those already read, which are kept in reverse.
  A unit need not be written in its shortest form.
-/
def readUnits
    (acc : List Nat) : List UInt8 → Option (List Nat)
  | [] => some acc.reverse
  | a :: rest =>
      let n := a.toNat
      if 0 < n ∧ n < 0x80 then
        readUnits (n :: acc) rest
      else if n / 0x20 = 6 then
        match rest with
        | b :: rest =>
            match continuation? b with
            | some low =>
                readUnits ((n % 0x20 * 0x40 + low) :: acc) rest
            | none => none
        | [] => none
      else if n / 0x10 = 14 then
        match rest with
        | b :: c :: rest =>
            match continuation? b, continuation? c with
            | some mid, some low =>
                readUnits
                  ((n % 0x10 * 0x1000 + mid * 0x40 + low) :: acc)
                  rest
            | _, _ => none
        | _ => none
      else
        none

/-
  Characters behind those already read, which are kept in
  reverse.  A high surrogate needs a low one behind it, and
  no low one stands alone.
-/
def readChars
    (acc : List Char) : List Nat → Option (List Char)
  | [] => some acc.reverse
  | u :: rest =>
      if u < 0xd800 ∨ 0xe000 ≤ u then
        readChars (Char.ofNat u :: acc) rest
      else if u < 0xdc00 then
        match rest with
        | v :: rest =>
            if 0xdc00 ≤ v ∧ v < 0xe000 then
              readChars
                (Char.ofNat
                  (0x10000 + (u - 0xd800) * 0x400 + (v - 0xdc00))
                  :: acc)
                rest
            else
              none
        | [] => none
      else
        none

/- The text with given bytes, if there is one. -/
def decode?
    (bytes : List UInt8) : Option String := do
  let units ← readUnits [] bytes
  let chars ← readChars [] units
  return String.ofList chars

end ModifiedUtf8

end Stratagem
