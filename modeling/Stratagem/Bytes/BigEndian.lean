/-
  Numbers as bytes, the most significant first.

  Key definitions include:
    * `bigEndian`
    * `ofBigEndian`
-/

namespace Stratagem

/- The last `width` base-256 digits of a number. -/
def bigEndian : Nat → Nat → List UInt8
  | 0, _ => []
  | width + 1, n => bigEndian width (n / 256) ++ [UInt8.ofNat n]

/- The number with given base-256 digits. -/
def ofBigEndian
    (bytes : List UInt8) : Nat :=
  bytes.foldl (fun n b => 256 * n + b.toNat) 0

/- Two bytes. -/
def be16
    (n : UInt16) : List UInt8 :=
  bigEndian 2 n.toNat

/- Four bytes. -/
def be32
    (n : UInt32) : List UInt8 :=
  bigEndian 4 n.toNat

/- Eight bytes. -/
def be64
    (n : UInt64) : List UInt8 :=
  bigEndian 8 n.toNat

end Stratagem
