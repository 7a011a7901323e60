/-!
# Hexadecimal text

Offsets and fingerprints are printed in lowercase hexadecimal: offsets padded with zeros to a least
width, bytes as two digits each.

## Main definitions

* `Hex.ofNat`: a number padded to a least width.
* `Hex.ofBytes`, `Hex.toBytes?`: byte strings.
-/

namespace StackCode

namespace Hex

/-- The lowercase digit of a number below sixteen. -/
def digit (n : Nat) : Char :=
  if n < 10 then Char.ofNat (48 + n) else Char.ofNat (87 + n)

/-- The value of a hexadecimal digit, of either case. -/
def value? (c : Char) : Option Nat :=
  if '0' ≤ c ∧ c ≤ '9' then some (c.toNat - 48)
  else if 'a' ≤ c ∧ c ≤ 'f' then some (c.toNat - 87)
  else if 'A' ≤ c ∧ c ≤ 'F' then some (c.toNat - 55)
  else none

/-- The digits of `n`, padded with zeros on the left to at least `width` of them. -/
def ofNat (width n : Nat) : String :=
  let digits := Nat.toDigits 16 n
  String.ofList (List.replicate (width - digits.length) '0' ++ digits)

/-- The two digits of each byte, in order. -/
def ofBytes (bytes : List UInt8) : String :=
  String.ofList (bytes.flatMap fun b => [digit (b.toNat / 16), digit (b.toNat % 16)])

/-- Reads pairs of digits back into bytes, the newest byte first. -/
def readPairs : List Char → List UInt8 → Option (List UInt8)
  | [], acc => some acc
  | [_], _ => none
  | a :: b :: rest, acc =>
    match value? a, value? b with
    | some x, some y => readPairs rest (UInt8.ofNat (16 * x + y) :: acc)
    | _, _ => none

/-- The bytes written as pairs of digits, or nothing for any other text. -/
def toBytes? (text : String) : Option (List UInt8) :=
  (readPairs text.toList []).map List.reverse

/-- The number written in hexadecimal digits, or nothing for any other text. -/
def toNat? (text : String) : Option Nat :=
  if text.isEmpty then none
  else text.toList.foldlM (fun n c => (value? c).map (16 * n + ·)) 0

end Hex

end StackCode
