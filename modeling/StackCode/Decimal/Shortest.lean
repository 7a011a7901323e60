/-!
# Shortest decimals

A floating point number stands for every real that rounds to it.  Its shortest decimal is the
multiple of the largest power of ten among those reals; of two such multiples the nearer one is
taken, and of two equally near the larger.

The number is `mantissa * 2 ^ exponent`, exactly, so the search is done with natural numbers: the
number and the two ends of its interval are scaled to one denominator, and each power of ten in turn
is tried from above.

## Main definitions

* `BinaryFormat`: the widths of the fields of a floating point word.
* `BinaryFormat.classify`: the value a word stands for.
* `Decimal.shortest`: the shortest decimal of a finite value.
-/

namespace StackCode

/-- The widths of the fields of a floating point word, below the sign bit. -/
structure BinaryFormat where
  /-- The bits of the stored fraction. -/
  fractionBits : Nat
  /-- The bits of the biased exponent. -/
  exponentBits : Nat
deriving DecidableEq, Repr

/-- What a floating point word stands for. -/
inductive FloatValue where
  | nan
  | infinite (negative : Bool)
  /-- The number `mantissa * 2 ^ exponent`, with `narrowBelow` telling whether the next number below
  is only half as far away as the next one above. -/
  | finite (negative : Bool) (mantissa : Nat) (exponent : Int) (narrowBelow : Bool)
deriving DecidableEq, Repr

namespace BinaryFormat

/-- Single precision. -/
def single : BinaryFormat := ⟨23, 8⟩

/-- Double precision. -/
def double : BinaryFormat := ⟨52, 11⟩

/-- The value a word stands for. -/
def classify (f : BinaryFormat) (bits : Nat) : FloatValue :=
  let fraction := bits % Nat.pow 2 f.fractionBits
  let biased := bits / Nat.pow 2 f.fractionBits % Nat.pow 2 f.exponentBits
  let negative := bits / Nat.pow 2 (f.fractionBits + f.exponentBits) % 2 = 1
  let least : Int := 2 - Nat.pow 2 (f.exponentBits - 1) - f.fractionBits
  if biased = Nat.pow 2 f.exponentBits - 1 then
    if fraction = 0 then .infinite negative else .nan
  else if biased = 0 then .finite negative fraction least false
  else
    .finite negative (Nat.pow 2 f.fractionBits + fraction) (least + (biased - 1 : Nat))
      (fraction = 0 ∧ biased ≠ 1)

end BinaryFormat

/-- The number `digits * 10 ^ exponent`. -/
structure Decimal where
  digits : Nat
  exponent : Int
deriving DecidableEq, Repr

namespace Decimal

/-- A value and the interval of reals that round to it, over one denominator. -/
structure Interval where
  low : Nat
  value : Nat
  high : Nat
  denominator : Nat
  /-- Whether the ends belong to the interval. -/
  closed : Bool
deriving DecidableEq, Repr

namespace Interval

/-- The interval of `mantissa * 2 ^ exponent`: half a step to each side, or a quarter of one below
where the numbers lie twice as close.  A word with an even mantissa takes the ends too. -/
def of (mantissa : Nat) (exponent : Int) (narrowBelow : Bool) : Interval :=
  let scale := Nat.pow 2 (exponent - 2).toNat
  { low := (4 * mantissa - if narrowBelow then 1 else 2) * scale
    value := 4 * mantissa * scale
    high := (4 * mantissa + 2) * scale
    denominator := Nat.pow 2 (2 - exponent).toNat
    closed := mantissa % 2 = 0 }

/-- Whether `n` over the denominator lies in the interval. -/
def contains (i : Interval) (n : Nat) : Bool :=
  if i.closed then i.low ≤ n ∧ n ≤ i.high else i.low < n ∧ n < i.high

/-- The multiple of `10 ^ exponent` in the interval that is nearest to its value, if there is
one. -/
def nearestMultiple? (i : Interval) (exponent : Int) : Option Nat :=
  let up := Nat.pow 10 (-exponent).toNat
  let unit := i.denominator * Nat.pow 10 exponent.toNat
  let i := { i with low := i.low * up, value := i.value * up, high := i.high * up }
  let below := i.value / unit
  let above := below + 1
  match i.contains (below * unit), i.contains (above * unit) with
  | true, true =>
    some (if above * unit - i.value ≤ i.value - below * unit then above else below)
  | true, false => some below
  | false, true => some above
  | false, false => none

/-- Tries powers of ten downward, at most `steps` of them. -/
def search (i : Interval) : (steps : Nat) → (exponent : Int) → Decimal
  | 0, exponent =>
    ⟨i.value * Nat.pow 10 (-exponent).toNat / (i.denominator * Nat.pow 10 exponent.toNat),
      exponent⟩
  | steps + 1, exponent =>
    match i.nearestMultiple? exponent with
    | some digits => ⟨digits, exponent⟩
    | none => i.search steps (exponent - 1)

end Interval

/-- The shortest decimal of `mantissa * 2 ^ exponent`.  The first power of ten tried lies above the
interval: its exponent is the binary one times an over-estimate of the logarithm of two. -/
def shortest (mantissa : Nat) (exponent : Int) (narrowBelow : Bool) : Decimal :=
  if mantissa = 0 then ⟨0, 0⟩
  else
    let bits : Int := exponent + Nat.log2 mantissa
    (Interval.of mantissa exponent narrowBelow).search 64 (bits * 30103 / 100000 + 2)

/-- The decimal digits, most significant first. -/
def digitChars (d : Decimal) : List Char := Nat.toDigits 10 d.digits

/-- The exponent of the leading digit. -/
def leadingExponent (d : Decimal) : Int := d.exponent + d.digitChars.length - 1

end Decimal

end StackCode
