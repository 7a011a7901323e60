import StackCode.Decimal.Shortest

/-!
# Printed floating point numbers

The same digits are laid out in two ways.  Instructions are printed in positional notation
throughout.  Listings keep a fraction part on whole numbers and change to an exponent for very large
and very small numbers.

## Main definitions

* `FloatLayout`: the choices a printed form makes.
* `FloatLayout.plain`, `FloatLayout.tagged`: the two forms in use.
* `FloatLayout.print`: the printed form of a floating point word.
-/

namespace StackCode

/-- The choices a printed form makes. -/
structure FloatLayout where
  /-- Whether a whole number is written with the fraction `.0`. -/
  keepsFraction : Bool
  /-- The exponents of the leading digit that are written positionally; all of them if absent. -/
  positional : Option (Int × Int)
deriving DecidableEq, Repr

namespace FloatLayout

/-- Positional throughout, whole numbers without a fraction. -/
def plain : FloatLayout := ⟨false, none⟩

/-- Positional from `10 ^ -4` to below `10 ^ 16`, whole numbers with a fraction, and an exponent
outside that range. -/
def tagged : FloatLayout := ⟨true, some (-4, 15)⟩

/-- Positional notation. -/
def positionalText (l : FloatLayout) (d : Decimal) : String :=
  let digits := d.digitChars
  if 0 ≤ d.exponent then
    String.ofList (digits ++ List.replicate d.exponent.toNat '0') ++
      if l.keepsFraction then ".0" else ""
  else
    let places := (-d.exponent).toNat
    if places < digits.length then
      String.ofList (digits.take (digits.length - places)) ++ "." ++
        String.ofList (digits.drop (digits.length - places))
    else
      "0." ++ String.ofList (List.replicate (places - digits.length) '0' ++ digits)

/-- One digit, the others as a fraction, and the exponent. -/
def exponentText (d : Decimal) : String :=
  match d.digitChars with
  | [] => ""
  | [c] => String.ofList [c] ++ s!"e{d.leadingExponent}"
  | c :: cs => String.ofList (c :: '.' :: cs) ++ s!"e{d.leadingExponent}"

/-- The printed form of a decimal. -/
def decimalText (l : FloatLayout) (d : Decimal) : String :=
  match l.positional with
  | none => l.positionalText d
  | some (least, greatest) =>
    if d.digits = 0 ∨ (least ≤ d.leadingExponent ∧ d.leadingExponent ≤ greatest) then
      l.positionalText d
    else
      exponentText d

/-- The printed form of the floating point word `bits`. -/
def print (l : FloatLayout) (f : BinaryFormat) (bits : Nat) : String :=
  match f.classify bits with
  | .nan => "NaN"
  | .infinite negative => (if negative then "-" else "") ++ "inf"
  | .finite negative mantissa exponent narrowBelow =>
    (if negative then "-" else "") ++
      l.decimalText (Decimal.shortest mantissa exponent narrowBelow)

end FloatLayout

end StackCode
