import WasmLift.Decimal.Shortest

/-!
# Decimal notation

A decimal is written positionally, with as many zeros as it takes, or scientifically, with one digit
before the point and an exponent. Neither form has a digit more than the decimal itself.
-/

namespace WasmLift.Decimal

namespace Numeral

/-- The digits, most significant first. -/
def digitText (d : Numeral) : List Char :=
  Nat.toDigits 10 d.digits

/-- The power of ten of the leading digit. -/
def leading (d : Numeral) : Int :=
  d.exponent + d.digitText.length - 1

/-- Positional notation: a point only if there is a fraction. -/
def positional (d : Numeral) : List Char :=
  let digits := d.digitText
  if 0 ≤ d.exponent then digits ++ List.replicate d.exponent.toNat '0'
  else
    let places := d.exponent.natAbs
    if places < digits.length then
      digits.take (digits.length - places) ++ '.' :: digits.drop (digits.length - places)
    else
      '0' :: '.' :: List.replicate (places - digits.length) '0' ++ digits

/-- The digits with a point after the first one, if there are more. -/
def significand (d : Numeral) : List Char :=
  match d.digitText with
  | [] => []
  | [c] => [c]
  | c :: rest => c :: '.' :: rest

/-- Scientific notation: the significand, `e` and the power of ten of the leading digit. -/
def scientific (d : Numeral) : List Char :=
  d.significand ++ 'e' :: (toString d.leading).toList

end Numeral

/-- A positional text with a fraction: `.0` is added to a whole number. -/
def withFraction (cs : List Char) : List Char :=
  if cs.contains '.' then cs else cs ++ ['.', '0']

/-- The shortest positional text of a magnitude that is zero or finite. -/
def Magnitude.positional? : Magnitude → Option (List Char)
  | .notANumber | .infinite => none
  | .zero => some ['0']
  | .finite mantissa exponent onBoundary =>
    (Interval.shortest? ⟨mantissa, exponent, onBoundary⟩).map Numeral.positional

/-- The shortest text of a magnitude that is zero or finite, scientific from `10 ^ 16` upwards and
below `10 ^ (-4)`. -/
def Magnitude.compact? : Magnitude → Option (List Char)
  | .notANumber | .infinite => none
  | .zero => some ['0', '.', '0']
  | .finite mantissa exponent onBoundary =>
    (Interval.shortest? ⟨mantissa, exponent, onBoundary⟩).map fun d =>
      if 16 ≤ d.leading || d.leading < -4 then d.scientific else withFraction d.positional

/-- The names a notation gives to the words that have no digits. -/
structure Exceptional where
  notANumber : String
  infinite : String

/-- A signed text: the digits given for the magnitude, or the name of an exceptional word. The sign
of a word that is not a number is not shown. -/
def Unpacked.text (names : Exceptional) (digits : Magnitude → Option (List Char)) (u : Unpacked) :
    String :=
  match u.magnitude with
  | .notANumber => names.notANumber
  | .infinite => if u.negative then "-" ++ names.infinite else names.infinite
  | m =>
    let body := String.ofList ((digits m).getD [])
    if u.negative then "-" ++ body else body

end WasmLift.Decimal
