import Stencil.Decimal.Shortest

set_option relaxedAutoImplicit false
set_option autoImplicit false

/-!
# The layout of a number

Choosing the digits of a floating-point number is one thing, writing them down another. A
`Layout` records the second: when the digits are written around a decimal point and when with an
exponent, and what becomes of a number without fraction.

## Main definitions

* `Stencil.Decimal.Layout` — the decisions of a number format.
* `Stencil.Decimal.Layout.write` — a floating-point number in that format.
-/

namespace Stencil.Decimal

/-- The decisions that a format makes about the text of a number. -/
structure Layout where
  /-- Which of two equally near decimals is taken. -/
  tie : Tie
  /-- The least and the greatest power of ten of the first digit that are written without an
  exponent; `none` writes every number so. -/
  positional : Option (Int × Int)
  /-- A number without fraction ends in `.0` when it is written without an exponent. -/
  wholePoint : Bool

namespace Layout

/-- `n` zeros. -/
def zeros (n : Nat) : String := String.ofList (List.replicate n '0')

/-- The digits around a decimal point that stands before the digit with index `point`, counted
from the first digit; zeros fill the gap where the point lies outside the digits. -/
def around (wholePoint : Bool) (digits : List Char) (point : Int) : String :=
  if point ≤ 0 then
    "0." ++ zeros (-point).toNat ++ String.ofList digits
  else if digits.length ≤ point.toNat then
    String.ofList digits ++ zeros (point.toNat - digits.length) ++ (if wholePoint then ".0" else "")
  else
    String.ofList (digits.take point.toNat) ++ "." ++ String.ofList (digits.drop point.toNat)

/-- The digits with a point after the first one, followed by the power of ten of that digit with
its sign. -/
def scientific (digits : List Char) (power : Int) : String :=
  String.ofList (digits.take 1) ++
    (if digits.length ≤ 1 then "" else "." ++ String.ofList (digits.drop 1)) ++
    "e" ++ (if power < 0 then "-" else "+") ++ Nat.repr power.natAbs

/-- A decimal in the given layout, without sign. -/
def writeDigits (l : Layout) (d : Digits) : String :=
  let digits := Nat.toDigits 10 d.digits
  let point : Int := d.exponent + digits.length
  let whole := match l.positional with
    | none => true
    | some (least, greatest) => least ≤ point - 1 && point - 1 ≤ greatest
  if whole then around l.wholePoint digits point else scientific digits (point - 1)

/-- A floating-point number in the given layout. A number with its sign bit set starts with a
minus sign, zero included; the values that are no finite numbers are written `inf` and `NaN`, the
last one without sign. -/
def write (l : Layout) (x : Float) : String :=
  let bits := x.toBits
  let sign := if bits >>> 63 == 0 then "" else "-"
  if (bits >>> 52) &&& 0x7FF == 0x7FF then
    if bits &&& 0xFFFFFFFFFFFFF == 0 then sign ++ "inf" else "NaN"
  else
    sign ++ l.writeDigits ((Binary.ofBits bits).shortest l.tie)

end Layout

end Stencil.Decimal
