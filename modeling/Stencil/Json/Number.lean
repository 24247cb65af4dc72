import Stencil.Decimal.Layout

set_option relaxedAutoImplicit false
set_option autoImplicit false

/-!
# Numbers in JSON

A number without fraction and exponent that fits 64 bits is kept as an integer. Every other
number becomes a 64-bit floating-point number: the leading digits, as many as fit 64 bits, are
rounded to such a number, which is then scaled by a power of ten and rounded again.

## Main definitions

* `Stencil.Json.Literal` — a number as written, digit by digit.
* `Stencil.Json.Number` — a number as kept.
* `Stencil.Json.Literal.value?` — the number that a literal stands for, unless it is too great.
* `Stencil.Json.Number.text` — the number written out.
-/

namespace Stencil.Json

/-- The parts of a number as written. -/
structure Literal where
  /-- The number starts with a minus sign. -/
  negative : Bool
  /-- The digits before the point. -/
  whole : List Nat
  /-- The digits after the point, if there is one. -/
  fraction : Option (List Nat)
  /-- The exponent, if there is one. -/
  exponent : Option Int
  deriving DecidableEq, Repr

/-- A number as kept: an integer between `-2 ^ 63` and `2 ^ 64 - 1`, or a floating-point
number. -/
inductive Number where
  | integer (i : Int)
  | double (x : Float)
  deriving Repr

/-- The greatest integer of 64 bits. -/
def wordMax : Nat := 0xFFFFFFFFFFFFFFFF

/-- Appends digits to a number as long as it fits 64 bits, and returns it with the digits that
are left. -/
def absorb (n : Nat) : List Nat → Nat × List Nat
  | [] => (n, [])
  | d :: ds => if n * 10 + d ≤ wordMax then absorb (n * 10 + d) ds else (n, d :: ds)

/-- The power of ten with exponent `k`, as a floating-point number. -/
def powerOfTen (k : Nat) : Float := Float.ofScientific 1 false k

/-- A floating-point number divided by a power of ten, in steps that themselves are
floating-point numbers. -/
def shrink (x : Float) (k : Nat) : Float :=
  if k ≤ 308 then x / powerOfTen k
  else if x == 0 then x
  else shrink (x / powerOfTen 308) (k - 308)
termination_by k

/-- An integer of 64 bits scaled by a power of ten, if the result is finite. -/
def scaled? (n : Nat) (exponent : Int) : Option Float :=
  let x := (UInt64.ofNat n).toFloat
  if exponent < 0 then some (shrink x exponent.natAbs)
  else if exponent ≤ 308 then
    let y := x * powerOfTen exponent.toNat
    if y.isInf then none else some y
  else if n = 0 then some x
  else none

namespace Literal

/-- The integer that a literal without fraction and exponent stands for, if it fits 64 bits.
Minus zero is no integer. -/
def integer? (l : Literal) : Option Int :=
  if l.fraction.isSome || l.exponent.isSome then none
  else
    match absorb 0 l.whole with
    | (n, []) =>
      if !l.negative then some n
      else if n = 0 ∨ 0x8000000000000000 < n then none
      else some (-n)
    | _ => none

/-- The number that a literal stands for; `none` if it is too great for a floating-point number.
Digits that no longer fit 64 bits count for the magnitude only. -/
def value? (l : Literal) : Option Number :=
  match l.integer? with
  | some i => some (.integer i)
  | none =>
    let (n, left) := absorb 0 l.whole
    let places := l.fraction.getD []
    let (m, rest) := absorb n places
    let exponent := (left.length : Int) - (places.length - rest.length : Nat) + l.exponent.getD 0
    (scaled? m exponent).map fun x => .double (if l.negative then -x else x)

end Literal

/-- Numbers with a fraction or an exponent are written with the fewest digits that identify them,
around a point where the first digit counts from `10 ^ (-5)` to `10 ^ 15`, else with a signed
exponent; a number without fraction keeps its point, and of two equally near decimals the even
one is taken. -/
def doubleLayout : Decimal.Layout := ⟨.toEven, some (-5, 15), true⟩

/-- The number written out. -/
def Number.text : Number → String
  | integer i => toString i
  | double x => doubleLayout.write x

end Stencil.Json
