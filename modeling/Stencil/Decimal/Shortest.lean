set_option relaxedAutoImplicit false
set_option autoImplicit false

/-!
# The fewest digits of a binary number

A 64-bit floating-point number stands for all reals that round to it, an interval around its
exact value. It is written with the fewest decimal digits that lie in this interval, and among
the decimals with that many digits with the one nearest to the exact value. Everything here is
exact arithmetic on natural numbers.

## Main definitions

* `Stencil.Decimal.Binary` — a magnitude `significand · 2 ^ exponent`.
* `Stencil.Decimal.Digits` — a decimal `digits · 10 ^ exponent`.
* `Stencil.Decimal.Binary.identifies` — the decimal lies in the interval of the magnitude.
* `Stencil.Decimal.Binary.shortest` — the fewest digits that identify the magnitude.
-/

namespace Stencil.Decimal

/-- A finite magnitude `significand · 2 ^ exponent` of the 64-bit format. -/
structure Binary where
  /-- The integral significand. -/
  significand : Nat
  /-- The power of two it is multiplied with. -/
  exponent : Int
  /-- The neighbour below is half as far away as the neighbour above. -/
  narrowBelow : Bool
  deriving DecidableEq, Repr

/-- A decimal `digits · 10 ^ exponent`. -/
structure Digits where
  /-- The digits, read as one natural number. -/
  digits : Nat
  /-- The power of ten it is multiplied with. -/
  exponent : Int
  deriving DecidableEq, Repr

/-- Which of two equally near decimals is taken. -/
inductive Tie where
  /-- The one whose last digit is even. -/
  | toEven
  /-- The greater one. -/
  | upward
  deriving DecidableEq, Repr

/-- The order of `a · 10 ^ i` and `n · 2 ^ j`, both sides multiplied up to natural numbers. -/
def compareScaled (a : Nat) (i : Int) (n : Nat) (j : Int) : Ordering :=
  compare (a * Nat.pow 10 i.toNat * Nat.pow 2 (-j).toNat)
    (n * Nat.pow 2 j.toNat * Nat.pow 10 (-i).toNat)

namespace Binary

/-- The magnitude of a finite number from its 64 bits; the sign bit is ignored. Eleven bits hold
the exponent, fifty-two the fraction, and the least exponent has no leading one. -/
def ofBits (bits : UInt64) : Binary :=
  let fraction := (bits &&& 0xFFFFFFFFFFFFF).toNat
  let field := ((bits >>> 52) &&& 0x7FF).toNat
  if field = 0 then ⟨fraction, -1074, false⟩
  else ⟨0x10000000000000 + fraction, (field : Int) - 1075, fraction == 0 && field != 1⟩

/-- The decimal rounds to the magnitude. The ends of the interval lie halfway to the neighbours;
they belong to it exactly when the significand is even. -/
def identifies (b : Binary) (d : Digits) : Bool :=
  let low := if b.narrowBelow then 4 * b.significand - 1 else 4 * b.significand - 2
  let high := 4 * b.significand + 2
  let closed := b.significand % 2 == 0
  let atLow := compareScaled d.digits d.exponent low (b.exponent - 2)
  let atHigh := compareScaled d.digits d.exponent high (b.exponent - 2)
  (atLow == .gt || (closed && atLow == .eq)) && (atHigh == .lt || (closed && atHigh == .eq))

/-- The greatest `n` for which `n · 10 ^ e` does not exceed the magnitude. -/
def floorAt (b : Binary) (e : Int) : Nat :=
  (b.significand * Nat.pow 2 b.exponent.toNat * Nat.pow 10 (-e).toNat) /
    (Nat.pow 2 (-b.exponent).toNat * Nat.pow 10 e.toNat)

/-- The least power of ten above the magnitude. The 64-bit format reaches from `10 ^ (-324)` to
below `10 ^ 309`. -/
def scale (b : Binary) : Int :=
  let above := (List.range 640).find? fun (i : Nat) =>
    compareScaled 1 ((i : Int) - 330) b.significand b.exponent == .gt
  (above.getD 0 : Int) - 330

/-- The decimal on the grid of multiples of `10 ^ e` that identifies the magnitude and is nearest
to it, if the grid has one. Only the two neighbours of the magnitude on the grid can be. -/
def onGrid? (b : Binary) (tie : Tie) (e : Int) : Option Digits :=
  let below : Digits := ⟨b.floorAt e, e⟩
  let above : Digits := ⟨b.floorAt e + 1, e⟩
  match b.identifies below, b.identifies above with
  | true, false => some below
  | false, true => some above
  | false, false => none
  | true, true =>
    match compareScaled (2 * below.digits + 1) e (2 * b.significand) b.exponent, tie with
    | .gt, _ => some below
    | .lt, _ => some above
    | .eq, .upward => some above
    | .eq, .toEven => some (if below.digits % 2 == 0 then below else above)

end Binary

/-- The same decimal without trailing zeros; `fuel` bounds the number of zeros dropped. -/
def Digits.strip : Nat → Digits → Digits
  | 0, d => d
  | fuel + 1, d =>
    if d.digits != 0 && d.digits % 10 == 0 then
      Digits.strip fuel ⟨d.digits / 10, d.exponent + 1⟩
    else d

/-- The decimal with the fewest digits that identifies the magnitude, nearest to it among those.
Seventeen digits always suffice; were none found, the exact value is taken. -/
def Binary.shortest (b : Binary) (tie : Tie) : Digits :=
  if b.significand = 0 then ⟨0, 0⟩
  else
    let top := b.scale
    let found := (List.range 17).findSome? fun (n : Nat) =>
      b.onGrid? tie (top - ((n : Int) + 1))
    let exact : Digits :=
      ⟨b.significand * Nat.pow 2 b.exponent.toNat * Nat.pow 5 (-b.exponent).toNat,
        min b.exponent 0⟩
    (found.getD exact).strip 20

end Stencil.Decimal
