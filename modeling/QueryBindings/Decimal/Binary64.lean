/-!
Binary floating point numbers of 64 bits, as exact integers.

A finite number is `mantissa * 2 ^ exponent` with a mantissa below `2 ^ 53` and an exponent of at
least -1074; a mantissa below `2 ^ 52` has that least exponent, so every number has one form.
`ofDecimal` takes the number nearest to a decimal, and of two equally near ones the even one.
-/
namespace QueryBindings.Decimal

inductive Magnitude
  | finite (mantissa : Nat) (exponent : Int)
  | infinite
deriving DecidableEq

structure Binary64 where
  negative : Bool
  magnitude : Magnitude
deriving DecidableEq

/-- The quotient `num / den`, a half going to the even neighbour. -/
def roundHalfEven (num den : Nat) : Nat :=
  let q := num / den
  let r := num % den
  if 2 * r < den then q else if den < 2 * r then q + 1 else q + q % 2

/-- The value `num / den * base ^ e` as a quotient of natural numbers. -/
def scaleByPower (base : Nat) (e : Int) (num den : Nat) : Nat × Nat :=
  if 0 ≤ e then (num * base.pow e.toNat, den) else (num, den * base.pow (-e).toNat)

/-- The largest `e` with `2 ^ e ≤ num / den`, for positive `num` and `den`. -/
def floorLog2 (num den : Nat) : Int :=
  let e : Int := num.log2 - den.log2
  let scaled := scaleByPower 2 (-e) num den
  if scaled.2 ≤ scaled.1 then e else e - 1

namespace Magnitude

def zero : Magnitude := .finite 0 (-1074)

/-- The magnitude nearest to a positive quotient. -/
def ofQuotient (num den : Nat) : Magnitude :=
  let e := max (floorLog2 num den - 52) (-1074)
  let scaled := scaleByPower 2 (-e) num den
  let m := roundHalfEven scaled.1 scaled.2
  let normal := if m = Nat.pow 2 53 then (Nat.pow 2 52, e + 1) else (m, e)
  if 971 < normal.2 then .infinite else .finite normal.1 normal.2

/-- The magnitude nearest to `digits * 10 ^ exponent`. Decimals beyond every finite number, and
those below half of the smallest one, are settled by their count of digits. -/
def ofDecimal (digits : Nat) (exponent : Int) : Magnitude :=
  if digits = 0 then zero
  else
    let top : Int := exponent + (Nat.toDigits 10 digits).length
    if 310 < top then .infinite
    else if top < -330 then zero
    else
      let q := scaleByPower 10 exponent digits 1
      ofQuotient q.1 q.2

end Magnitude

end QueryBindings.Decimal
