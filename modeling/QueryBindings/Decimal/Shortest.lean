import QueryBindings.Decimal.Binary64
/-!
The shortest decimal text of a number.

Of the decimals that read back as the number, those with the fewest digits are taken, and of these
the nearest, which is the larger one if two are equally near. The text is positional at every size:
no exponent, no point after a whole number.
-/
namespace QueryBindings.Decimal

namespace Magnitude

/-- The largest `e` with `10 ^ e ≤ num / den`, for a positive quotient above `10 ^ -400`. -/
def floorLog10 (num den : Nat) : Int :=
  if den ≤ num then (Nat.toDigits 10 (num / den)).length - 1
  else
    match (List.range 400).find? (fun j => den ≤ num * Nat.pow 10 (j + 1)) with
    | some j => -(j + 1 : Int)
    | none => -400

/-- The decimal with `count` digits nearest to `num / den`, if it or its other neighbour on the grid
of that many digits reads back as `value`. -/
def withDigits? (value : Magnitude) (num den count : Nat) : Option (Nat × Int) :=
  let e : Int := floorLog10 num den - count + 1
  let scaled := scaleByPower 10 (-e) num den
  let low := scaled.1 / scaled.2
  let nearLow := 2 * (scaled.1 % scaled.2) < scaled.2
  let candidates := if nearLow then [low, low + 1] else [low + 1, low]
  (candidates.find? (fun d => ofDecimal d e == value)).map (·, e)

/-- Digits and decimal exponent of the shortest decimal that reads back. -/
def shortest (mantissa : Nat) (exponent : Int) : Nat × Int :=
  let q := scaleByPower 2 exponent mantissa 1
  let found := (List.range 17).findSome? fun n =>
    withDigits? (.finite mantissa exponent) q.1 q.2 (n + 1)
  found.getD (0, 0)

end Magnitude

/-- Writes `digits * 10 ^ exponent` with a point only where a fraction remains. -/
def positional (digits : Nat) (exponent : Int) : String :=
  let text := Nat.toDigits 10 digits
  if 0 ≤ exponent then String.ofList (text ++ List.replicate exponent.toNat '0')
  else
    let places := (-exponent).toNat
    let padded := List.replicate (places + 1 - text.length) '0' ++ text
    let whole := padded.take (padded.length - places)
    let fraction := ((padded.drop (padded.length - places)).reverse.dropWhile (· = '0')).reverse
    if fraction.isEmpty then String.ofList whole
    else String.ofList (whole ++ '.' :: fraction)

namespace Binary64

/-- The number's shortest text; the sign of zero is kept. -/
def text (x : Binary64) : String :=
  let sign := if x.negative then "-" else ""
  match x.magnitude with
  | .infinite => sign ++ "inf"
  | .finite 0 _ => sign ++ "0"
  | .finite m e =>
    let d := Magnitude.shortest m e
    sign ++ positional d.1 d.2

end Binary64

end QueryBindings.Decimal
