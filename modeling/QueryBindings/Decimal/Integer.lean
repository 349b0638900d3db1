/-!
Whole numbers as decimal text, without leading zeros.
-/
namespace QueryBindings.Decimal

def natural (n : Nat) : String := String.ofList (Nat.toDigits 10 n)

def integer (n : Int) : String := if n < 0 then "-" ++ natural n.natAbs else natural n.natAbs

end QueryBindings.Decimal
