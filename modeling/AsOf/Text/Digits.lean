/-!
# Decimal digits

Numbers written with at least a given count of digits, and lower-case
hexadecimal numbers.
-/

namespace AsOf
namespace Text

/-- The decimal digits of a number, filled up with leading zeros. -/
def zeroPadded (width n : Nat) : String :=
  let digits := Nat.toDigits 10 n
  String.ofList (List.replicate (width - digits.length) '0' ++ digits)

def hexadecimal (n : Nat) : String :=
  String.ofList (Nat.toDigits 16 n)

end Text
end AsOf
