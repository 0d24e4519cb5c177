/-!
# Hexadecimal numerals

Numbers are written in lower case, after `0x`, without leading zeros.
-/

namespace DemandPaging.Text

/-- The hexadecimal numeral of `n`. -/
def hex (n : Nat) : String :=
  "0x" ++ String.ofList (Nat.toDigits 16 n)

end DemandPaging.Text
