/-!
# Hexadecimal text

Addresses, bit sets and function references are shown in lower-case hexadecimal after `0x`.
-/

namespace Residual.Text

/-- The lower-case hexadecimal digits of `value` after `0x`, without leading zeros. -/
def hex (value : Nat) : String := "0x" ++ String.ofList (Nat.toDigits 16 value)

end Residual.Text
