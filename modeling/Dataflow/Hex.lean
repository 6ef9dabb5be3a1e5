/-!
# Hexadecimal text
-/

namespace Dataflow.Hex

/-- Lowercase digits without leading zeros. -/
def digits (n : Nat) : String :=
  String.ofList (Nat.toDigits 16 n)

/-- `0x` and the digits of `n`. -/
def text (n : Nat) : String :=
  "0x" ++ digits n

/-- `0x` and at least `width` digits of `n`. -/
def padded (width n : Nat) : String :=
  let cs := Nat.toDigits 16 n
  "0x" ++ String.ofList (List.replicate (width - cs.length) '0' ++ cs)

end Dataflow.Hex
