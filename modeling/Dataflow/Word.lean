import Dataflow.Fault
import Dataflow.Opcode

/-!
# Machine words

Integers of at most 128 bits as natural numbers. Arithmetic at a width is modular; the checked
operations fault when a 128-bit word overflows, is moved by its whole width or divided by zero.
-/

namespace Dataflow.Word

/-- The widest word. -/
def maxBits : Nat := 128

/-- The words of `n` bits are the numbers below this one. -/
def bound (n : Nat) : Nat :=
  Nat.pow 2 n

/-- The word with its low `n` bits set, at most 128. -/
def mask (n : Nat) : Nat :=
  bound (min n maxBits) - 1

/-- The low `n` bits of `a`, at most 128. -/
def low (n a : Nat) : Nat :=
  a % bound (min n maxBits)

/-- The two's complement value of the low `n` bits of `a`: they move to the top of the widest word,
and back with copies of the sign above them. -/
def signed (n a : Nat) : Int :=
  let gap := maxBits - n
  Int.bmod (low maxBits (a <<< gap)) (bound maxBits) >>> gap

/-- The `n`-bit word of an integer. -/
def ofInt (n : Nat) (x : Int) : Nat :=
  (x % bound (min n maxBits)).toNat

/-- The sign bit of an `n`-bit word. -/
def isNegative (n a : Nat) : Bool :=
  n != 0 && a.testBit (n - 1)

/-- The `n`-bit two's complement negation. -/
def negate (n a : Nat) : Nat :=
  low n (bound maxBits - low maxBits a)

/-- `a` without the bits of `b`. -/
def clear (a b : Nat) : Nat :=
  a ^^^ (a &&& b)

/-- Number of bits up to the highest one that is set. -/
def length (a : Nat) : Nat :=
  if a = 0 then 0 else a.log2 + 1

/-- Number of set bits among the low `n`. -/
def countOnes (n a : Nat) : Nat :=
  (List.range n).countP a.testBit

/-- Number of clear bits below the lowest one that is set, `n` when the low `n` are all clear. -/
def trailingZeros (n a : Nat) : Nat :=
  ((List.range n).takeWhile fun i => !a.testBit i).length

/-- A sum that has to stay a 128-bit word. -/
def add (a b : Nat) : Except Fault Nat :=
  if a + b < bound maxBits then .ok (a + b) else .error .overflow

/-- A product that has to stay a 128-bit word. -/
def mul (a b : Nat) : Except Fault Nat :=
  if a * b < bound maxBits then .ok (a * b) else .error .overflow

/-- A quotient, which needs a divisor. -/
def div (a b : Nat) : Except Fault Nat :=
  if b = 0 then .error .divisionByZero else .ok (a / b)

/-- What a shift by `k` bits gives, which has to be less than a whole 128-bit word. -/
def shifted (k a : Nat) : Except Fault Nat :=
  if k < maxBits then .ok a else .error .overflow

/-- The high 128 bits of a 256-bit product, from products of 64-bit limbs. -/
def mulHigh (a b : Nat) : Except Fault Nat := do
  let limb := bound 64
  let (aLo, aHi) := (a % limb, a / limb)
  let (bLo, bHi) := (b % limb, b / limb)
  let loLo ← mul aLo bLo
  let hiLo ← mul aHi bLo
  let loHi ← mul aLo bHi
  let hiHi ← mul aHi bHi
  let cross ← add (← add (loLo / limb) (hiLo % limb)) (loHi % limb)
  add (← add (← add hiHi (hiLo / limb)) (loHi / limb)) (cross / limb)

/-- The unsigned quotient, which is all ones by zero. -/
def quotientOf (n a b : Nat) : Except Fault Nat :=
  if b = 0 then .ok (mask n) else div a b

/-- The signed quotient, on magnitudes. -/
def signedDiv (n a b : Nat) : Except Fault Nat := do
  let magnitude (x : Nat) := if isNegative n x then negate n x else x
  let quotient ← quotientOf n (magnitude a) (magnitude b)
  return if isNegative n a = isNegative n b then quotient else negate n quotient

/-- The value of an integer operation before it is cut to `n` bits. -/
def raw (op : IntOp) (n a b : Nat) : Except Fault Nat :=
  match op with
  | .add => .ok (a + b)
  | .sub => .ok (a + (bound maxBits - low maxBits b))
  | .mul => .ok (a * b)
  | .mulhu => if n ≤ 64 then (· / bound n) <$> mul a b else mulHigh a b
  | .udiv => quotientOf n a b
  | .sdiv => signedDiv n a b
  | .and => .ok (a &&& b)
  | .or => .ok (a ||| b)
  | .xor => .ok (a ^^^ b)
  | .shl => if n ≤ b then .ok 0 else shifted b (a <<< b)
  | .srl => if n ≤ b then .ok 0 else shifted b (a >>> b)
  | .sra =>
    let x := signed n a
    if n ≤ b then .ok (if x < 0 then mask n else 0) else shifted b (ofInt n (x >>> b))

/-- An integer operation at width `n`. Shifts by `n` or more move every bit out, and an unsigned
quotient by zero is all ones. -/
def binary (op : IntOp) (n a b : Nat) : Except Fault Nat :=
  low n <$> raw op n a b

end Dataflow.Word
