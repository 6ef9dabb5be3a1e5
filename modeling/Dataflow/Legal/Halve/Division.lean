import Dataflow.Legal.Halve.Arithmetic

/-!
# Integers in two halves: division

Restoring long division at the wide type, one quotient bit after the other from the top. The nodes
are wide themselves and are made legal in turn.
-/

namespace Dataflow.Legal.Halve

open Edit

/-- A division in progress, with the constants it reads. -/
structure Division where
  type : ValueType
  /-- The type of comparison results. -/
  flag : ValueType
  dividend : Value
  divisor : Value
  zero : Value
  one : Value
  /-- The amount that shifts the top bit down. -/
  topShift : Value

/-- Takes quotient bit `k`. A remainder whose top bit falls out when it is doubled is above every
divisor. -/
def Division.step (d : Division) (k : Nat) (remainder quotient : Value) :
    Edit (Value × Value) := do
  let carriedOut ← int .srl remainder d.topShift
  let position ← constant k d.type
  let next ← int .srl d.dividend position
  let next ← int .and next d.one
  let doubled ← int .shl remainder d.one
  let remainder ← int .or doubled next
  let overflowed ← setcc carriedOut d.zero .ne d.flag
  let large ← setcc remainder d.divisor .uge d.flag
  let fits ← int .or overflowed large
  let reduced ← int .sub remainder d.divisor
  let remainder ← select fits reduced remainder
  let place ← constant (← bit k) d.type
  let digit ← select fits place d.zero
  let quotient ← int .or quotient digit
  return (remainder, quotient)

/-- Takes the quotient bits below `k`. -/
def Division.run (d : Division) : Nat → Value → Value → Edit Value
  | 0, _, quotient => pure quotient
  | k + 1, remainder, quotient => do
    let (remainder, quotient) ← d.step k remainder quotient
    d.run k remainder quotient

/-- The unsigned quotient. Every bit of a quotient by zero is taken. -/
def unsignedQuotient (T : Target) (dividend divisor : Value) : Edit Value := do
  let t ← typeOf dividend
  let zero ← constant 0 t
  let one ← constant 1 t
  let topShift ← constant (t.bits - 1) t
  let d : Division := ⟨t, T.compareType t, dividend, divisor, zero, one, topShift⟩
  d.run t.bits zero zero

def ofUnsignedDiv (T : Target) (id : NodeId) (slot : Nat) : Edit (Value × Value) := do
  let half ← halfType T id slot
  let a ← operand id 0
  let b ← operand id 1
  cutInteger (← unsignedQuotient T a b) half

/-- Whether a value is negative, and its magnitude. -/
def magnitude (flag : ValueType) (zero v : Value) : Edit (Value × Value) := do
  let negative ← setcc v zero .slt flag
  let negated ← int .sub zero v
  return (negative, ← select negative negated v)

/-- The quotient of the magnitudes, negated when the signs differ. -/
def ofSignedDiv (T : Target) (id : NodeId) (slot : Nat) : Edit (Value × Value) := do
  let t ← resultType id slot
  let a ← operand id 0
  let b ← operand id 1
  let zero ← constant 0 t
  let (aNegative, a) ← magnitude (T.compareType t) zero a
  let (bNegative, b) ← magnitude (T.compareType t) zero b
  let quotient ← int .udiv a b
  let flip ← int .xor aNegative bNegative
  let negated ← int .sub zero quotient
  let result ← select flip negated quotient
  cutInteger result (T.transform t)

end Dataflow.Legal.Halve
