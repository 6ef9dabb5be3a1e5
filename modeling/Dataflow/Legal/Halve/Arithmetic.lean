import Dataflow.Legal.Resize

/-!
# Integers in two halves: arithmetic

A wide integer is a low and a high half. Sums, products, bit counts and moves of the halves.
-/

namespace Dataflow.Legal.Halve

open Edit

/-- The type of the halves of a result. -/
def halfType (T : Target) (id : NodeId) (slot : Nat) : Edit ValueType := do
  return T.transform (← resultType id slot)

/-- The halves of the first two operands. -/
def operandHalves (id : NodeId) : Edit ((Value × Value) × (Value × Value)) := do
  let a ← operand id 0
  let b ← operand id 1
  let a ← halves a
  let b ← halves b
  return (a, b)

def ofArgument (T : Target) (id : NodeId) (slot : Nat) : Edit (Value × Value) := do
  let half ← halfType T id slot
  let (index, offset) ← argumentPosition id
  let lo ← argument index offset half
  let hi ← argument index (← position (offset + half.bits)) half
  return (lo, hi)

def ofConstant (T : Target) (id : NodeId) (slot : Nat) : Edit (Value × Value) := do
  let half ← halfType T id slot
  let bits ← immediate id
  let lo ← constant bits half
  let hi ← constant (← shiftedRight bits half.bits) half
  return (lo, hi)

def ofUndef (T : Target) (id : NodeId) (slot : Nat) : Edit (Value × Value) := do
  let half ← halfType T id slot
  let lo ← undef half
  let hi ← undef half
  return (lo, hi)

/-- Operations on each bit apart. -/
def ofBitwise (id : NodeId) : Edit (Value × Value) := do
  let op := (← node id).opcode
  let ((aLo, aHi), (bLo, bHi)) ← operandHalves id
  let lo ← binary op aLo bLo
  let hi ← binary op aHi bHi
  return (lo, hi)

/-- One if `a < b`, unsigned, and zero otherwise, at the type of `a`. -/
def less (T : Target) (a b : Value) : Edit Value := do
  let half ← typeOf a
  let less ← setcc a b .ult (T.compareType half)
  resize .zero less half

/-- The low sum wrapped exactly when it is below an addend. -/
def ofAdd (T : Target) (id : NodeId) : Edit (Value × Value) := do
  let ((aLo, aHi), (bLo, bHi)) ← operandHalves id
  let lo ← int .add aLo bLo
  let carry ← less T lo aLo
  let hi ← int .add aHi bHi
  let hi ← int .add hi carry
  return (lo, hi)

def ofSub (T : Target) (id : NodeId) : Edit (Value × Value) := do
  let ((aLo, aHi), (bLo, bHi)) ← operandHalves id
  let lo ← int .sub aLo bLo
  let borrow ← less T aLo bLo
  let hi ← int .sub aHi bHi
  let hi ← int .sub hi borrow
  return (lo, hi)

/-- The high half is the carry of the low product and the two cross products. -/
def ofMul (id : NodeId) : Edit (Value × Value) := do
  let ((aLo, aHi), (bLo, bHi)) ← operandHalves id
  let lo ← int .mul aLo bLo
  let carry ← int .mulhu aLo bLo
  let crossLo ← int .mul aLo bHi
  let crossHi ← int .mul aHi bLo
  let hi ← int .add carry crossLo
  let hi ← int .add hi crossHi
  return (lo, hi)

/-- A sum and its carry, zero or one. -/
def sumAndCarry (T : Target) (a b : Value) : Edit (Value × Value) := do
  let sum ← int .add a b
  let carry ← less T sum a
  return (sum, carry)

/-- The upper two of the four limbs of the product, by columns. The whole product fits, so the top
limb does not wrap. -/
def ofMulHigh (T : Target) (id : NodeId) : Edit (Value × Value) := do
  let ((aLo, aHi), (bLo, bHi)) ← operandHalves id
  let llHi ← int .mulhu aLo bLo
  let lhLo ← int .mul aLo bHi
  let lhHi ← int .mulhu aLo bHi
  let hlLo ← int .mul aHi bLo
  let hlHi ← int .mulhu aHi bLo
  let hhLo ← int .mul aHi bHi
  let hhHi ← int .mulhu aHi bHi
  let (column, c0) ← sumAndCarry T llHi lhLo
  let (_, c1) ← sumAndCarry T column hlLo
  let carryIn ← int .add c0 c1
  let (column, c2) ← sumAndCarry T lhHi hlHi
  let (column, c3) ← sumAndCarry T column hhLo
  let (lo, c4) ← sumAndCarry T column carryIn
  let carryOut ← int .add c2 c3
  let carryOut ← int .add carryOut c4
  let hi ← int .add hhHi carryOut
  return (lo, hi)

def ofOnes (T : Target) (id : NodeId) (slot : Nat) : Edit (Value × Value) := do
  let half ← halfType T id slot
  let (lo, hi) ← halves (← operand id 0)
  let lo ← unary (.count .ones) lo
  let hi ← unary (.count .ones) hi
  let count ← int .add lo hi
  let zero ← constant 0 half
  return (count, zero)

/-- The zeros of the low half count when the high one is zero. -/
def ofLeadingZeros (T : Target) (id : NodeId) (slot : Nat) : Edit (Value × Value) := do
  let half ← halfType T id slot
  let (lo, hi) ← halves (← operand id 0)
  let zero ← constant 0 half
  let hiIsZero ← setcc hi zero .eq (T.compareType half)
  let loCount ← unary (.count .leadingZeros) lo
  let width ← constant half.bits half
  let loCount ← int .add loCount width
  let hiCount ← unary (.count .leadingZeros) hi
  let count ← select hiIsZero loCount hiCount
  return (count, zero)

/-- The zeros of the high half count when the low one is zero. -/
def ofTrailingZeros (T : Target) (id : NodeId) (slot : Nat) : Edit (Value × Value) := do
  let half ← halfType T id slot
  let (lo, hi) ← halves (← operand id 0)
  let zero ← constant 0 half
  let loIsZero ← setcc lo zero .eq (T.compareType half)
  let hiCount ← unary (.count .trailingZeros) hi
  let width ← constant half.bits half
  let hiCount ← int .add hiCount width
  let loCount ← unary (.count .trailingZeros) lo
  let count ← select loIsZero hiCount loCount
  return (count, zero)

def ofSelect (id : NodeId) : Edit (Value × Value) := do
  let cond ← operand id 0
  let a ← operand id 1
  let b ← operand id 2
  let (aLo, aHi) ← halves a
  let (bLo, bHi) ← halves b
  let lo ← select cond aLo bLo
  let hi ← select cond aHi bHi
  return (lo, hi)

def ofZeroExtend (T : Target) (id : NodeId) (slot : Nat) : Edit (Value × Value) := do
  let half ← halfType T id slot
  let lo ← resize .zero (← operand id 0) half
  let hi ← constant 0 half
  return (lo, hi)

/-- The high half repeats the sign of the low one. -/
def ofSignExtend (T : Target) (id : NodeId) (slot : Nat) : Edit (Value × Value) := do
  let half ← halfType T id slot
  let lo ← resize .sign (← operand id 0) half
  let amount ← constant (half.bits - 1) half
  let hi ← int .sra lo amount
  return (lo, hi)

def ofAnyExtend (T : Target) (id : NodeId) (slot : Nat) : Edit (Value × Value) := do
  let half ← halfType T id slot
  let lo ← resize .any (← operand id 0) half
  let hi ← undef half
  return (lo, hi)

def ofTruncate (T : Target) (id : NodeId) (slot : Nat) : Edit (Value × Value) := do
  let half ← halfType T id slot
  cutInteger (← operand id 0) half

def ofPair (T : Target) (id : NodeId) (slot : Nat) : Edit (Value × Value) := do
  let half ← halfType T id slot
  let lo ← operand id 0
  let hi ← operand id 1
  if (← typeOf lo) = half then
    if (← typeOf hi) = half then return (lo, hi)
  throw (.unsupportedType (← resultType id slot) .expandInteger)

end Dataflow.Legal.Halve
