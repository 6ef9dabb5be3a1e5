import Dataflow.Legal.Halve.Arithmetic

/-!
# Integers in two halves: shifts

A shift by a constant picks its case at once. A shift by a value computes the result for amounts
below the half width and for amounts above it, and selects.
-/

namespace Dataflow.Legal.Halve

open Edit

/-- The low half of a right shift by `amount`, which is above zero and below the half width. -/
def lowOfRightShift (lo hi : Value) (amount : Nat) : Edit Value := do
  let half ← typeOf lo
  let shift ← constant amount half
  let back ← constant (half.bits - amount) half
  let low ← int .srl lo shift
  let carried ← int .shl hi back
  int .or low carried

/-- An arithmetic right shift by a constant above zero. -/
def arithmeticByConstant (lo hi : Value) (half : ValueType) (amount : Nat) :
    Edit (Value × Value) := do
  let signAmount ← constant (half.bits - 1) half
  let sign ← int .sra hi signAmount
  if 2 * half.bits ≤ amount then return (sign, sign)
  else if half.bits < amount then
    let shift ← constant (amount - half.bits) half
    return (← int .sra hi shift, sign)
  else if amount = half.bits then return (hi, sign)
  else
    let lo ← lowOfRightShift lo hi amount
    let shift ← constant amount half
    return (lo, ← int .sra hi shift)

/-- A left shift by a constant above zero and below the whole width. -/
def leftByConstant (lo hi zero : Value) (half : ValueType) (amount : Nat) :
    Edit (Value × Value) := do
  if half.bits < amount then
    let shift ← constant (amount - half.bits) half
    return (zero, ← int .shl lo shift)
  else if amount = half.bits then return (zero, lo)
  else
    let shift ← constant amount half
    let back ← constant (half.bits - amount) half
    let newLo ← int .shl lo shift
    let carried ← int .srl lo back
    let newHi ← int .shl hi shift
    return (newLo, ← int .or newHi carried)

/-- A logical right shift by a constant above zero and below the whole width. -/
def rightByConstant (lo hi zero : Value) (half : ValueType) (amount : Nat) :
    Edit (Value × Value) := do
  if half.bits < amount then
    let shift ← constant (amount - half.bits) half
    return (← int .srl hi shift, zero)
  else if amount = half.bits then return (hi, zero)
  else
    let lo ← lowOfRightShift lo hi amount
    let shift ← constant amount half
    return (lo, ← int .srl hi shift)

/-- A shift by a constant amount. -/
def constantShift (op : Opcode) (lo hi : Value) (amount : Nat) : Edit (Value × Value) := do
  let half ← typeOf lo
  let zero ← constant 0 half
  if amount = 0 then return (lo, hi)
  else if op = .int .sra then arithmeticByConstant lo hi half amount
  else if 2 * half.bits ≤ amount then return (zero, zero)
  else if op = .int .shl then leftByConstant lo hi zero half amount
  else rightByConstant lo hi zero half amount

/-- The low part of a shift amount at the half type and, when the amount is in halves itself, its
high part. -/
def amountParts (T : Target) (id : NodeId) (amount : Value) (half : ValueType) :
    Edit (Value × Option Value) := do
  let t ← typeOf amount
  match T.classify t with
  | .expandInteger =>
    let (lo, hi) ← halves amount
    if (← typeOf lo) ≠ half then obstacle id .shiftAmountPartsDiffer
    return (lo, some hi)
  | .legal =>
    if half.bits < t.bits then obstacle id .shiftAmountWide
    return (← resize .zero amount half, none)
  | .promoteInteger =>
    let carrier ← zeroExtended amount
    if half.bits < (← typeOf carrier).bits then obstacle id .promotedShiftAmountWide
    return (← resize .zero carrier half, none)
  | _ => obstacle id .shiftAmountWide

/-- The results of a shift for small amounts, for amounts from the half width on, and for amounts
that move every bit out. -/
structure ShiftCases where
  small : Value × Value
  big : Value × Value
  out : Value × Value

/-- `inverse` is the half width less the amount and `past` the amount less the half width. -/
def leftCases (lo hi zero amount inverse past : Value) : Edit ShiftCases := do
  let smallLo ← int .shl lo amount
  let shiftedHi ← int .shl hi amount
  let carried ← int .srl lo inverse
  let smallHi ← int .or shiftedHi carried
  let bigHi ← int .shl lo past
  return ⟨(smallLo, smallHi), (zero, bigHi), (zero, zero)⟩

/-- The high half of a right shift is filled with zeros or with the sign. -/
def rightCases (op : IntOp) (lo hi zero amount inverse past : Value) : Edit ShiftCases := do
  let half ← typeOf lo
  let shiftedLo ← int .srl lo amount
  let carried ← int .shl hi inverse
  let smallLo ← int .or shiftedLo carried
  let smallHi ← int op hi amount
  let bigLo ← int op hi past
  let fill ← if op = .sra then
      let signAmount ← constant (half.bits - 1) half
      int .sra hi signAmount
    else pure zero
  return ⟨(smallLo, smallHi), (bigLo, fill), (fill, fill)⟩

/-- A shift by an amount that is only known at run time. A zero amount makes `inverse` the half
width, which shifts everything out. -/
def variableShift (T : Target) (id : NodeId) (op : Opcode) (lo hi amount : Value) :
    Edit (Value × Value) := do
  let half ← typeOf lo
  let flag := T.compareType half
  let (amount, amountHi?) ← amountParts T id amount half
  let zero ← constant 0 half
  let width ← constant half.bits half
  let doubleWidth ← constant (2 * half.bits) half
  let small ← setcc amount width .ult flag
  let overflow ← setcc amount doubleWidth .uge flag
  let overflow ← match amountHi? with
    | some amountHi => do
      let highSet ← setcc amountHi zero .ne flag
      int .or overflow highSet
    | none => pure overflow
  let inverse ← int .sub width amount
  let past ← int .sub amount width
  let cases ← match op with
    | .int .shl => leftCases lo hi zero amount inverse past
    | .int .srl => rightCases .srl lo hi zero amount inverse past
    | .int .sra => rightCases .sra lo hi zero amount inverse past
    | _ => obstacle id .notAShift
  let lo ← select small cases.small.1 cases.big.1
  let lo ← select overflow cases.out.1 lo
  let hi ← select small cases.small.2 cases.big.2
  let hi ← select overflow cases.out.2 hi
  return (lo, hi)

def ofShift (T : Target) (id : NodeId) : Edit (Value × Value) := do
  let op := (← node id).opcode
  let v ← operand id 0
  let amount ← operand id 1
  let (lo, hi) ← halves v
  match ← constant? amount with
  | some amount => constantShift op lo hi amount
  | none => variableShift T id op lo hi amount

end Dataflow.Legal.Halve
