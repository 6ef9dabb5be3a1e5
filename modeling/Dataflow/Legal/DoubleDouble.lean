import Dataflow.Legal.Output
import Dataflow.Legal.Resize

/-!
# Double-doubles in two parts

The low part of a double-double is in its low bits. The value is the sum of the parts.
-/

namespace Dataflow.Legal.DoubleDouble

open Edit

/-- The type of the parts of a result. -/
def partType (T : Target) (id : NodeId) (slot : Nat) : Edit ValueType := do
  return T.transform (← resultType id slot)

def ofArgument (T : Target) (id : NodeId) (slot : Nat) : Edit (Value × Value) := do
  let part ← partType T id slot
  let (index, offset) ← argumentPosition id
  let lo ← argument index offset part
  let hi ← argument index (← position (offset + part.bits)) part
  return (lo, hi)

def ofConstant (T : Target) (id : NodeId) (slot : Nat) : Edit (Value × Value) := do
  let part ← partType T id slot
  let bits ← immediate id
  let lo ← constantFp bits part
  let hi ← constantFp (← shiftedRight bits part.bits) part
  return (lo, hi)

def ofUndef (T : Target) (id : NodeId) (slot : Nat) : Edit (Value × Value) := do
  let part ← partType T id slot
  let lo ← undef part
  let hi ← undef part
  return (lo, hi)

/-- The sum of the negated parts is the negated sum, exactly. -/
def ofNeg (id : NodeId) : Edit (Value × Value) := do
  let (lo, hi) ← floatParts (← operand id 0)
  let lo ← unary .fneg lo
  let hi ← unary .fneg hi
  return (lo, hi)

def ofSelect (id : NodeId) : Edit (Value × Value) := do
  let cond ← operand id 0
  let a ← operand id 1
  let b ← operand id 2
  let (aLo, aHi) ← floatParts a
  let (bLo, bHi) ← floatParts b
  let lo ← select cond aLo bLo
  let hi ← select cond aHi bHi
  return (lo, hi)

/-! ### Operands -/

/-- Rounding to the part type is the sum of the parts. -/
def inRound (id : NodeId) : Edit Value := do
  let t ← resultType id 0
  let (lo, hi) ← floatParts (← operand id 0)
  if (← typeOf hi) ≠ t then obstacle id .roundBelowPart
  binary (.float .add) hi lo

def inOutput (id : NodeId) (i : Nat) : Edit Successor := do
  let (lo, hi) ← floatParts (← operand id i)
  outputOf id i [lo, hi]

end Dataflow.Legal.DoubleDouble
