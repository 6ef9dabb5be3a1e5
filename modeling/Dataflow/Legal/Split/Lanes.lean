import Dataflow.Legal.Output
import Dataflow.Legal.Resize

/-!
# Vectors in two halves: lanes

A vector is split into a low and a high vector of half its length.
-/

namespace Dataflow.Legal.Split

open Edit

/-- The type of the halves of a result. -/
def halfType (T : Target) (id : NodeId) (slot : Nat) : Edit ValueType := do
  return T.transform (← resultType id slot)

def ofArgument (T : Target) (id : NodeId) (slot : Nat) : Edit (Value × Value) := do
  let half ← halfType T id slot
  let (index, offset) ← argumentPosition id
  let lo ← argument index offset half
  let hi ← argument index (← position (offset + half.bits)) half
  return (lo, hi)

def ofUndef (T : Target) (id : NodeId) (slot : Nat) : Edit (Value × Value) := do
  let half ← halfType T id slot
  let lo ← undef half
  let hi ← undef half
  return (lo, hi)

def ofUnary (id : NodeId) : Edit (Value × Value) := do
  let op := (← node id).opcode
  let (lo, hi) ← vectorHalves (← operand id 0)
  let lo ← unary op lo
  let hi ← unary op hi
  return (lo, hi)

def ofBinary (id : NodeId) : Edit (Value × Value) := do
  let op := (← node id).opcode
  let a ← operand id 0
  let b ← operand id 1
  let (aLo, aHi) ← vectorHalves a
  let (bLo, bHi) ← vectorHalves b
  let lo ← binary op aLo bLo
  let hi ← binary op aHi bHi
  return (lo, hi)

def ofSelect (id : NodeId) : Edit (Value × Value) := do
  let cond ← operand id 0
  if (← typeOf cond).isVector then obstacle id .lanewiseSelect
  let a ← operand id 1
  let b ← operand id 2
  let (aLo, aHi) ← vectorHalves a
  let (bLo, bHi) ← vectorHalves b
  let lo ← select cond aLo bLo
  let hi ← select cond aHi bHi
  return (lo, hi)

def ofBuildVector (T : Target) (id : NodeId) (slot : Nat) : Edit (Value × Value) := do
  let half ← halfType T id slot
  let elements ← operands id
  if elements.length ≠ 2 * half.lanes then obstacle id .elementCount
  let lo ← buildVector (elements.take half.lanes) half
  let hi ← buildVector (elements.drop half.lanes) half
  return (lo, hi)

def ofConcat (T : Target) (id : NodeId) (slot : Nat) : Edit (Value × Value) := do
  let half ← halfType T id slot
  let lo ← operand id 0
  let hi ← operand id 1
  if (← typeOf lo) = half then
    if (← typeOf hi) = half then return (lo, hi)
  obstacle id .concatInputs

/-- The half that receives the element has to be known, so the index is a constant. -/
def ofInsert (T : Target) (id : NodeId) (slot : Nat) : Edit (Value × Value) := do
  let lanes := (← halfType T id slot).lanes
  let vector ← operand id 0
  let element ← operand id 1
  let index ← operand id 2
  let some k ← constant? index | obstacle id .insertVariableIndex
  if 2 * lanes ≤ k then obstacle id .insertIndexOutOfRange
  let (lo, hi) ← vectorHalves vector
  let t ← typeOf index
  if k < lanes then
    let index ← constant k t
    return (← insert lo element index, hi)
  else
    let index ← constant (k - lanes) t
    return (lo, ← insert hi element index)

/-! ### Operands -/

/-- The half that is read has to be known, so the index is a constant. -/
def inExtract (id : NodeId) (i : Nat) : Edit Value := do
  if i ≠ 0 then obstacle id .splitExtractIndex
  let vector ← operand id 0
  let index ← operand id 1
  let some k ← constant? index | obstacle id .extractVariableIndex
  let (lo, hi) ← vectorHalves vector
  let lanes := (← typeOf lo).lanes
  if 2 * lanes ≤ k then obstacle id .extractIndexOutOfRange
  let (half, k) := if k < lanes then (lo, k) else (hi, k - lanes)
  let index ← constant k (← typeOf index)
  let t ← resultType id 0
  extractAs half index t

def inOutput (id : NodeId) (i : Nat) : Edit Successor := do
  let (lo, hi) ← vectorHalves (← operand id i)
  outputOf id i [lo, hi]

end Dataflow.Legal.Split
