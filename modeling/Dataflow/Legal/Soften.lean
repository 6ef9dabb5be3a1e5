import Dataflow.Legal.Output
import Dataflow.Legal.Resize

/-!
# Floats carried as integers

A float is carried as the integer of its width. Operations on the bit pattern have a counterpart on
integers; arithmetic has none.
-/

namespace Dataflow.Legal.Soften

open Edit

def ofArgument (T : Target) (id : NodeId) (slot : Nat) : Edit Value := do
  let t := T.transform (← resultType id slot)
  let (index, offset) ← argumentPosition id
  argument index offset t

def ofConstant (T : Target) (id : NodeId) (slot : Nat) : Edit Value := do
  let t := T.transform (← resultType id slot)
  let bits ← immediate id
  constant bits t

def ofUndef (T : Target) (id : NodeId) (slot : Nat) : Edit Value := do
  undef (T.transform (← resultType id slot))

/-- The sign bit at the type of a carrier. -/
def signBit (v : Value) : Edit Value := do
  let t ← typeOf v
  constant (← bit (t.bits - 1)) t

/-- Every bit but the sign, at the type of a carrier. -/
def bitsBelowSign (v : Value) : Edit Value := do
  let t ← typeOf v
  constant (Word.mask t.laneBits >>> 1) t

def ofNeg (id : NodeId) : Edit Value := do
  let v ← promoted (← operand id 0)
  let sign ← signBit v
  int .xor v sign

def ofAbs (id : NodeId) : Edit Value := do
  let v ← promoted (← operand id 0)
  let magnitude ← bitsBelowSign v
  int .and v magnitude

def ofCopysign (id : NodeId) : Edit Value := do
  let magnitude ← operand id 0
  let sign ← operand id 1
  let magnitude ← promoted magnitude
  let sign ← promoted sign
  if (← typeOf magnitude) ≠ (← typeOf sign) then obstacle id .copysignWidthsDiffer
  let magnitudeMask ← bitsBelowSign magnitude
  let signMask ← signBit sign
  let magnitude ← int .and magnitude magnitudeMask
  let sign ← int .and sign signMask
  int .or magnitude sign

def ofSelect (id : NodeId) : Edit Value := do
  let cond ← operand id 0
  let a ← operand id 1
  let b ← operand id 2
  let a ← promoted a
  let b ← promoted b
  select cond a b

/-- The bits of the source at the integer type, which are made legal on their own. -/
def ofBitcast (T : Target) (id : NodeId) (slot : Nat) : Edit Value := do
  let t := T.transform (← resultType id slot)
  bitcast (← operand id 0) t

/-- The lane of the vector reinterpreted with integer lanes of the same width. -/
def ofExtract (T : Target) (id : NodeId) (slot : Nat) : Edit Value := do
  let t := T.transform (← resultType id slot)
  let vector ← operand id 0
  let index ← operand id 1
  let vt ← typeOf vector
  let some lanes := (ValueType.int? vt.laneBits).bind (·.vector? vt.lanes)
    | obstacle id .noIntegerVector
  let vector ← bitcast vector lanes
  extractAs vector index t

def ofPair (T : Target) (id : NodeId) (slot : Nat) : Edit Value := do
  let t := T.transform (← resultType id slot)
  let lo ← operand id 0
  let hi ← operand id 1
  buildPair lo hi t

/-! ### Operands -/

def inBitcast (id : NodeId) : Edit Value := do
  let t ← resultType id 0
  bitcast (← promoted (← operand id 0)) t

def inOutput (id : NodeId) (i : Nat) : Edit Successor := do
  outputOf id i [← promoted (← operand id i)]

end Dataflow.Legal.Soften
