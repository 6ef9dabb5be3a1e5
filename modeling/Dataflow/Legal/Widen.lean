import Dataflow.Legal.Output
import Dataflow.Legal.Resize

/-!
# Integers carried in wider ones

The carrier of a promoted integer holds its bits at the bottom; the bits above are unspecified. An
operation that depends on them (right shifts, division, comparisons, bit counts) fills them first.
-/

namespace Dataflow.Legal.Widen

open Edit

/-! ### Results -/

def ofArgument (T : Target) (id : NodeId) (slot : Nat) : Edit Value := do
  let t := T.transform (← resultType id slot)
  let (index, offset) ← argumentPosition id
  argument index offset t

def ofConstant (T : Target) (id : NodeId) (slot : Nat) : Edit Value := do
  let t := T.transform (← resultType id slot)
  let bits ← immediate id
  constant bits t

def ofUndef (T : Target) (id : NodeId) (slot : Nat) : Edit Value := do
  undef (T.transform (← resultType id slot))

/-- Operations whose low bits depend on the low bits of the operands only. -/
def ofLowBits (id : NodeId) : Edit Value := do
  let op := (← node id).opcode
  let a ← operand id 0
  let b ← operand id 1
  let a ← promoted a
  let b ← promoted b
  binary op a b

/-- Operations that read operands filled up to the carrier. A shift amount is zero extended, so that
one past the width still shifts every bit out. -/
def ofFilled (op : IntOp) (left right : Fill) (id : NodeId) : Edit Value := do
  let a ← operand id 0
  let b ← operand id 1
  let a ← filled left a
  let b ← filled right b
  int op a b

def ofOnes (id : NodeId) : Edit Value := do
  let v ← zeroExtended (← operand id 0)
  unary (.count .ones) v

/-- The zero-extended value has leading zeros of its own above the narrow width. -/
def ofLeadingZeros (id : NodeId) : Edit Value := do
  let v ← operand id 0
  let narrow := (← typeOf v).bits
  let v ← zeroExtended v
  let t ← typeOf v
  let count ← unary (.count .leadingZeros) v
  if t.bits < narrow then throw (.fault .overflow)
  let extra ← constant (t.bits - narrow) t
  int .sub count extra

/-- A bit just above the narrow width stops the count there. -/
def ofTrailingZeros (id : NodeId) : Edit Value := do
  let v ← operand id 0
  let narrow := (← typeOf v).bits
  let v ← promoted v
  let t ← typeOf v
  let stop ← constant (← bit narrow) t
  let v ← int .or v stop
  unary (.count .trailingZeros) v

/-- The comparison is rebuilt with a wide result; its operands are left to the rules for the new
node. -/
def ofSetcc (T : Target) (id : NodeId) (slot : Nat) : Edit Value := do
  let t := T.transform (← resultType id slot)
  let c ← predicate id
  let a ← operand id 0
  let b ← operand id 1
  let compare ← setcc a b c (T.compareType (← typeOf a))
  resize .zero compare t

def ofSelect (id : NodeId) : Edit Value := do
  let cond ← operand id 0
  let a ← operand id 1
  let b ← operand id 2
  let a ← promoted a
  let b ← promoted b
  select cond a b

def ofTruncate (T : Target) (id : NodeId) (slot : Nat) : Edit Value := do
  let t := T.transform (← resultType id slot)
  let v ← operand id 0
  let vt ← typeOf v
  let source ← match T.classify vt with
    | .legal => pure v
    | .promoteInteger => promoted v
    | .expandInteger => do pure (← halves v).1
    | action => throw (.unsupportedType vt action)
  resize .any source t

/-- The operand of an extension at type `t`. -/
def extended (T : Target) (fill : Fill) (v : Value) (t : ValueType) : Edit Value := do
  let vt ← typeOf v
  let source ← match T.classify vt with
    | .legal => pure v
    | .promoteInteger => filled fill v
    | action => throw (.unsupportedType vt action)
  resize fill source t

def ofExtension (T : Target) (fill : Fill) (id : NodeId) (slot : Nat) : Edit Value := do
  let t := T.transform (← resultType id slot)
  extended T fill (← operand id 0) t

/-- The lane is read into the wider type; the vector is left to the rules for the new node. -/
def ofExtract (T : Target) (id : NodeId) (slot : Nat) : Edit Value := do
  let t := T.transform (← resultType id slot)
  let vector ← operand id 0
  let index ← operand id 1
  extractAs vector index t

/-- A narrow integer that reinterprets a vector of one lane or a split vector. -/
def ofBitcast (T : Target) (id : NodeId) (slot : Nat) : Edit Value := do
  let narrow ← resultType id slot
  let t := T.transform narrow
  let source ← operand id 0
  match T.classify (← typeOf source) with
  | .scalarize =>
    let element ← bitcast (← soleLane source) narrow
    resize .any element t
  | .split =>
    let (lo, hi) ← vectorHalves source
    let some half := ValueType.int? (narrow.bits / 2)
      | obstacle id .bitcastResultWithoutIntegerHalves
    let lo ← bitcast lo half
    let hi ← bitcast hi half
    joinHalves lo hi t
  | _ => obstacle id .bitcastSourceNotLaneOrSplit

/-- The halves of a pair joined at the integer type `t`. Promoted halves are read through their
carriers. -/
def joinPair (T : Target) (id : NodeId) (t : ValueType) : Edit Value := do
  let lo ← operand id 0
  let hi ← operand id 1
  let width := (← typeOf lo).bits
  let lo ← if T.classify (← typeOf lo) = .promoteInteger then zeroExtended lo else pure lo
  let hi ← if T.classify (← typeOf hi) = .promoteInteger then promoted hi else pure hi
  joinAt width lo hi t

def ofPair (T : Target) (id : NodeId) (slot : Nat) : Edit Value := do
  let t := T.transform (← resultType id slot)
  joinPair T id t

/-! ### Operands -/

/-- Both sides are extended as the predicate reads them. -/
def inSetcc (id : NodeId) : Edit Value := do
  let t ← resultType id 0
  let c ← predicate id
  let fill := if c.isSigned then Fill.sign else .zero
  let a ← operand id 0
  let b ← operand id 1
  let a ← filled fill a
  let b ← filled fill b
  setcc a b c t

def inSelect (id : NodeId) (i : Nat) : Edit Value := do
  if i ≠ 0 then obstacle id .promoteSelectArm
  let cond ← zeroExtended (← operand id 0)
  let a ← operand id 1
  let b ← operand id 2
  select cond a b

def inExtension (T : Target) (fill : Fill) (id : NodeId) : Edit Value := do
  let t ← resultType id 0
  extended T fill (← operand id 0) t

/-- A float result is joined as the integer of its width and reinterpreted. -/
def inPair (T : Target) (id : NodeId) : Edit Value := do
  let t ← resultType id 0
  let some wide := ValueType.int? t.bits | obstacle id .pairResultWithoutInteger
  bitcast (← joinPair T id wide) t

def inOutput (id : NodeId) (i : Nat) : Edit Successor := do
  outputOf id i [← promoted (← operand id i)]

/-- Lanes cut what they are given, so carriers can be used as they are. -/
def inBuildVector (T : Target) (id : NodeId) : Edit Value := do
  let t ← resultType id 0
  let elements ← (← operands id).mapM fun v => do
    if T.classify (← typeOf v) = .promoteInteger then promoted v else pure v
  buildVector elements t

/-- A promoted index at the index type. -/
def laneIndex (T : Target) (index : Value) : Edit Value := do
  resize .zero (← zeroExtended index) T.indexType

def inInsert (T : Target) (id : NodeId) (i : Nat) : Edit Value := do
  let vector ← operand id 0
  let element ← operand id 1
  let index ← operand id 2
  match i with
  | 1 => insert vector (← promoted element) index
  | 2 => insert vector element (← laneIndex T index)
  | _ => obstacle id .promoteVector

/-- Only the index can be promoted: an illegal lane makes the result illegal too. -/
def inExtract (T : Target) (id : NodeId) (i : Nat) : Edit Value := do
  if i ≠ 1 then obstacle id .promoteExtractVector
  let t ← resultType id 0
  let vector ← operand id 0
  let index ← operand id 1
  extractAs vector (← laneIndex T index) t

end Dataflow.Legal.Widen
