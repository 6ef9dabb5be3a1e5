import Dataflow.Legal.Edit

/-!
# Changing the width of integers

Extensions and truncations that emit nothing when there is nothing to do, extension inside a wider
register, and the two ways between an integer and its halves.
-/

namespace Dataflow.Legal

/-- How an extension fills the bits above its operand. -/
inductive Fill where
  | zero | sign | any
  deriving DecidableEq, Repr, Inhabited

def Fill.opcode : Fill → Opcode
  | zero => .zeroExtend
  | sign => .signExtend
  | any => .anyExtend

namespace Edit

/-- The 128-bit word in which only bit `n` is set. -/
def bit (n : Nat) : Edit Nat :=
  if n < Word.maxBits then return 1 <<< n else throw (.fault .overflow)

/-- A 128-bit word shifted right by `n`. -/
def shiftedRight (a n : Nat) : Edit Nat :=
  if n < Word.maxBits then return a >>> n else throw (.fault .overflow)

/-- A bit position, which is a 32-bit word. -/
def position (n : Nat) : Edit Nat :=
  if n < Word.bound 32 then return n else throw (.fault .overflow)

/-- Index and offset of an argument node. -/
def argumentPosition (id : NodeId) : Edit (Nat × Nat) := do
  match (← node id).arg? with
  | some slot => return slot
  | none => obstacle id .argumentWithoutIndex

/-- The bits of a constant node. -/
def immediate (id : NodeId) : Edit Nat := do
  match (← node id).imm? with
  | some bits => return bits
  | none => obstacle id .constantWithoutImmediate

/-- The predicate of a comparison node. -/
def predicate (id : NodeId) : Edit Condition := do
  match (← node id).cond? with
  | some c => return c
  | none => obstacle id .setccWithoutPredicate

/-- Clears the bits of `v` above the width of `source`. -/
def clearAbove (v : Value) (source : ValueType) : Edit Value := do
  let t ← typeOf v
  if t.bits ≤ source.bits then return v
  let mask ← constant (Word.mask source.bits) t
  int .and v mask

/-- Copies the top bit of `source` into the bits of `v` above its width. -/
def signFill (v : Value) (source : ValueType) : Edit Value := do
  let t ← typeOf v
  if t.bits ≤ source.bits then return v
  let amount ← constant (t.bits - source.bits) t
  let shifted ← int .shl v amount
  int .sra shifted amount

/-- The carrier of a promoted value, with clear high bits. -/
def zeroExtended (v : Value) : Edit Value := do
  let t ← typeOf v
  clearAbove (← promoted v) t

/-- The carrier of a promoted value, with sign-filled high bits. -/
def signExtended (v : Value) : Edit Value := do
  let t ← typeOf v
  signFill (← promoted v) t

/-- The carrier of a promoted value, filled as asked. -/
def filled (fill : Fill) (v : Value) : Edit Value :=
  match fill with
  | .zero => zeroExtended v
  | .sign => signExtended v
  | .any => promoted v

/-- Extends or truncates `v` to `t`, or leaves it. -/
def resize (fill : Fill) (v : Value) (t : ValueType) : Edit Value := do
  let source ← typeOf v
  if source = t then return v
  else if source.bits < t.bits then cast fill.opcode v t
  else cast .truncate v t

/-- Reinterprets `v` as `t`, or leaves it. -/
def bitcast (v : Value) (t : ValueType) : Edit Value := do
  if (← typeOf v) = t then return v else cast .bitcast v t

/-- The low and high `half` of an integer, as nodes that are made legal like any other. -/
def cutInteger (v : Value) (half : ValueType) : Edit (Value × Value) := do
  let t ← typeOf v
  let lo ← cast .truncate v half
  let amount ← constant half.bits t
  let shifted ← int .srl v amount
  let hi ← cast .truncate shifted half
  return (lo, hi)

/-- Places `hi` above the low `width` bits, which `lo` fills, at the integer type `t`. -/
def joinAt (width : Nat) (lo hi : Value) (t : ValueType) : Edit Value := do
  let lo ← resize .zero lo t
  let hi ← resize .any hi t
  let amount ← constant width t
  let hi ← int .shl hi amount
  int .or lo hi

/-- The integer of type `t` with the given halves. -/
def joinHalves (lo hi : Value) (t : ValueType) : Edit Value := do
  joinAt (← typeOf lo).bits lo hi t

end Edit

end Dataflow.Legal
