import Dataflow.BitString
import Dataflow.Eval.Error
import Dataflow.Eval.Float
import Dataflow.Graph

/-!
# Evaluation

The meaning of a graph on concrete arguments: the bit string that its outputs observe. Graphs that
carry the same data in values of other types and numbers can be compared through it.
-/

namespace Dataflow

/-- A datum per evaluated node. -/
abbrev Values := Array (Option Datum)

namespace Eval

/-- What the evaluation of one node can see. -/
structure Context where
  graph : Graph
  args : Array BitString
  values : Values
  deriving Inhabited

namespace Context

/-- The datum that operand `i` of node `id` reads. -/
def operand (c : Context) (id : NodeId) (n : Node) (i : Nat) : Except EvalError Datum :=
  match n.operands[i]? with
  | none => .error (.missingOperand id i)
  | some v =>
    match c.values[v.node]?.join with
    | some d => .ok d
    | none => .error (.unevaluated v.node)

/-- The type of operand `i`, or `t` when there is none. -/
def operandType (c : Context) (n : Node) (t : ValueType) (i : Nat) : Except Fault ValueType :=
  match n.operands[i]? with
  | some v => c.graph.typeOf v
  | none => .ok t

end Context

/-- Leading zeros of a lane of `n` bits, which must not hold a wider word. -/
def leadingZeros (n a : Nat) : Except Fault Nat :=
  if Word.length a ≤ n then .ok (n - Word.length a) else .error .overflow

def bitCount (op : BitCount) (n a : Nat) : Except Fault Nat :=
  match op with
  | .ones => .ok (Word.countOnes Word.maxBits a)
  | .leadingZeros => leadingZeros n a
  | .trailingZeros => .ok (Word.trailingZeros n a)

/-- Applies `f` to every lane. -/
def lanewise (t : ValueType) (f : Nat → Except EvalError Nat) (d : Datum) :
    Except EvalError Datum := do
  Datum.ofLanes t (← d.lanes.mapM f)

/-- Applies `f` to the lanes of two data in step. -/
def lanewise₂ (t : ValueType) (f : Nat → Nat → Except EvalError Nat) (a b : Datum) :
    Except EvalError Datum := do
  Datum.ofLanes t (← (a.lanes.zip b.lanes).mapM fun (x, y) => f x y)

/-- The lane at `index`, which is read as a 64-bit word. -/
def laneAt (vt : ValueType) (d : Datum) (index : Nat) : Except EvalError Datum :=
  match d.lanes[index % Word.bound 64]? with
  | some bits => .ok (.scalar bits)
  | none => .error (.indexOutOfRange index vt)

/-- `d` with another lane at `index`. -/
def withLane (t : ValueType) (d : Datum) (element index : Nat) : Except EvalError Datum :=
  let lane := index % Word.bound 64
  if lane < d.lanes.length then Datum.ofLanes t (d.lanes.set lane (Word.low t.laneBits element))
  else .error (.indexOutOfRange index t)

/-- The lanes of two joined inputs that a mask names. -/
def shuffled (t : ValueType) (mask : List (Option Nat)) (inputs : List Nat) :
    Except EvalError Datum := do
  Datum.ofLanes t (← mask.mapM fun
    | none => .ok 0
    | some lane =>
      match inputs[lane]? with
      | some bits => .ok bits
      | none => .error (.indexOutOfRange lane t))

/-- The datum of a node with a result of type `t`, from the data and types of its operands. -/
def compute (args : Array BitString) (n : Node) (t : ValueType)
    (operand : Nat → Except EvalError Datum) (operandType : Nat → Except Fault ValueType) :
    Except EvalError Datum := do
  let unsupported := EvalError.unsupported n.opcode t
  match n.opcode with
  | .argument =>
    let some (index, offset) := n.arg? | throw unsupported
    let some bits := args[index]? | throw (.missingArgument index)
    bits.readDatum offset t
  | .constant | .constantFp =>
    let some bits := n.imm? | throw unsupported
    Datum.ofLanes t (List.replicate t.laneCount (Word.low t.laneBits bits))
  | .undef => Datum.ofLanes t (List.replicate t.laneCount 0)
  | .int op =>
    if t.isInt then
      lanewise₂ t (fun a b => Word.binary op t.laneBits a b) (← operand 0) (← operand 1)
    else throw unsupported
  | .float op =>
    let lane (a b : Nat) : Except EvalError Nat :=
      match FloatBits.binary? op t.scalar a b with
      | some r => .ok r
      | none => .error unsupported
    lanewise₂ t lane (← operand 0) (← operand 1)
  | .fcopysign =>
    let sign := FloatBits.signMask t.scalar
    lanewise₂ t (fun a b => .ok (Word.clear a sign ||| (b &&& sign))) (← operand 0) (← operand 1)
  | .fneg => lanewise t (fun a => .ok (a ^^^ FloatBits.signMask t.scalar)) (← operand 0)
  | .fabs =>
    if t.scalar = .ppcf128 then throw unsupported
    else lanewise t (fun a => .ok (Word.clear a (FloatBits.signMask t.scalar))) (← operand 0)
  | .count op => lanewise t (fun a => bitCount op t.laneBits a) (← operand 0)
  | .setcc =>
    if t.isVector then throw unsupported
    else
      let some cond := n.cond? | throw unsupported
      let bits := (← operandType 0).bits
      let a ← (← operand 0).first
      let b ← (← operand 1).first
      return .scalar (← cond.holds bits a b).toNat
  | .select => if (← (← operand 0).first) ≠ 0 then operand 1 else operand 2
  | .zeroExtend | .anyExtend | .truncate =>
    lanewise t (fun a => .ok (Word.low t.laneBits a)) (← operand 0)
  | .signExtend =>
    let source := (← operandType 0).laneBits
    lanewise t (fun a => .ok (Word.ofInt t.laneBits (Word.signed source a))) (← operand 0)
  | .bitcast =>
    let d ← operand 0
    (BitString.ofDatum d (← operandType 0)).readDatum 0 t
  | .buildPair =>
    let lo ← operand 0
    let bits := BitString.ofDatum lo (← operandType 0)
    let hi ← operand 1
    (bits.pushDatum hi (← operandType 1)).readDatum 0 t
  | .fpRound =>
    let a ← (← operand 0).first
    match ← operandType 0, t with
    | .ppcf128, .f64 => return .scalar (FloatBits.roundDoubleDouble a)
    | .f64, .f32 => return .scalar (FloatBits.roundDouble a)
    | _, _ => throw unsupported
  | .buildVector =>
    return .vector (← (List.range n.operands.length).mapM fun i => do
      return Word.low t.laneBits (← (← operand i).first))
  | .extractElement =>
    let d ← operand 0
    let index ← (← operand 1).first
    laneAt (← operandType 0) d index
  | .insertElement =>
    let d ← operand 0
    let element ← (← operand 1).first
    let index ← (← operand 2).first
    withLane t d element index
  | .vectorShuffle =>
    let a ← operand 0
    let b ← operand 1
    let some mask := n.mask? | throw unsupported
    shuffled t mask (a.lanes ++ b.lanes)
  | .concatVectors =>
    let lo ← operand 0
    let hi ← operand 1
    return .vector (lo.lanes ++ hi.lanes)
  | .output => throw unsupported

/-- The datum of node `id`, from the data of its operands. -/
def node (c : Context) (id : NodeId) : Except EvalError Datum := do
  let n ← c.graph.node id
  let some t := n.resultType? | throw (.unsupported n.opcode .i1)
  compute c.args n t (c.operand id n) (c.operandType n t)

/-- The bits that an output observes: of each operand its width, or all of it. -/
def observed (c : Context) (id : NodeId) (n : Node) : Except EvalError BitString := do
  let widths := n.widths?.getD []
  let parts ← n.operands.zipIdx.mapM fun (v, i) => do
    let t ← c.graph.typeOf v
    let d ← c.operand id n i
    return (BitString.ofDatum d t).resize (widths[i]?.getD t.bits)
  return parts.foldl (· ++ ·) .empty

end Eval

namespace Graph

/-- Marks the nodes that marked nodes read, from node `i - 1` down. Operands come before their
users, so one sweep is enough. -/
def markOperands (g : Graph) : Nat → Array Bool → Array Bool
  | 0, marks => marks
  | i + 1, marks =>
    if marks[i]? = some true then
      let operands := (g.nodes[i]?.map (·.operands)).getD []
      g.markOperands i (operands.foldl (fun ms v => ms.setIfInBounds v.node true) marks)
    else g.markOperands i marks

/-- Which nodes `root` needs. -/
def reachable (g : Graph) (root : NodeId) : Array Bool :=
  g.markOperands g.size ((Array.replicate g.size false).setIfInBounds root true)

end Graph

namespace Eval

/-- A run over the nodes in their order. -/
structure State where
  values : Values
  output : BitString := .empty
  deriving Inhabited

/-- Evaluates the next node: outputs add to the result and any other node gets its datum. -/
def step (g : Graph) (args : Array BitString) (s : State) (id : NodeId) :
    Except EvalError State := do
  let n ← g.node id
  let c : Context := ⟨g, args, s.values⟩
  if n.opcode = .output then return { s with output := s.output ++ (← observed c id n) }
  else
    let d ← node c id
    return { s with values := s.values.setIfInBounds id (some d) }

end Eval

/-- The bits that the reachable outputs of a graph observe when argument `i` is `args[i]`, given
with its type. -/
def Graph.evaluate (g : Graph) (args : List (ValueType × Datum)) : Except EvalError BitString := do
  let some root := g.root | throw .noRoot
  let buffers := (args.map fun (t, d) => BitString.ofDatum d t).toArray
  let _ ← g.node root
  let needed := g.reachable root
  let ids := (List.range g.size).filter fun id => needed[id]?.getD false
  let s ← ids.foldlM (Eval.step g buffers) { values := Array.replicate g.size none }
  return s.output

end Dataflow
