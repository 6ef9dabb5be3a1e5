import Dataflow.Graph

/-!
# Instructions

Requests for a node of one result. Where the type of the result follows from the operands the
request does not name it; `Instr.node` fills it in.
-/

namespace Dataflow

inductive Instr where
  /-- A slice of argument `index` from bit `offset` on. -/
  | argument (index offset : Nat) (type : ValueType)
  /-- An integer constant, cut to the lane width. -/
  | constant (bits : Nat) (type : ValueType)
  /-- A float constant from its bit pattern, cut to the lane width. -/
  | constantFp (bits : Nat) (type : ValueType)
  | undef (type : ValueType)
  /-- Has the type of `lhs`. -/
  | binary (op : Opcode) (lhs rhs : Value)
  /-- Has the type of its operand. -/
  | unary (op : Opcode) (v : Value)
  /-- Extensions, truncation, reinterpretation and rounding. -/
  | cast (op : Opcode) (v : Value) (type : ValueType)
  | setcc (lhs rhs : Value) (c : Condition) (type : ValueType)
  /-- Has the type of `ifTrue`. -/
  | select (cond ifTrue ifFalse : Value)
  | buildPair (lo hi : Value) (type : ValueType)
  | buildVector (elements : List Value) (type : ValueType)
  /-- Has the lane type of `vector`. -/
  | extract (vector index : Value)
  /-- May be wider than the lane; the bits above it are unspecified. -/
  | extractAs (vector index : Value) (type : ValueType)
  /-- Has the type of `vector`. -/
  | insert (vector element index : Value)
  | shuffle (lhs rhs : Value) (lanes : List (Option Nat)) (type : ValueType)
  | concat (lo hi : Value) (type : ValueType)
  | value (op : Opcode) (operands : List Value) (type : ValueType) (attr : Attr)
  deriving DecidableEq, Repr, Inhabited

namespace Instr

/-- The requested node, in a graph of the given value types. -/
def node (typeOf : Value → Except Fault ValueType) : Instr → Except Fault Node
  | argument index offset t => .ok ⟨.argument, [], [t], .arg index offset⟩
  | constant bits t => .ok ⟨.constant, [], [t], .imm (Word.low t.laneBits bits)⟩
  | constantFp bits t => .ok ⟨.constantFp, [], [t], .imm (Word.low t.laneBits bits)⟩
  | undef t => .ok ⟨.undef, [], [t], .none⟩
  | binary op lhs rhs => return ⟨op, [lhs, rhs], [← typeOf lhs], .none⟩
  | unary op v => return ⟨op, [v], [← typeOf v], .none⟩
  | cast op v t => .ok ⟨op, [v], [t], .none⟩
  | setcc lhs rhs c t => .ok ⟨.setcc, [lhs, rhs], [t], .cond c⟩
  | select cond ifTrue ifFalse =>
    return ⟨.select, [cond, ifTrue, ifFalse], [← typeOf ifTrue], .none⟩
  | buildPair lo hi t => .ok ⟨.buildPair, [lo, hi], [t], .none⟩
  | buildVector elements t => .ok ⟨.buildVector, elements, [t], .none⟩
  | extract vector index =>
    return ⟨.extractElement, [vector, index], [(← typeOf vector).scalar], .none⟩
  | extractAs vector index t => .ok ⟨.extractElement, [vector, index], [t], .none⟩
  | insert vector element index =>
    return ⟨.insertElement, [vector, element, index], [← typeOf vector], .none⟩
  | shuffle lhs rhs lanes t => .ok ⟨.vectorShuffle, [lhs, rhs], [t], .mask lanes⟩
  | concat lo hi t => .ok ⟨.concatVectors, [lo, hi], [t], .none⟩
  | value op operands t attr => .ok ⟨op, operands, [t], attr⟩

end Instr

namespace Graph

/-- Appends the requested node. -/
def build (g : Graph) (i : Instr) : Except Fault (Value × Graph) := do
  let (id, g) ← g.add (← i.node g.typeOf)
  return (⟨id, 0⟩, g)

/-- A shuffle whose type has the lane type of `lhs` and a lane per entry. -/
def shuffle (g : Graph) (lhs rhs : Value) (lanes : List (Option Nat)) :
    Except Fault (Value × Graph) := do
  match (← g.typeOf lhs).scalar.vector? lanes.length with
  | some t => g.build (.shuffle lhs rhs lanes t)
  | none => .error .noSuchType

/-- An output that observes the given low bits of each value. -/
def outputWithWidths (g : Graph) (values : List Value) (widths : List Nat) :
    Except Fault (NodeId × Graph) :=
  g.add ⟨.output, values, [], .widths widths⟩

/-- An output that observes every bit of each value. -/
def output (g : Graph) (values : List Value) : Except Fault (NodeId × Graph) := do
  let types ← values.mapM g.typeOf
  g.outputWithWidths values (types.map (·.bits))

end Graph

end Dataflow
