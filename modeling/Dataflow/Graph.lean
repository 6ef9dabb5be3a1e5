import Dataflow.Node

/-!
# Graphs

A graph is a sequence of nodes that only grows: numbers are never reused, and every operand exists
before its user. Each node has the list of the operand edges that read it.
-/

namespace Dataflow

structure Graph where
  nodes : Array Node := #[]
  /-- The edges that read each node, in the order in which they were attached. -/
  uses : Array (Array Use) := #[]
  root : Option NodeId := none
  deriving DecidableEq, Repr, Inhabited

namespace Graph

def empty : Graph := {}

def size (g : Graph) : Nat :=
  g.nodes.size

def node (g : Graph) (id : NodeId) : Except Fault Node :=
  match g.nodes[id]? with
  | some n => .ok n
  | none => .error .noSuchNode

def typeOf? (g : Graph) (v : Value) : Option ValueType :=
  g.nodes[v.node]?.bind (·.results[v.slot]?)

def typeOf (g : Graph) (v : Value) : Except Fault ValueType :=
  match g.typeOf? v with
  | some t => .ok t
  | none => .error .noSuchResult

def operand (g : Graph) (id : NodeId) (i : Nat) : Except Fault Value := do
  match (← g.node id).operands[i]? with
  | some v => .ok v
  | none => .error .noSuchOperand

def usesOf (g : Graph) (id : NodeId) : Except Fault (Array Use) :=
  match g.uses[id]? with
  | some us => .ok us
  | none => .error .noSuchNode

/-- Attaches operand edge `i` of `user` to the value it reads. -/
def attach (uses : Array (Array Use)) (user : NodeId) (i : Nat) (v : Value) :
    Array (Array Use) :=
  uses.modify v.node (·.push ⟨user, i, v.slot⟩)

/-- Attaches the operand edges of `user` from operand `i` on. -/
def attachAll (uses : Array (Array Use)) (user : NodeId) (i : Nat) :
    List Value → Array (Array Use)
  | [] => uses
  | v :: vs => attachAll (attach uses user i v) user (i + 1) vs

/-- Every operand of `n` exists. -/
def admits (g : Graph) (n : Node) : Bool :=
  n.operands.all fun v => (g.typeOf? v).isSome

/-- Appends a node and attaches its operand edges. -/
def push (g : Graph) (n : Node) : Graph :=
  let id := g.size
  { g with
    nodes := g.nodes.push n
    uses := (attachAll g.uses id 0 n.operands).push #[] }

/-- Appends a node whose operands exist. -/
def add (g : Graph) (n : Node) : Except Fault (NodeId × Graph) :=
  if g.admits n then .ok (g.size, g.push n) else .error .noSuchResult

/-- Detaches and returns the edges that read `v`. -/
def takeUses (g : Graph) (v : Value) : Except Fault (Array Use × Graph) := do
  let uses ← g.usesOf v.node
  let kept := uses.filter (·.slot ≠ v.slot)
  return (uses.filter (·.slot = v.slot), { g with uses := g.uses.setIfInBounds v.node kept })

/-- Attaches an edge of an existing user to `v`. -/
def addUse (g : Graph) (v : Value) (user : NodeId) (operand : Nat) : Except Fault Graph :=
  if v.node < g.uses.size then .ok { g with uses := attach g.uses user operand v }
  else .error .noSuchNode

/-- Moves the edges that read `v` to `w`, and returns them as they were. -/
def moveUses (g : Graph) (v w : Value) : Array Use × Graph :=
  let uses := g.uses[v.node]?.getD #[]
  let taken := uses.filter (·.slot = v.slot)
  let rest := g.uses.setIfInBounds v.node (uses.filter (·.slot ≠ v.slot))
  (taken, { g with uses := taken.foldl (fun us u => attach us u.user u.operand w) rest })

def setRoot (g : Graph) (id : NodeId) : Graph :=
  { g with root := some id }

/-! ### Growth -/

/-- `h` is `g` with further nodes, each of which reads nodes that were there before it. -/
inductive Extends (g : Graph) : Graph → Prop
  | refl : Extends g g
  | push {h : Graph} {n : Node} : Extends g h → h.admits n → Extends g (h.push n)

theorem Extends.trans {g h k : Graph} (hgh : g.Extends h) (hhk : h.Extends k) : g.Extends k := by
  induction hhk with
  | refl => exact hgh
  | push _ hn ih => exact .push ih hn

end Graph

end Dataflow
