import Dataflow.Graph

/-!
# The live part of a graph

`Graph.live` copies the nodes that a root needs into a fresh graph. Every operand is first passed
through a function that gives its canonical form, and canonical edges may point at nodes that were
created after their user, so the copy is laid out in post-order: operands come before their users,
the first operand first.
-/

namespace Dataflow.Graph

/-- A pending action of the walk: look at a node, or emit it once its operands are out. -/
inductive Visit where
  | enter (id : NodeId)
  | leave (id : NodeId)
  deriving DecidableEq, Repr, Inhabited

/-- A walk in progress. -/
structure Walk where
  /-- What is left to do, the next action first. -/
  stack : List Visit
  /-- The canonical operands of every node that was entered. -/
  entered : Array (Option (List Value))
  /-- The nodes emitted so far, the last one first. -/
  order : List NodeId := []
  deriving Repr, Inhabited

namespace Walk

def isEntered (w : Walk) (id : NodeId) : Bool :=
  (w.entered[id]?.join).isSome

/-- Does one action. -/
def step (g : Graph) (canonical : Value → Except Fault Value) (w : Walk) : Except Fault Walk :=
  match w.stack with
  | [] => .ok w
  | .leave id :: stack => .ok { w with stack, order := id :: w.order }
  | .enter id :: stack =>
    if w.isEntered id then .ok { w with stack }
    else do
      let operands ← (← g.node id).operands.mapM canonical
      let fresh := operands.filter fun v => !w.isEntered v.node
      return { w with
        stack := fresh.map (.enter ·.node) ++ .leave id :: stack
        entered := w.entered.setIfInBounds id (some operands) }

/-- Does at most `fuel` actions, as long as there are any. -/
def run (g : Graph) (canonical : Value → Except Fault Value) :
    Nat → Walk → Except Fault Walk
  | 0, w => .ok w
  | fuel + 1, w => if w.stack.isEmpty then .ok w else do run g canonical fuel (← w.step g canonical)

end Walk

/-- Number of operand edges. -/
def edges (g : Graph) : Nat :=
  g.nodes.foldl (fun k n => k + n.operands.length) 0

/-- The walk from `root` to its end: every node is entered and left at most once, and an edge asks
for at most one more entry. -/
def walk (g : Graph) (canonical : Value → Except Fault Value) (root : NodeId) :
    Except Fault Walk :=
  Walk.run g canonical (2 * g.size + g.edges + 2)
    { stack := [.enter root], entered := Array.replicate g.size none }

/-- A copy in progress: the graph so far and the new number of every copied node. -/
structure Copy where
  graph : Graph := {}
  renamed : Array (Option NodeId)
  deriving Inhabited

namespace Copy

/-- A value of the source, in the copy. -/
def value (c : Copy) (v : Value) : Except Fault Value :=
  match c.renamed[v.node]?.join with
  | some id => .ok ⟨id, v.slot⟩
  | none => .error .cyclic

/-- Copies node `id` with the given operands of the source. -/
def node (c : Copy) (g : Graph) (id : NodeId) (operands : List Value) : Except Fault Copy := do
  let n ← g.node id
  let operands ← operands.mapM c.value
  let ⟨graph, renamed⟩ := c
  let (new, graph) ← graph.add { n with operands }
  return ⟨graph, renamed.setIfInBounds id (some new)⟩

end Copy

/-- The nodes that `root` reaches along canonical edges, in post-order. -/
def live (g : Graph) (canonical : Value → Except Fault Value) (root : NodeId) :
    Except Fault Graph := do
  let w ← g.walk canonical root
  let c ← w.order.reverse.foldlM
    (fun (c : Copy) id => c.node g id ((w.entered[id]?.join).getD []))
    { renamed := Array.replicate g.size none }
  return c.graph.setRoot (← c.value ⟨root, 0⟩).node

end Dataflow.Graph
