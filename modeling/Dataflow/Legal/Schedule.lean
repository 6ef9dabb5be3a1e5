import Dataflow.Node
import Std.Data.TreeMap

/-!
# Scheduling states

A node is pending while some of its operand edges read nodes that are not processed, and ready when
the last of them is.
-/

namespace Dataflow.Legal

inductive NodeState where
  /-- Every operand is processed. -/
  | ready
  /-- Created and not yet looked at. -/
  | new
  /-- Its results are legal or have recorded parts. -/
  | processed
  /-- So many operand edges read unprocessed nodes. -/
  | pending (count : Nat)
  deriving DecidableEq, Repr, Inhabited

namespace NodeState

def text : NodeState → String
  | ready => "ready"
  | new => "new"
  | processed => "processed"
  | pending count => s!"pending({count})"

instance : ToString NodeState := ⟨text⟩

/-- The state of a node with `count` unprocessed operand edges. -/
def ofPending (count : Nat) : NodeState :=
  if count = 0 then ready else pending count

end NodeState

/-- What was expected of the state of a node. -/
inductive Expectation where
  | ready
  | pendingUser
  | pendingOrNewUser
  deriving DecidableEq, Repr, Inhabited

def Expectation.text : Expectation → String
  | ready => "ready"
  | pendingUser => "a pending user"
  | pendingOrNewUser => "a pending or new user"

/-- The state of every node; the default is `new`. -/
structure States where
  table : Std.TreeMap NodeId NodeState := ∅
  deriving Inhabited

namespace States

def get (s : States) (id : NodeId) : NodeState :=
  s.table[id]?.getD .new

def set (s : States) (id : NodeId) (state : NodeState) : States :=
  ⟨s.table.insert id state⟩

def isProcessed (s : States) (id : NodeId) : Bool :=
  s.get id = .processed

/-- Sets the state of a node with `count` unprocessed operand edges, and tells whether it is
ready. -/
def setPending (s : States) (id : NodeId) (count : Nat) : Bool × States :=
  (count = 0, s.set id (.ofPending count))

/-- What an edge that now reads a processed node does to its user. -/
inductive Resolved where
  /-- The user is ready or not. -/
  | ok (ready : Bool) (states : States)
  /-- The user does not wait for an edge. -/
  | unexpected (state : NodeState)
  /-- The user waits for no edge although it is pending. -/
  | underflow

/-- One operand edge of `id` now reads a processed node. New nodes count their edges later. -/
def resolveOperand (s : States) (id : NodeId) : Resolved :=
  match s.get id with
  | .new => .ok false s
  | .pending 0 => .underflow
  | .pending (count + 1) => let (ready, s) := s.setPending id count; .ok ready s
  | state => .unexpected state

end States

end Dataflow.Legal
