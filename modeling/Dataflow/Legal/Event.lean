import Dataflow.Legal.Action
import Dataflow.Legal.Conversion

/-!
# Events

What a run reports while it goes on, at one of three levels of detail.
-/

namespace Dataflow.Legal

inductive Level where
  | info | debug | trace
  deriving DecidableEq, Repr, Inhabited

def Level.name : Level → String
  | info => "info"
  | debug => "debug"
  | trace => "trace"

inductive Event where
  | queued (node : NodeId)
  | created (node : NodeId) (opcode : Opcode)
  | recorded (v : Value) (c : Conversion)
  | replaced (v w : Value) (uses stale : Nat)
  | rootMoved (old new : NodeId)
  | result (node : NodeId) (opcode : Opcode) (type : ValueType) (action : Action)
  | operand (node : NodeId) (opcode : Opcode) (index : Nat) (type : ValueType) (action : Action)
  /-- The text of the graph before the run. -/
  | before (graph : String)
  /-- The text of the graph after the run. -/
  | after (graph : String)
  | finished (target : String) (visited created live : Nat)
  deriving Repr, Inhabited

namespace Event

def level : Event → Level
  | queued .. | created .. | recorded .. | replaced .. | rootMoved .. => .trace
  | result .. | operand .. | before .. | after .. => .debug
  | finished .. => .info

/-- What happened, then its fields. -/
def message : Event → String
  | queued node => s!"worklist push node={node}"
  | created node opcode => s!"created node={node} opcode={opcode}"
  | recorded v ⟨kind, .one w⟩ => s!"recorded value={v} substitute={w} kind={kind}"
  | recorded v ⟨kind, .two lo hi⟩ => s!"recorded value={v} lo={lo} hi={hi} kind={kind}"
  | replaced v w uses stale => s!"replace value from={v} to={w} uses={uses} stale={stale}"
  | rootMoved old new => s!"root moved from={old} to={new}"
  | result node opcode type action =>
    s!"legalize result node={node} opcode={opcode} vt={type} action={action}"
  | operand node opcode index type action =>
    s!"legalize operand node={node} opcode={opcode} operand={index} vt={type} action={action}"
  | before graph => "before type legalization:\n" ++ graph
  | after graph => "after type legalization:\n" ++ graph
  | finished target visited made live =>
    s!"type legalization finished target_name={target} visited={visited} created={made} " ++
      s!"live={live}"

def text (e : Event) : String :=
  e.level.name ++ ": " ++ e.message

end Event

end Dataflow.Legal
