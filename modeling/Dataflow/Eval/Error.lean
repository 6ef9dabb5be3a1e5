import Dataflow.Fault
import Dataflow.Opcode
import Dataflow.ValueType

/-!
# Errors of evaluation
-/

namespace Dataflow

inductive EvalError where
  | noRoot
  | missingArgument (index : Nat)
  | unsupported (opcode : Opcode) (type : ValueType)
  | indexOutOfRange (index : Nat) (type : ValueType)
  | unevaluated (node : Nat)
  | missingOperand (node operand : Nat)
  | fault (f : Fault)
  deriving DecidableEq, Repr, Inhabited

namespace EvalError

def message : EvalError → String
  | noRoot => "graph has no root"
  | missingArgument index => s!"argument {index} was not supplied"
  | unsupported opcode type => s!"cannot evaluate {opcode} producing {type}"
  | indexOutOfRange index type => s!"lane index {index} out of range for {type}"
  | unevaluated node => s!"node t{node} referenced before it was evaluated"
  | missingOperand node operand => s!"node t{node} has no operand {operand}"
  | fault _ => "malformed graph"

instance : MonadLift (Except Fault) (Except EvalError) := ⟨Except.mapError fault⟩

end EvalError

end Dataflow
