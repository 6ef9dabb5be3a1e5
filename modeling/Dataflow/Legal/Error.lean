import Dataflow.Legal.Action
import Dataflow.Legal.Conversion
import Dataflow.Legal.Schedule

/-!
# Errors of legalization
-/

namespace Dataflow.Legal

/-- Why a rule cannot convert a node. -/
inductive Obstacle where
  | argumentWithoutIndex
  | constantWithoutImmediate
  | setccWithoutPredicate
  | valueForManyResults
  | promoteSelectArm
  | promoteVector
  | promoteExtractVector
  | pairResultWithoutInteger
  | bitcastResultWithoutIntegerHalves
  | bitcastSourceNotLaneOrSplit
  | shiftAmountPartsDiffer
  | promotedShiftAmountWide
  | shiftAmountWide
  | notAShift
  | bitcastPartsDiffer
  | bitcastSourceUnsplittable
  | noVectorOfHalfLanes
  | expandSelectArm
  | bitcastResultNotFromParts
  | copysignWidthsDiffer
  | noIntegerVector
  | roundBelowPart
  | scalarizeExtractIndex
  | lanewiseSelect
  | elementCount
  | concatInputs
  | insertVariableIndex
  | insertIndexOutOfRange
  | shuffleInputsNotResult
  | shuffleInputsDiffer
  | shuffleWithoutMask
  | shuffleMaskOutOfRange
  | shuffleMaskLength
  | pairHalvesDiffer
  | bitcastSourceHalvesDiffer
  | bitcastSourceWithoutHalf
  | bitcastSourceWithoutIntegerHalves
  | splitExtractIndex
  | extractVariableIndex
  | extractIndexOutOfRange
  | bitcastResultWithoutHalf
  deriving DecidableEq, Repr, Inhabited

def Obstacle.text : Obstacle → String
  | argumentWithoutIndex => "argument without an index"
  | constantWithoutImmediate => "constant without an immediate"
  | setccWithoutPredicate => "setcc without a predicate"
  | valueForManyResults => "a value rewrite needs a single-result node"
  | promoteSelectArm => "only the condition of a legal select can be promoted"
  | promoteVector => "a legal vector cannot be promoted"
  | promoteExtractVector => "only the index of an extract can be promoted"
  | pairResultWithoutInteger => "pair result has no integer of its width"
  | bitcastResultWithoutIntegerHalves => "bitcast result has no integer halves"
  | bitcastSourceNotLaneOrSplit => "bitcast source is neither scalarized nor split"
  | shiftAmountPartsDiffer => "shift amount parts differ from the value parts"
  | promotedShiftAmountWide => "promoted shift amount is wider than the parts"
  | shiftAmountWide => "shift amount is wider than the parts"
  | notAShift => "not a shift"
  | bitcastPartsDiffer => "bitcast parts differ in width"
  | bitcastSourceUnsplittable => "bitcast source cannot be split"
  | noVectorOfHalfLanes => "no vector of the expanded lane type"
  | expandSelectArm => "only the condition of a legal select can be expanded"
  | bitcastResultNotFromParts => "bitcast result cannot be built from the parts"
  | copysignWidthsDiffer => "copysign operands of different widths"
  | noIntegerVector => "no integer vector of the same lane width"
  | roundBelowPart => "rounding below the part type"
  | scalarizeExtractIndex => "extract index cannot be scalarized"
  | lanewiseSelect => "lane-wise select conditions are not split"
  | elementCount => "element count differs from the lane count"
  | concatInputs => "concatenated inputs are not the split halves"
  | insertVariableIndex => "insert at a variable index"
  | insertIndexOutOfRange => "insert index out of range"
  | shuffleInputsNotResult => "shuffle inputs differ from the result type"
  | shuffleInputsDiffer => "shuffle inputs differ in type"
  | shuffleWithoutMask => "shuffle without a mask"
  | shuffleMaskOutOfRange => "shuffle mask reads past its inputs"
  | shuffleMaskLength => "shuffle mask length differs from the result"
  | pairHalvesDiffer => "pair halves differ from the split halves"
  | bitcastSourceHalvesDiffer => "bitcast source halves differ in width"
  | bitcastSourceWithoutHalf => "bitcast source has no half vector"
  | bitcastSourceWithoutIntegerHalves => "bitcast source has no integer halves"
  | splitExtractIndex => "extract index cannot be split"
  | extractVariableIndex => "extract at a variable index"
  | extractIndexOutOfRange => "extract index out of range"
  | bitcastResultWithoutHalf => "bitcast result has no half vector"

inductive Error where
  /-- No rule converts the result of such a node. -/
  | noResultRule (action : Action) (opcode : Opcode) (node : NodeId)
  /-- No rule takes such an operand. -/
  | noOperandRule (action : Action) (opcode : Opcode) (node : NodeId) (operand : Nat)
  | conversion (e : ConversionError)
  | unsupportedType (type : ValueType) (action : Action)
  | invalidState (node : NodeId) (state : NodeState) (expected : Expectation)
  | unprocessed (node : NodeId)
  | illegalType (node : NodeId) (opcode : Opcode) (type : ValueType)
  | noRoot
  | unsupported (opcode : Opcode) (node : NodeId) (obstacle : Obstacle)
  | fault (f : Fault)
  /-- The bound on the number of visits was reached. -/
  | exhausted
  deriving DecidableEq, Repr, Inhabited

def Error.message : Error → String
  | noResultRule action opcode node =>
    s!"no {action} handler for the result of {opcode} (t{node})"
  | noOperandRule action opcode node operand =>
    s!"no {action} handler for operand {operand} of {opcode} (t{node})"
  | conversion e => e.message
  | unsupportedType type action => s!"type {type} is not handled by {action}"
  | invalidState node state expected => s!"t{node} is {state}, expected " ++ expected.text
  | unprocessed node => s!"t{node} is reachable from the root but was never processed"
  | illegalType node opcode type => s!"t{node} ({opcode}) still produces illegal type {type}"
  | noRoot => "graph has no root"
  | unsupported opcode node obstacle => s!"cannot legalize {opcode} (t{node}): " ++ obstacle.text
  | fault _ => "malformed graph"
  | exhausted => "too many visits"

end Dataflow.Legal
