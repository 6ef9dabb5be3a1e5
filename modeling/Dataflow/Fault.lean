/-!
# Faults

Ways in which an operation can be asked for something that does not exist. A fault ends the whole
computation; it is kept apart from the errors that an operation reports about its input.
-/

namespace Dataflow

inductive Fault where
  /-- A node that is not in the graph. -/
  | noSuchNode
  /-- A result that its node does not have. -/
  | noSuchResult
  /-- An operand that its node does not have. -/
  | noSuchOperand
  /-- A lane of a value that has none. -/
  | noSuchLane
  /-- A vector type outside the closed set. -/
  | noSuchType
  /-- A width, offset or count that leaves its machine word. -/
  | overflow
  /-- A quotient by zero. -/
  | divisionByZero
  /-- Edges or redirections that run in a circle. -/
  | cyclic
  /-- A value replaced by another result of its own node. -/
  | selfReplacement
  /-- A promoted value whose type does not fit the value it stands for. -/
  | badPromotion
  deriving DecidableEq, Repr, Inhabited

end Dataflow
