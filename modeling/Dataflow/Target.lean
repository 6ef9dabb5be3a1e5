import Dataflow.ValueType

/-!
# Targets

What a machine can hold in registers: for each type whether it is legal, promoted or expanded, and
to which type.
-/

namespace Dataflow

/-- What a target does with a type. -/
inductive TypeAction where
  | legal | promote | expand
  deriving DecidableEq, Repr, Inhabited

namespace TypeAction

def all : List TypeAction :=
  [legal, promote, expand]

def name : TypeAction → String
  | legal => "legal"
  | promote => "promote"
  | expand => "expand"

def ofName? (s : String) : Option TypeAction :=
  all.find? (·.name == s)

end TypeAction

/-- An action per type, `legal` unless set. -/
structure TypeActions where
  get : ValueType → TypeAction := fun _ => .legal
  deriving Inhabited

def TypeActions.set (a : TypeActions) (t : ValueType) (x : TypeAction) : TypeActions :=
  ⟨fun u => if u = t then x else a.get u⟩

/-- The answers of a target. -/
structure Target where
  name : String
  action : ValueType → TypeAction
  /-- The wider type of a promoted one, the type of each part of an expanded one, the lane type of
  a vector of one lane, and a legal type itself. -/
  transform : ValueType → ValueType
  /-- The type of the result of a comparison of two values of a type. -/
  compareType : ValueType → ValueType
  /-- The type of constant lane indices. -/
  indexType : ValueType
  deriving Inhabited

end Dataflow
