import Dataflow.Target

/-!
# Actions

How a value of an illegal type is made legal. A target only tells promotion from expansion; the
shape of the type decides which expansion it is.
-/

namespace Dataflow.Legal

inductive Action where
  | legal
  /-- Carried in a wider integer. -/
  | promoteInteger
  /-- Split into a low and a high integer of half the width. -/
  | expandInteger
  /-- Carried as the integer of the same width. -/
  | promoteFloat
  /-- Split into two narrower floats. -/
  | expandFloat
  /-- A vector of one lane replaced by it. -/
  | scalarize
  /-- Split into two vectors of half the length. -/
  | split
  deriving DecidableEq, Repr, Inhabited

namespace Action

def all : List Action :=
  [legal, promoteInteger, expandInteger, promoteFloat, expandFloat, scalarize, split]

def name : Action → String
  | legal => "legal"
  | promoteInteger => "promote-integer"
  | expandInteger => "expand-integer"
  | promoteFloat => "promote-float"
  | expandFloat => "expand-float"
  | scalarize => "scalarize"
  | split => "split"

instance : ToString Action := ⟨name⟩

def ofName? (s : String) : Option Action :=
  all.find? (·.name == s)

end Action

/-- The action for type `t` on a target that answers `a` for it and transforms types by
`transform`. -/
def refine (transform : ValueType → ValueType) (a : TypeAction) (t : ValueType) : Action :=
  match a with
  | .legal => .legal
  | .promote => .promoteInteger
  | .expand =>
    if t.isVector then (if t.lanes = 1 then .scalarize else .split)
    else if t.isInt then .expandInteger
    else if (transform t).bits = t.bits then .promoteFloat
    else .expandFloat

end Legal

/-- The action of a target for a type. -/
def Target.classify (T : Target) (t : ValueType) : Legal.Action :=
  Legal.refine T.transform (T.action t) t

end Dataflow
