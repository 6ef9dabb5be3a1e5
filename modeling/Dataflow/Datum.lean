import Dataflow.Fault
import Dataflow.ValueType

/-!
# Data

What a value is at run time: the bits of a scalar, or one entry per lane. Floats are carried as
their bit patterns; a `ppcf128` has its low `f64` in bits 0 to 63 and its high one above.
-/

namespace Dataflow

inductive Datum where
  | scalar (bits : Nat)
  | vector (lanes : List Nat)
  deriving DecidableEq, Repr, Inhabited

namespace Datum

def lanes : Datum → List Nat
  | scalar bits => [bits]
  | vector lanes => lanes

/-- A datum of type `t`; a scalar takes the first lane. -/
def ofLanes (t : ValueType) (lanes : List Nat) : Except Fault Datum :=
  if t.isVector then .ok (vector lanes)
  else match lanes with
    | bits :: _ => .ok (scalar bits)
    | [] => .error .noSuchLane

/-- The bits of a scalar, or the first lane. -/
def first (d : Datum) : Except Fault Nat :=
  match d.lanes with
  | bits :: _ => .ok bits
  | [] => .error .noSuchLane

end Datum

end Dataflow
