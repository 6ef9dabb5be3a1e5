import Dataflow.Legal.Edit

/-!
# Outputs of converted values

An output that observes a value observes its parts instead. The width of the value is handed out
to the parts in order, each taking at most its own size.
-/

namespace Dataflow.Legal

/-- The shares of `width` that parts of the given sizes take. -/
def shares (width : Nat) : List Nat → List Nat
  | [] => []
  | size :: sizes => min width size :: shares (width - min width size) sizes

/-- The operands and widths of an output whose operand `i` becomes `parts`. -/
def observeParts (i : Nat) (parts : List (Value × Nat)) (observed : List (Value × Nat)) :
    List (Value × Nat) :=
  (observed.mapIdx fun k (v, width) =>
    if k = i then (parts.map (·.1)).zip (shares width (parts.map (·.2))) else [(v, width)]).flatten

namespace Edit

/-- A copy of output `id` that observes `parts` in place of operand `i`. -/
def outputOf (id : NodeId) (i : Nat) (parts : List Value) : Edit Successor := do
  let widths := (← node id).widths?.getD []
  let observed ← (← operands id).zipIdx.mapM fun (v, k) => do
    match widths[k]? with
    | some width => return (v, width)
    | none => return (v, (← typeOf v).bits)
  let sized ← parts.mapM fun v => return (v, (← typeOf v).bits)
  let observed := observeParts i sized observed
  return .node (← add ⟨.output, observed.map (·.1), [], .widths (observed.map (·.2))⟩)

end Edit

end Dataflow.Legal
