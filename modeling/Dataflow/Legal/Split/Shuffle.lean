import Dataflow.Legal.Split.Lanes

/-!
# Vectors in two halves: shuffles

The two inputs of a shuffle of split vectors are four quarters. A result that reads at most two of
them stays a shuffle; any other is built lane by lane.
-/

namespace Dataflow.Legal.Split

open Edit

/-- The halves of both inputs of a shuffle, in lane order. -/
structure Quarters where
  aLo : Value
  aHi : Value
  bLo : Value
  bHi : Value
  deriving DecidableEq, Repr, Inhabited

def Quarters.get (q : Quarters) : Nat → Value
  | 0 => q.aLo
  | 1 => q.aHi
  | 2 => q.bLo
  | _ => q.bHi

/-- The selector of a shuffle and the halves of its inputs. -/
def quartersOf (id : NodeId) (a b : Value) : Edit (List (Option Nat) × Quarters) := do
  let some mask := (← node id).mask? | obstacle id .shuffleWithoutMask
  let (aLo, aHi) ← vectorHalves a
  let (bLo, bHi) ← vectorHalves b
  let lanes := (← typeOf aLo).lanes
  if mask.any fun lane => lane.any (4 * lanes ≤ ·) then obstacle id .shuffleMaskOutOfRange
  return (mask, ⟨aLo, aHi, bLo, bHi⟩)

/-- The quarters of `lanes` lanes that a selector reads, in the order in which it reads them. -/
def quartersRead (lanes : Nat) (mask : List (Option Nat)) : List Nat :=
  ((mask.filterMap id).map (· / lanes)).eraseDups

/-- A selector into two quarters, the first of which is `first`. -/
def renumbered (lanes first : Nat) (mask : List (Option Nat)) : List (Option Nat) :=
  mask.map fun lane => lane.map fun l => (if l / lanes = first then 0 else lanes) + l % lanes

/-- The vector of type `t` whose lanes are those of the joined quarters that `mask` names. -/
def selectLanes (T : Target) (q : Quarters) (mask : List (Option Nat)) (t : ValueType) :
    Edit Value := do
  let lanes := (← typeOf q.aLo).lanes
  match quartersRead lanes mask with
  | [] => undef t
  | [first] => shuffle (q.get first) (q.get first) (renumbered lanes first mask) t
  | [first, second] => shuffle (q.get first) (q.get second) (renumbered lanes first mask) t
  | _ =>
    let elements ← mask.mapM fun
      | some lane => extractLane T (q.get (lane / lanes)) (lane % lanes)
      | none => undef t.scalar
    buildVector elements t

def ofShuffle (T : Target) (id : NodeId) (slot : Nat) : Edit (Value × Value) := do
  let t ← resultType id slot
  let half := T.transform t
  let a ← operand id 0
  let b ← operand id 1
  if (← typeOf a) ≠ t then obstacle id .shuffleInputsNotResult
  if (← typeOf b) ≠ t then obstacle id .shuffleInputsNotResult
  let (mask, quarters) ← quartersOf id a b
  if mask.length ≠ 2 * half.lanes then obstacle id .shuffleMaskLength
  let lo ← selectLanes T quarters (mask.take half.lanes) half
  let hi ← selectLanes T quarters (mask.drop half.lanes) half
  return (lo, hi)

/-- A legal result that selects lanes of split inputs. -/
def inShuffle (T : Target) (id : NodeId) : Edit Value := do
  let t ← resultType id 0
  let a ← operand id 0
  let b ← operand id 1
  if (← typeOf a) ≠ (← typeOf b) then obstacle id .shuffleInputsDiffer
  let (mask, quarters) ← quartersOf id a b
  if mask.length ≠ t.lanes then obstacle id .shuffleMaskLength
  selectLanes T quarters mask t

end Dataflow.Legal.Split
