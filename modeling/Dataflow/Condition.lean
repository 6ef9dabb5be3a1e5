import Dataflow.Word

/-!
# Comparison predicates
-/

namespace Dataflow

inductive Condition where
  | eq | ne | ult | ule | ugt | uge | slt | sle | sgt | sge
  deriving DecidableEq, Repr, Inhabited

namespace Condition

def all : List Condition :=
  [eq, ne, ult, ule, ugt, uge, slt, sle, sgt, sge]

def name : Condition → String
  | eq => "eq" | ne => "ne" | ult => "ult" | ule => "ule" | ugt => "ugt" | uge => "uge"
  | slt => "slt" | sle => "sle" | sgt => "sgt" | sge => "sge"

instance : ToString Condition := ⟨name⟩

def ofName? (s : String) : Option Condition :=
  all.find? (·.name == s)

def isSigned : Condition → Bool
  | slt | sle | sgt | sge => true
  | _ => false

def isEquality : Condition → Bool
  | eq | ne => true
  | _ => false

/-- The unsigned predicate with the same ordering. -/
def toUnsigned : Condition → Condition
  | slt => ult
  | sle => ule
  | sgt => ugt
  | sge => uge
  | c => c

/-- Compares two words; the signed predicates read them at width `n`, and have no reading at
width zero. -/
def holds (c : Condition) (n a b : Nat) : Except Fault Bool :=
  if c.isSigned ∧ n = 0 then .error .overflow
  else .ok <| match c with
    | eq => a == b
    | ne => a != b
    | ult => a < b
    | ule => a ≤ b
    | ugt => b < a
    | uge => b ≤ a
    | slt => Word.signed n a < Word.signed n b
    | sle => Word.signed n a ≤ Word.signed n b
    | sgt => Word.signed n b < Word.signed n a
    | sge => Word.signed n b ≤ Word.signed n a

end Condition

end Dataflow
