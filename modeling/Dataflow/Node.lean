import Dataflow.Condition
import Dataflow.ValueType

/-!
# Nodes

A node is one operation: an opcode, its operands in order, the types of the values it produces,
and immediate data. Nodes never change; a changed operation is a new node.
-/

namespace Dataflow

/-- Nodes are numbered in the order in which they are added. -/
abbrev NodeId := Nat

/-- One result of a node: what every edge points at. -/
structure Value where
  node : Nat
  slot : Nat := 0
  deriving DecidableEq, Repr, Inhabited

namespace Value

/-- By node, then by slot. -/
instance : Ord Value := ⟨fun a b => (compare a.node b.node).then (compare a.slot b.slot)⟩

theorem compare_def (a b : Value) :
    compare a b = (compare a.node b.node).then (compare a.slot b.slot) := rfl

theorem compare_eq_iff {a b : Value} : compare a b = .eq ↔ a = b := by
  rw [compare_def, Ordering.then_eq_eq, Nat.compare_eq_eq, Nat.compare_eq_eq]
  exact ⟨fun ⟨hn, hs⟩ => by cases a; cases b; simp_all, fun h => h ▸ ⟨rfl, rfl⟩⟩

instance : Std.TransOrd Value where
  eq_swap {a b} := by
    rw [compare_def, compare_def, Ordering.swap_then, ← Std.OrientedCmp.eq_swap,
      ← Std.OrientedCmp.eq_swap]
  isLE_trans {a b c} hab hbc := by
    simp only [compare_def, Ordering.isLE_then_iff_or, Nat.compare_eq_lt, Nat.compare_eq_eq,
      Nat.isLE_compare] at *
    omega

instance : Std.LawfulEqOrd Value where
  compare_self := compare_eq_iff.2 rfl
  eq_of_compare := compare_eq_iff.1

/-- `t3` is the first result of node 3 and `t3:1` its second. -/
def text (v : Value) : String :=
  if v.slot = 0 then s!"t{v.node}" else s!"t{v.node}:{v.slot}"

instance : ToString Value := ⟨text⟩

end Value

/-- One operand edge, seen from the node it reads: operand `operand` of `user` reads result
`slot`. -/
structure Use where
  user : Nat
  operand : Nat
  slot : Nat
  deriving DecidableEq, Repr, Inhabited

/-- Immediate data of a node. -/
inductive Attr where
  | none
  /-- The bits of a constant. -/
  | imm (bits : Nat)
  | cond (c : Condition)
  /-- Lane `i` of a shuffle reads lane `lanes[i]` of the joined inputs; `none` is undefined. -/
  | mask (lanes : List (Option Nat))
  /-- The bits of argument `index` from `offset` on. -/
  | arg (index offset : Nat)
  /-- The meaningful low bits of each operand of an output. -/
  | widths (widths : List Nat)
  deriving DecidableEq, Repr, Inhabited

structure Node where
  opcode : Opcode
  operands : List Value := []
  results : List ValueType := []
  attr : Attr := .none
  deriving DecidableEq, Repr, Inhabited

namespace Node

/-- The type of the first result. -/
def resultType? (n : Node) : Option ValueType :=
  n.results.head?

def imm? (n : Node) : Option Nat :=
  match n.attr with
  | .imm bits => some bits
  | _ => none

def cond? (n : Node) : Option Condition :=
  match n.attr with
  | .cond c => some c
  | _ => none

def mask? (n : Node) : Option (List (Option Nat)) :=
  match n.attr with
  | .mask lanes => some lanes
  | _ => none

def arg? (n : Node) : Option (Nat × Nat) :=
  match n.attr with
  | .arg index offset => some (index, offset)
  | _ => none

def widths? (n : Node) : Option (List Nat) :=
  match n.attr with
  | .widths widths => some widths
  | _ => none

end Node

end Dataflow
