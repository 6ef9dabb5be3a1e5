/-!
# Value types

The closed set of types that a result of a node may carry: integers, floats, and short vectors of
them. `ppcf128` is a double-double, two `f64` halves whose sum is the value.
-/

namespace Dataflow

inductive ValueType where
  | i1 | i8 | i16 | i32 | i64 | i128
  | f32 | f64 | ppcf128
  | v1i32 | v2i32 | v4i32 | v8i32
  | v1i64 | v2i64
  | v1f32 | v2f32 | v4f32 | v8f32
  | v1f64 | v2f64
  | v2i16 | v4i16 | v8i16
  | v4i8 | v8i8 | v16i8
  | v1i16 | v1i8 | v2i8
  deriving DecidableEq, Repr, Inhabited

namespace ValueType

/-- Every type, in the order of the numbering. -/
def all : List ValueType :=
  [i1, i8, i16, i32, i64, i128, f32, f64, ppcf128, v1i32, v2i32, v4i32, v8i32, v1i64, v2i64,
    v1f32, v2f32, v4f32, v8f32, v1f64, v2f64, v2i16, v4i16, v8i16, v4i8, v8i8, v16i8, v1i16,
    v1i8, v2i8]

theorem mem_all (t : ValueType) : t ∈ all := by cases t <;> decide

/-- Position of a type in the numbering. -/
def index (t : ValueType) : Nat :=
  all.idxOf t

def name : ValueType → String
  | i1 => "i1" | i8 => "i8" | i16 => "i16" | i32 => "i32" | i64 => "i64" | i128 => "i128"
  | f32 => "f32" | f64 => "f64" | ppcf128 => "ppcf128"
  | v1i32 => "v1i32" | v2i32 => "v2i32" | v4i32 => "v4i32" | v8i32 => "v8i32"
  | v1i64 => "v1i64" | v2i64 => "v2i64"
  | v1f32 => "v1f32" | v2f32 => "v2f32" | v4f32 => "v4f32" | v8f32 => "v8f32"
  | v1f64 => "v1f64" | v2f64 => "v2f64"
  | v2i16 => "v2i16" | v4i16 => "v4i16" | v8i16 => "v8i16"
  | v4i8 => "v4i8" | v8i8 => "v8i8" | v16i8 => "v16i8"
  | v1i16 => "v1i16" | v1i8 => "v1i8" | v2i8 => "v2i8"

def ofName? (s : String) : Option ValueType :=
  all.find? (·.name == s)

instance : ToString ValueType := ⟨name⟩

/-- Number of lanes of a vector, 0 for scalars. -/
def lanes : ValueType → Nat
  | v1i32 | v1i64 | v1f32 | v1f64 | v1i16 | v1i8 => 1
  | v2i32 | v2i64 | v2f32 | v2f64 | v2i16 | v2i8 => 2
  | v4i32 | v4f32 | v4i16 | v4i8 => 4
  | v8i32 | v8f32 | v8i16 | v8i8 => 8
  | v16i8 => 16
  | _ => 0

/-- Lane type of a vector. -/
def lane? : ValueType → Option ValueType
  | v1i32 | v2i32 | v4i32 | v8i32 => some i32
  | v1i64 | v2i64 => some i64
  | v1f32 | v2f32 | v4f32 | v8f32 => some f32
  | v1f64 | v2f64 => some f64
  | v1i16 | v2i16 | v4i16 | v8i16 => some i16
  | v1i8 | v2i8 | v4i8 | v8i8 | v16i8 => some i8
  | _ => none

def isVector (t : ValueType) : Bool :=
  t.lanes != 0

/-- The lane type of a vector, a scalar itself. -/
def scalar (t : ValueType) : ValueType :=
  t.lane?.getD t

/-- Number of lanes of the data of a type: a scalar has one. -/
def laneCount (t : ValueType) : Nat :=
  max t.lanes 1

/-- Scalar integers and vectors of them. -/
def isInt (t : ValueType) : Bool :=
  match t.scalar with
  | i1 | i8 | i16 | i32 | i64 | i128 => true
  | _ => false

/-- Scalar floats and vectors of them. -/
def isFloat (t : ValueType) : Bool :=
  match t.scalar with
  | f32 | f64 | ppcf128 => true
  | _ => false

/-- Width of a scalar type. -/
def scalarBits : ValueType → Nat
  | i1 => 1
  | i8 => 8
  | i16 => 16
  | i32 | f32 => 32
  | i64 | f64 => 64
  | i128 | ppcf128 => 128
  | _ => 0

/-- Width of one lane, of the whole value for scalars. -/
def laneBits (t : ValueType) : Nat :=
  t.scalar.scalarBits

/-- Width of the whole value. -/
def bits (t : ValueType) : Nat :=
  t.laneBits * t.laneCount

/-- The scalar integer of exactly `n` bits. -/
def int? (n : Nat) : Option ValueType :=
  match n with
  | 1 => some i1
  | 8 => some i8
  | 16 => some i16
  | 32 => some i32
  | 64 => some i64
  | 128 => some i128
  | _ => none

/-- The vector of `n` lanes of `elem`. -/
def vector? (elem : ValueType) (n : Nat) : Option ValueType :=
  all.find? fun t => t.lane? == some elem && t.lanes == n

/-- The vector of the same lane type with half as many lanes. -/
def half? (t : ValueType) : Option ValueType :=
  match t.lane? with
  | none => none
  | some elem => if t.lanes < 2 then none else vector? elem (t.lanes / 2)

/-- The scalar integer as wide as the whole value. -/
def sameWidthInt? (t : ValueType) : Option ValueType :=
  int? t.bits

end ValueType

end Dataflow
