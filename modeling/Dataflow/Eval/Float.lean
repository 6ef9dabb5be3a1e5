import Dataflow.Opcode
import Dataflow.ValueType

/-!
# Floats as bit patterns

`f32` and `f64` are the binary formats of those widths, rounding to nearest even.
-/

namespace Dataflow.FloatBits

/-- The sign bits of a float lane; a double-double has one in each half. -/
def signMask : ValueType → Nat
  | .ppcf128 => 1 <<< 63 ||| 1 <<< 127
  | t => 1 <<< (t.bits - 1)

def apply32 (op : FloatOp) (x y : Float32) : Float32 :=
  match op with
  | .add => x + y
  | .sub => x - y
  | .mul => x * y

def apply64 (op : FloatOp) (x y : Float) : Float :=
  match op with
  | .add => x + y
  | .sub => x - y
  | .mul => x * y

/-- An operation on two lanes of type `t`, of the low bits of each word; only `f32` and `f64` have
arithmetic. -/
def binary? (op : FloatOp) (t : ValueType) (a b : Nat) : Option Nat :=
  match t with
  | .f32 => some (apply32 op (.ofBits (.ofNat a)) (.ofBits (.ofNat b))).toBits.toNat
  | .f64 => some (apply64 op (.ofBits (.ofNat a)) (.ofBits (.ofNat b))).toBits.toNat
  | _ => none

/-- The value of a double-double, rounded to one `f64`. -/
def roundDoubleDouble (a : Nat) : Nat :=
  let lo := Float.ofBits (.ofNat a)
  let hi := Float.ofBits (.ofNat (a >>> 64))
  (hi + lo).toBits.toNat

/-- An `f64` rounded to `f32`. -/
def roundDouble (a : Nat) : Nat :=
  (Float.ofBits (.ofNat a)).toFloat32.toBits.toNat

end Dataflow.FloatBits
