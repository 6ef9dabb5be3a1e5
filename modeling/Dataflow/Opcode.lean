/-!
# Operations

What a node may compute. Integer operations apply lane by lane to integer vectors and float
operations to float vectors. Constants, predicates, shuffle selectors and argument positions are
attributes of the node.
-/

namespace Dataflow

/-- Binary operations on integers of one width. `mulhu` is the high half of the double-width
unsigned product. -/
inductive IntOp where
  | add | sub | mul | mulhu | udiv | sdiv | and | or | xor | shl | srl | sra
  deriving DecidableEq, Repr, Inhabited

/-- Rounding binary operations on floats. -/
inductive FloatOp where
  | add | sub | mul
  deriving DecidableEq, Repr, Inhabited

/-- Counts over the bits of an integer. -/
inductive BitCount where
  | ones | leadingZeros | trailingZeros
  deriving DecidableEq, Repr, Inhabited

inductive Opcode where
  /-- A slice of an incoming argument. -/
  | argument
  | constant
  | constantFp
  | undef
  | int (op : IntOp)
  | count (op : BitCount)
  | setcc
  /-- `select cond, ifTrue, ifFalse`. -/
  | select
  | zeroExtend
  | signExtend
  | anyExtend
  | truncate
  | bitcast
  /-- Joins `lo, hi` into a value of twice the width. -/
  | buildPair
  | fneg
  | fabs
  | fcopysign
  | float (op : FloatOp)
  | fpRound
  | buildVector
  /-- `extract_element vector, index`. -/
  | extractElement
  /-- `insert_element vector, element, index`. -/
  | insertElement
  | vectorShuffle
  | concatVectors
  /-- The observable values of the program. -/
  | output
  deriving DecidableEq, Repr, Inhabited

def IntOp.name : IntOp → String
  | add => "add" | sub => "sub" | mul => "mul" | mulhu => "mulhu" | udiv => "udiv"
  | sdiv => "sdiv" | and => "and" | or => "or" | xor => "xor" | shl => "shl" | srl => "srl"
  | sra => "sra"

def FloatOp.name : FloatOp → String
  | add => "fadd" | sub => "fsub" | mul => "fmul"

def BitCount.name : BitCount → String
  | ones => "ctpop" | leadingZeros => "ctlz" | trailingZeros => "cttz"

namespace Opcode

def name : Opcode → String
  | argument => "argument"
  | constant => "constant"
  | constantFp => "constant_fp"
  | undef => "undef"
  | int op => op.name
  | count op => op.name
  | setcc => "setcc"
  | select => "select"
  | zeroExtend => "zero_extend"
  | signExtend => "sign_extend"
  | anyExtend => "any_extend"
  | truncate => "truncate"
  | bitcast => "bitcast"
  | buildPair => "build_pair"
  | fneg => "fneg"
  | fabs => "fabs"
  | fcopysign => "fcopysign"
  | float op => op.name
  | fpRound => "fp_round"
  | buildVector => "build_vector"
  | extractElement => "extract_element"
  | insertElement => "insert_element"
  | vectorShuffle => "vector_shuffle"
  | concatVectors => "concat_vectors"
  | output => "output"

instance : ToString Opcode := ⟨name⟩

/-- Every operation, in the order in which tables list them. -/
def all : List Opcode :=
  [argument, constant, constantFp, undef, int .add, int .sub, int .mul, int .mulhu, int .udiv,
    int .sdiv, int .and, int .or, int .xor, int .shl, int .srl, int .sra, count .ones,
    count .leadingZeros, count .trailingZeros, setcc, select, zeroExtend, signExtend, anyExtend,
    truncate, bitcast, buildPair, fneg, fabs, fcopysign, float .add, float .sub, float .mul,
    fpRound, buildVector, extractElement, insertElement, vectorShuffle, concatVectors, output]

theorem mem_all (op : Opcode) : op ∈ all := by
  cases op with
  | int op => cases op <;> decide
  | count op => cases op <;> decide
  | float op => cases op <;> decide
  | _ => decide

def ofName? (s : String) : Option Opcode :=
  all.find? (·.name == s)

/-- Two integer operands and one result, all of one type. -/
def isIntBinary : Opcode → Bool
  | int _ => true
  | _ => false

/-- Two float operands and one result, all of one type. -/
def isFloatBinary : Opcode → Bool
  | float _ | fcopysign => true
  | _ => false

/-- One operand, and a result of its type. -/
def isSameTypeUnary : Opcode → Bool
  | count _ | fneg | fabs => true
  | _ => false

def isCommutative : Opcode → Bool
  | int .add | int .mul | int .mulhu | int .and | int .or | int .xor | float .add | float .mul =>
    true
  | _ => false

end Opcode

end Dataflow
