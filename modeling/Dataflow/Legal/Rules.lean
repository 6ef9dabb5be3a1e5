import Dataflow.Legal.DoubleDouble
import Dataflow.Legal.Halve.Division
import Dataflow.Legal.Halve.Reinterpret
import Dataflow.Legal.Halve.Shift
import Dataflow.Legal.Scalarize
import Dataflow.Legal.Soften
import Dataflow.Legal.Split.Reinterpret
import Dataflow.Legal.Split.Shuffle
import Dataflow.Legal.Widen

/-!
# Rules

Which rule applies to which action and operation. A result rule gives the parts that stand for a
result of an illegal type; an operand rule gives the successor of a node whose results are legal
and one of whose operands is not. What has no rule is reported, never guessed at.
-/

namespace Dataflow.Legal

/-- Rules are given the target, the node, and the number of the result. -/
abbrev ResultRule := Target → NodeId → Nat → Edit Parts

/-- Rules are given the target, the node, and the number of the operand. -/
abbrev OperandRule := Target → NodeId → Nat → Edit Successor

namespace Widen

def result? : Opcode → Option (Target → NodeId → Nat → Edit Value)
  | .argument => some ofArgument
  | .constant => some ofConstant
  | .undef => some ofUndef
  | .int .add | .int .sub | .int .mul | .int .and | .int .or | .int .xor =>
    some fun _ id _ => ofLowBits id
  | .int .shl => some fun _ id _ => ofFilled .shl .any .zero id
  | .int .srl => some fun _ id _ => ofFilled .srl .zero .zero id
  | .int .sra => some fun _ id _ => ofFilled .sra .sign .zero id
  | .int .udiv => some fun _ id _ => ofFilled .udiv .zero .zero id
  | .int .sdiv => some fun _ id _ => ofFilled .sdiv .sign .sign id
  | .count .ones => some fun _ id _ => ofOnes id
  | .count .leadingZeros => some fun _ id _ => ofLeadingZeros id
  | .count .trailingZeros => some fun _ id _ => ofTrailingZeros id
  | .setcc => some ofSetcc
  | .select => some fun _ id _ => ofSelect id
  | .truncate => some ofTruncate
  | .zeroExtend => some fun T id slot => ofExtension T .zero id slot
  | .signExtend => some fun T id slot => ofExtension T .sign id slot
  | .anyExtend => some fun T id slot => ofExtension T .any id slot
  | .extractElement => some ofExtract
  | .bitcast => some ofBitcast
  | .buildPair => some ofPair
  | _ => none

def operand? : Opcode → Option OperandRule
  | .setcc => some fun _ id _ => .value <$> inSetcc id
  | .select => some fun _ id i => .value <$> inSelect id i
  | .zeroExtend => some fun T id _ => .value <$> inExtension T .zero id
  | .signExtend => some fun T id _ => .value <$> inExtension T .sign id
  | .anyExtend => some fun T id _ => .value <$> inExtension T .any id
  | .buildPair => some fun T id _ => .value <$> inPair T id
  | .buildVector => some fun T id _ => .value <$> inBuildVector T id
  | .insertElement => some fun T id i => .value <$> inInsert T id i
  | .extractElement => some fun T id i => .value <$> inExtract T id i
  | .output => some fun _ id i => inOutput id i
  | _ => none

end Widen

namespace Halve

def result? : Opcode → Option (Target → NodeId → Nat → Edit (Value × Value))
  | .argument => some ofArgument
  | .constant => some ofConstant
  | .undef => some ofUndef
  | .int .and | .int .or | .int .xor => some fun _ id _ => ofBitwise id
  | .int .add => some fun T id _ => ofAdd T id
  | .int .sub => some fun T id _ => ofSub T id
  | .int .mul => some fun _ id _ => ofMul id
  | .int .mulhu => some fun T id _ => ofMulHigh T id
  | .int .shl | .int .srl | .int .sra => some fun T id _ => ofShift T id
  | .int .udiv => some ofUnsignedDiv
  | .int .sdiv => some ofSignedDiv
  | .count .ones => some ofOnes
  | .count .leadingZeros => some ofLeadingZeros
  | .count .trailingZeros => some ofTrailingZeros
  | .select => some fun _ id _ => ofSelect id
  | .zeroExtend => some ofZeroExtend
  | .signExtend => some ofSignExtend
  | .anyExtend => some ofAnyExtend
  | .truncate => some ofTruncate
  | .buildPair => some ofPair
  | .bitcast => some ofBitcast
  | .extractElement => some ofExtract
  | _ => none

def operand? : Opcode → Option OperandRule
  | .truncate => some fun _ id _ => .value <$> inTruncate id
  | .setcc => some fun T id _ => .value <$> inSetcc T id
  | .select => some fun T id i => .value <$> inSelect T id i
  | .bitcast => some fun _ id _ => .value <$> inBitcast id
  | .output => some fun _ id i => inOutput id i
  | _ => none

end Halve

namespace Soften

def result? : Opcode → Option (Target → NodeId → Nat → Edit Value)
  | .argument => some ofArgument
  | .constantFp => some ofConstant
  | .undef => some ofUndef
  | .fneg => some fun _ id _ => ofNeg id
  | .fabs => some fun _ id _ => ofAbs id
  | .fcopysign => some fun _ id _ => ofCopysign id
  | .select => some fun _ id _ => ofSelect id
  | .bitcast => some ofBitcast
  | .buildPair => some ofPair
  | .extractElement => some ofExtract
  | _ => none

def operand? : Opcode → Option OperandRule
  | .bitcast => some fun _ id _ => .value <$> inBitcast id
  | .output => some fun _ id i => inOutput id i
  | _ => none

end Soften

namespace DoubleDouble

def result? : Opcode → Option (Target → NodeId → Nat → Edit (Value × Value))
  | .argument => some ofArgument
  | .constantFp => some ofConstant
  | .undef => some ofUndef
  | .fneg => some fun _ id _ => ofNeg id
  | .select => some fun _ id _ => ofSelect id
  | _ => none

def operand? : Opcode → Option OperandRule
  | .fpRound => some fun _ id _ => .value <$> inRound id
  | .output => some fun _ id i => inOutput id i
  | _ => none

end DoubleDouble

namespace Scalarize

def result? : Opcode → Option (Target → NodeId → Nat → Edit Value)
  | .argument => some fun _ id slot => ofArgument id slot
  | .undef => some fun _ id slot => ofUndef id slot
  | .count _ | .fneg | .fabs => some fun _ id _ => ofUnary id
  | .int _ | .float _ | .fcopysign => some fun _ id _ => ofBinary id
  | .select => some fun _ id _ => ofSelect id
  | .buildVector => some fun _ id _ => ofBuildVector id
  | .insertElement => some fun _ id _ => ofInsert id
  | .vectorShuffle => some ofShuffle
  | .bitcast => some ofBitcast
  | _ => none

def operand? : Opcode → Option OperandRule
  | .extractElement => some fun _ id i => .value <$> inExtract id i
  | .bitcast => some fun _ id _ => .value <$> inBitcast id
  | .output => some fun _ id i => inOutput id i
  | _ => none

end Scalarize

namespace Split

def result? : Opcode → Option (Target → NodeId → Nat → Edit (Value × Value))
  | .argument => some ofArgument
  | .undef => some ofUndef
  | .count _ | .fneg | .fabs => some fun _ id _ => ofUnary id
  | .int _ | .float _ | .fcopysign => some fun _ id _ => ofBinary id
  | .select => some fun _ id _ => ofSelect id
  | .buildVector => some ofBuildVector
  | .concatVectors => some ofConcat
  | .insertElement => some ofInsert
  | .vectorShuffle => some ofShuffle
  | .bitcast => some ofBitcast
  | .buildPair => some ofPair
  | _ => none

def operand? : Opcode → Option OperandRule
  | .extractElement => some fun _ id i => .value <$> inExtract id i
  | .bitcast => some fun T id _ => .value <$> inBitcast T id
  | .vectorShuffle => some fun T id _ => .value <$> inShuffle T id
  | .output => some fun _ id i => inOutput id i
  | _ => none

end Split

/-- A rule that gives one part. -/
def ResultRule.ofOne (rule : Target → NodeId → Nat → Edit Value) : ResultRule :=
  fun T id slot => .one <$> rule T id slot

/-- A rule that gives two parts. -/
def ResultRule.ofTwo (rule : Target → NodeId → Nat → Edit (Value × Value)) : ResultRule :=
  fun T id slot => do
    let (lo, hi) ← rule T id slot
    return .two lo hi

/-- The rule for a result that needs an action. -/
def resultRule? : Action → Opcode → Option ResultRule
  | .legal, _ => none
  | .promoteInteger, op => (Widen.result? op).map .ofOne
  | .expandInteger, op => (Halve.result? op).map .ofTwo
  | .promoteFloat, op => (Soften.result? op).map .ofOne
  | .expandFloat, op => (DoubleDouble.result? op).map .ofTwo
  | .scalarize, op => (Scalarize.result? op).map .ofOne
  | .split, op => (Split.result? op).map .ofTwo

/-- The rule for an operand that needs an action. -/
def operandRule? : Action → Opcode → Option OperandRule
  | .legal, _ => none
  | .promoteInteger, op => Widen.operand? op
  | .expandInteger, op => Halve.operand? op
  | .promoteFloat, op => Soften.operand? op
  | .expandFloat, op => DoubleDouble.operand? op
  | .scalarize, op => Scalarize.operand? op
  | .split, op => Split.operand? op

/-! ### What has rules -/

/-- The operations whose results a rule converts. -/
def resultOpcodes (a : Action) : List Opcode :=
  Opcode.all.filter fun op => (resultRule? a op).isSome

/-- The operations whose illegal operands a rule takes. -/
def operandOpcodes (a : Action) : List Opcode :=
  Opcode.all.filter fun op => (operandRule? a op).isSome

def resultRuleCount : Nat :=
  Action.all.foldl (fun n a => n + (resultOpcodes a).length) 0

def operandRuleCount : Nat :=
  Action.all.foldl (fun n a => n + (operandOpcodes a).length) 0

/-- The numbers of rules. -/
def rulesText : String :=
  s!"HandlerTable \x7b results: {resultRuleCount}, operands: {operandRuleCount} \x7d"

end Dataflow.Legal
