import Dataflow.Proofs.Flow

/-!
# What flows through each rule

Every rule of every family returns values of its scope. The helpers that rules share come first;
a rule is then taken apart bind by bind.
-/

namespace Dataflow.Legal.Scope

open Edit

variable {S : Scope} {a b c : Value}

/-! ### Changing widths -/

@[simp] theorem flows_bit (n : Nat) : S.Flows (Edit.bit n) := by
  unfold Edit.bit
  split <;> simp

@[simp] theorem flows_shiftedRight (k n : Nat) : S.Flows (Edit.shiftedRight k n) := by
  unfold Edit.shiftedRight
  split <;> simp

@[simp] theorem flows_position (n : Nat) : S.Flows (Edit.position n) := by
  unfold Edit.position
  split <;> simp

@[simp] theorem flows_argumentPosition (id : Nat) : S.Flows (argumentPosition id) := by
  refine flows_bind (flows_node id) fun n _ => ?_
  split <;> simp

@[simp] theorem flows_immediate (id : Nat) : S.Flows (immediate id) := by
  refine flows_bind (flows_node id) fun n _ => ?_
  split <;> simp

@[simp] theorem flows_predicate (id : Nat) : S.Flows (predicate id) := by
  refine flows_bind (flows_node id) fun n _ => ?_
  split <;> simp

@[simp] theorem flows_clearAbove (source : ValueType) (ha : S.low a) :
    S.Flows (clearAbove a source) := by
  unfold clearAbove
  repeat' first | with_reducible refine flows_bind ?_ fun _ _ => ?_ | split
  all_goals simp_all

@[simp] theorem flows_signFill (source : ValueType) (ha : S.low a) :
    S.Flows (signFill a source) := by
  unfold signFill
  repeat' first | with_reducible refine flows_bind ?_ fun _ _ => ?_ | split
  all_goals simp_all

@[simp] theorem flows_promoted (ha : S.low a) : S.Flows (promoted a) := flows_one _ ha

@[simp] theorem flows_soleLane (ha : S.low a) : S.Flows (soleLane a) := flows_one _ ha

@[simp] theorem flows_halves (ha : S.low a) : S.Flows (halves a) := flows_two _ ha

@[simp] theorem flows_floatParts (ha : S.low a) : S.Flows (floatParts a) := flows_two _ ha

@[simp] theorem flows_vectorHalves (ha : S.low a) : S.Flows (vectorHalves a) := flows_two _ ha

@[simp] theorem flows_zeroExtended (ha : S.low a) : S.Flows (zeroExtended a) :=
  flows_bind (flows_typeOf a) fun _ _ => flows_bind (flows_promoted ha) fun _ hw =>
    flows_clearAbove _ hw

@[simp] theorem flows_signExtended (ha : S.low a) : S.Flows (signExtended a) :=
  flows_bind (flows_typeOf a) fun _ _ => flows_bind (flows_promoted ha) fun _ hw =>
    flows_signFill _ hw

@[simp] theorem flows_filled (fill : Fill) (ha : S.low a) : S.Flows (filled fill a) := by
  cases fill <;> simp [filled, ha]

@[simp] theorem flows_resize (fill : Fill) (t : ValueType) (ha : S.low a) :
    S.Flows (resize fill a t) := by
  unfold resize
  repeat' first | with_reducible refine flows_bind ?_ fun _ _ => ?_ | split
  all_goals simp_all

@[simp] theorem flows_bitcast (t : ValueType) (ha : S.low a) : S.Flows (Edit.bitcast a t) := by
  unfold Edit.bitcast
  repeat' first | with_reducible refine flows_bind ?_ fun _ _ => ?_ | split
  all_goals simp_all

@[simp] theorem flows_cutInteger (half : ValueType) (ha : S.low a) :
    S.Flows (cutInteger a half) := by
  unfold cutInteger
  repeat' first | with_reducible refine flows_bind ?_ fun _ _ => ?_ | split
  all_goals simp_all

@[simp] theorem flows_joinAt (width : Nat) (t : ValueType) (ha : S.low a) (hb : S.low b) :
    S.Flows (joinAt width a b t) := by
  unfold joinAt
  repeat' first | with_reducible refine flows_bind ?_ fun _ _ => ?_ | split
  all_goals simp_all

@[simp] theorem flows_joinHalves (t : ValueType) (ha : S.low a) (hb : S.low b) :
    S.Flows (joinHalves a b t) :=
  flows_bind (flows_typeOf a) fun _ _ => flows_joinAt _ t ha hb

/-! ### Outputs -/

theorem mem_observeParts {i : Nat} {parts observed : List (Value × Nat)} {p : Value × Nat}
    (h : p ∈ observeParts i parts observed) :
    p.1 ∈ parts.map (·.1) ∨ p.1 ∈ observed.map (·.1) := by
  unfold observeParts at h
  obtain ⟨l, hl, hp⟩ := List.mem_flatten.1 h
  obtain ⟨k, hk, rfl⟩ := List.mem_mapIdx.1 hl
  dsimp only at hp
  split at hp
  · exact .inl (List.of_mem_zip hp).1
  · rw [List.mem_singleton.1 hp]
    exact .inr (List.mem_map_of_mem (List.getElem_mem hk))

/-- An output reads its old operands and the parts, and nothing else. -/
@[simp] theorem flows_outputOf {parts : List Value} (i : Nat) (h : ∀ v ∈ parts, S.low v) :
    S.Flows (outputOf S.id i parts) := by
  refine flows_bind (flows_node _) fun n _ => flows_bind flows_operands fun vs hvs => ?_
  refine flows_bind (flows_mapM _ fun p hp => ?_) fun observed ho => ?_
  · obtain ⟨v, k⟩ := p
    have hv : S.low v := hvs v (List.fst_mem_of_mem_zipIdx hp)
    dsimp only
    repeat' first | with_reducible refine flows_bind ?_ fun _ _ => ?_ | split
    all_goals simp_all
  · refine flows_bind (flows_mapM _ fun v hv => ?_) fun sized hs => ?_
    · exact flows_bind (flows_typeOf v) fun _ _ => flows_pure ⟨h v hv, trivial⟩
    · refine Yields.bind (Yields.add (.inr ⟨rfl, rfl⟩) fun v hv => ?_) fun id hid =>
        flows_pure hid
      obtain ⟨p, hp, rfl⟩ := List.mem_map.1 hv
      rcases mem_observeParts hp with hp | hp
      · obtain ⟨q, hq, heq⟩ := List.mem_map.1 hp
        exact heq ▸ (hs q hq).1
      · obtain ⟨q, hq, heq⟩ := List.mem_map.1 hp
        exact heq ▸ (ho q hq).1

/-! ### Halves of integers -/

section Halve
open Halve
variable {lo hi : Value}

@[simp] theorem flows_halfType (T : Target) (id slot : Nat) : S.Flows (Halve.halfType T id slot) :=
  flows_bind (flows_resultType id slot) fun _ _ => flows_pure trivial

@[simp] theorem flows_operandHalves : S.Flows (operandHalves S.id) := by
  unfold operandHalves
  repeat' first | with_reducible refine flows_bind ?_ fun _ _ => ?_ | split
  all_goals simp_all

@[simp] theorem flows_less (T : Target) (ha : S.low a) (hb : S.low b) : S.Flows (less T a b) := by
  unfold less
  repeat' first | with_reducible refine flows_bind ?_ fun _ _ => ?_ | split
  all_goals simp_all

@[simp] theorem flows_sumAndCarry (T : Target) (ha : S.low a) (hb : S.low b) :
    S.Flows (sumAndCarry T a b) := by
  unfold sumAndCarry
  repeat' first | with_reducible refine flows_bind ?_ fun _ _ => ?_ | split
  all_goals simp_all

@[simp] theorem flows_lowOfRightShift (amount : Nat) (hl : S.low lo) (hh : S.low hi) :
    S.Flows (lowOfRightShift lo hi amount) := by
  unfold lowOfRightShift
  repeat' first | with_reducible refine flows_bind ?_ fun _ _ => ?_ | split
  all_goals simp_all

@[simp] theorem flows_arithmeticByConstant (half : ValueType) (amount : Nat) (hl : S.low lo) (hh : S.low hi) :
    S.Flows (arithmeticByConstant lo hi half amount) := by
  unfold arithmeticByConstant
  repeat' first | with_reducible refine flows_bind ?_ fun _ _ => ?_ | split
  all_goals simp_all

@[simp] theorem flows_leftByConstant (half : ValueType) (amount : Nat) (hl : S.low lo) (hh : S.low hi)
    (hc : S.low c) :
    S.Flows (leftByConstant lo hi c half amount) := by
  unfold leftByConstant
  repeat' first | with_reducible refine flows_bind ?_ fun _ _ => ?_ | split
  all_goals simp_all

@[simp] theorem flows_rightByConstant (half : ValueType) (amount : Nat) (hl : S.low lo) (hh : S.low hi)
    (hc : S.low c) :
    S.Flows (rightByConstant lo hi c half amount) := by
  unfold rightByConstant
  repeat' first | with_reducible refine flows_bind ?_ fun _ _ => ?_ | split
  all_goals simp_all

@[simp] theorem flows_constantShift (op : Opcode) (amount : Nat) (hl : S.low lo) (hh : S.low hi) :
    S.Flows (constantShift op lo hi amount) := by
  unfold constantShift
  repeat' first | with_reducible refine flows_bind ?_ fun _ _ => ?_ | split
  all_goals simp_all

@[simp] theorem flows_amountParts (T : Target) (half : ValueType) (ha : S.low a) :
    S.Flows (amountParts T S.id a half) := by
  unfold amountParts
  repeat' first | with_reducible refine flows_bind ?_ fun _ _ => ?_ | split
  all_goals simp_all

@[simp] theorem flows_leftCases {zero amount inverse past : Value} (hl : S.low lo) (hh : S.low hi)
    (hz : S.low zero) (ha : S.low amount) (hv : S.low inverse) (hp : S.low past) :
    S.Flows (leftCases lo hi zero amount inverse past) := by
  unfold leftCases
  repeat' first | with_reducible refine flows_bind ?_ fun _ _ => ?_ | split
  all_goals simp_all

@[simp] theorem flows_rightCases (op : IntOp) {zero amount inverse past : Value} (hl : S.low lo)
    (hh : S.low hi) (hz : S.low zero) (ha : S.low amount) (hv : S.low inverse) (hp : S.low past) :
    S.Flows (rightCases op lo hi zero amount inverse past) := by
  unfold rightCases
  repeat' first | with_reducible refine flows_bind ?_ fun _ _ => ?_ | split
  all_goals simp_all

@[simp] theorem flows_variableShift (T : Target) (op : Opcode) (hl : S.low lo) (hh : S.low hi) (ha : S.low a) :
    S.Flows (variableShift T S.id op lo hi a) := by
  unfold variableShift
  repeat' first | with_reducible refine flows_bind ?_ fun _ _ => ?_ | split
  all_goals simp_all

theorem flows_division_run {d : Division} (hd : S.low d.dividend ∧ S.low d.divisor ∧ S.low d.zero ∧
    S.low d.one ∧ S.low d.topShift) (k : Nat) (ha : S.low a) (hb : S.low b) :
    S.Flows (d.run k a b) := by
  obtain ⟨_, _, _, _, _⟩ := hd
  induction k generalizing a b with
  | zero => exact flows_pure hb
  | succ k ih =>
    refine flows_bind (α := Value × Value) ?_ fun p hp => ih hp.1 hp.2
    unfold Division.step
    repeat' first | with_reducible refine flows_bind ?_ fun _ _ => ?_ | split
    all_goals simp_all

@[simp] theorem flows_unsignedQuotient (T : Target) (ha : S.low a) (hb : S.low b) :
    S.Flows (unsignedQuotient T a b) := by
  unfold unsignedQuotient
  repeat' first | with_reducible refine flows_bind ?_ fun _ _ => ?_ | split
  all_goals simp_all [flows_division_run]

@[simp] theorem flows_magnitude (flag : ValueType) (ha : S.low a) (hb : S.low b) :
    S.Flows (magnitude flag a b) := by
  unfold magnitude
  repeat' first | with_reducible refine flows_bind ?_ fun _ _ => ?_ | split
  all_goals simp_all

@[simp] theorem flows_halfLaneIndices (ha : S.low a) : S.Flows (halfLaneIndices a) := by
  unfold halfLaneIndices
  repeat' first | with_reducible refine flows_bind ?_ fun _ _ => ?_ | split
  all_goals simp_all

@[simp] theorem flows_equality (p : Condition) (t : ValueType) {x y : Value × Value} (hx : Tracked.all S.low x)
    (hy : Tracked.all S.low y) :
    S.Flows (equality p x y t) := by
  unfold equality
  repeat' first | with_reducible refine flows_bind ?_ fun _ _ => ?_ | split
  all_goals simp_all

@[simp] theorem flows_ordering (T : Target) (p : Condition) (t : ValueType) {x y : Value × Value}
    (hx : Tracked.all S.low x) (hy : Tracked.all S.low y) :
    S.Flows (ordering T p x y t) := by
  unfold ordering
  repeat' first | with_reducible refine flows_bind ?_ fun _ _ => ?_ | split
  all_goals simp_all

end Halve

/-! ### Halves of vectors -/

section Split
open Split
variable {lo hi : Value}

@[simp] theorem flows_buildVector_take {vs : List Value} (n : Nat) (t : ValueType)
    (h : ∀ v ∈ vs, S.low v) : S.Flows (Edit.buildVector (vs.take n) t) :=
  flows_buildVector t fun v hv => h v (List.mem_of_mem_take hv)

@[simp] theorem flows_buildVector_drop {vs : List Value} (n : Nat) (t : ValueType)
    (h : ∀ v ∈ vs, S.low v) : S.Flows (Edit.buildVector (vs.drop n) t) :=
  flows_buildVector t fun v hv => h v (List.mem_of_mem_drop hv)

@[simp] theorem flows_split_halfType (T : Target) (id slot : Nat) :
    S.Flows (Split.halfType T id slot) :=
  flows_bind (flows_resultType id slot) fun _ _ => flows_pure trivial

@[simp] theorem flows_halvesAsIntegers (id bits : Nat) (ha : S.low a) :
    S.Flows (halvesAsIntegers id a bits) := by
  unfold halvesAsIntegers
  repeat' first | with_reducible refine flows_bind ?_ fun _ _ => ?_ | split
  all_goals simp_all

@[simp] theorem flows_extractLanes (T : Target) (lanes : List Nat) (ha : S.low a) :
    S.Flows (lanes.mapM (extractLane T a)) :=
  flows_mapM lanes fun lane _ => flows_extractLane T lane ha

@[simp] theorem flows_legalHalves (T : Target) (id : Nat) (t : ValueType) (ha : S.low a) :
    S.Flows (legalHalves T id a t) := by
  unfold legalHalves
  repeat' first | with_reducible refine flows_bind ?_ fun _ _ => ?_ | split
  all_goals simp_all

@[simp] theorem flows_bitHalves (T : Target) (id : Nat) (ha : S.low a) :
    S.Flows (bitHalves T id a) := by
  unfold bitHalves
  repeat' first | with_reducible refine flows_bind ?_ fun _ _ => ?_ | split
  all_goals simp_all

@[simp] theorem flows_scalarFromHalves (id : Nat) (t : ValueType) (hl : S.low lo) (hh : S.low hi) :
    S.Flows (scalarFromHalves id lo hi t) := by
  unfold scalarFromHalves
  repeat' first | with_reducible refine flows_bind ?_ fun _ _ => ?_ | split
  all_goals simp_all

@[simp] theorem flows_vectorFromHalves (T : Target) (id : Nat) (t : ValueType) (hl : S.low lo)
    (hh : S.low hi) : S.Flows (vectorFromHalves T id lo hi t) := by
  unfold vectorFromHalves
  repeat' first | with_reducible refine flows_bind ?_ fun _ _ => ?_ | split
  all_goals simp_all [or_imp]

@[simp] theorem flows_quartersOf (id : Nat) (ha : S.low a) (hb : S.low b) :
    S.Flows (quartersOf id a b) := by
  have all_get {q : Quarters} (h : S.low q.aLo ∧ S.low q.aHi ∧ S.low q.bLo ∧ S.low q.bHi)
      (k : Nat) : S.low (q.get k) := by
    unfold Quarters.get
    split <;> simp [h]
  unfold quartersOf
  repeat' first | with_reducible refine flows_bind ?_ fun _ _ => ?_ | split | dsimp only
  all_goals simp_all

@[simp] theorem flows_selectLanes (T : Target) (mask : List (Option Nat)) (t : ValueType)
    {q : Quarters} (hq : ∀ k, S.low (q.get k)) : S.Flows (selectLanes T q mask t) := by
  unfold selectLanes
  repeat' first
    | with_reducible refine flows_bind ?_ fun _ _ => ?_
    | with_reducible refine flows_mapM _ fun _ _ => ?_
    | split
    | dsimp only
  all_goals simp_all

end Split

/-! ### The families -/

theorem flows_successor {x : Edit Value} (hx : S.Flows x) : S.Flows (Successor.value <$> x) :=
  flows_map hx fun _ hv => hv

theorem widen_result {op : Opcode} {rule : Target → NodeId → Nat → Edit Value}
    (h : Widen.result? op = some rule) (T : Target) (slot : Nat) :
    S.Flows (rule T S.id slot) := by
  unfold Widen.result? at h
  split at h <;> cases h
  all_goals
    simp only [Widen.ofArgument, Widen.ofConstant, Widen.ofUndef, Widen.ofLowBits, Widen.ofFilled,
      Widen.ofOnes, Widen.ofLeadingZeros, Widen.ofTrailingZeros, Widen.ofSetcc, Widen.ofSelect,
      Widen.ofTruncate, Widen.ofExtension, Widen.extended, Widen.ofExtract, Widen.ofBitcast,
      Widen.ofPair, Widen.joinPair]
    repeat' first | with_reducible refine flows_bind ?_ fun _ _ => ?_ | split
    all_goals simp_all

theorem widen_operand {op : Opcode} {rule : OperandRule} (h : Widen.operand? op = some rule)
    (T : Target) (i : Nat) : S.Flows (rule T S.id i) := by
  unfold Widen.operand? at h
  split at h <;> cases h
  all_goals
    simp only [Widen.inSetcc, Widen.inSelect, Widen.inExtension, Widen.extended, Widen.inPair,
      Widen.joinPair, Widen.inOutput, Widen.inBuildVector, Widen.laneIndex, Widen.inInsert,
      Widen.inExtract]
    try with_reducible refine flows_successor ?_
    repeat' first
      | with_reducible refine flows_bind ?_ fun _ _ => ?_
      | with_reducible refine flows_mapM _ fun _ _ => ?_
      | split
    all_goals simp_all

theorem halve_result {op : Opcode} {rule : Target → NodeId → Nat → Edit (Value × Value)}
    (h : Halve.result? op = some rule) (T : Target) (slot : Nat) :
    S.Flows (rule T S.id slot) := by
  unfold Halve.result? at h
  split at h <;> cases h
  all_goals
    simp only [Halve.ofArgument, Halve.ofConstant, Halve.ofUndef, Halve.ofBitwise, Halve.ofAdd,
      Halve.ofSub, Halve.ofMul, Halve.ofMulHigh, Halve.ofShift, Halve.ofUnsignedDiv,
      Halve.ofSignedDiv, Halve.ofOnes, Halve.ofLeadingZeros, Halve.ofTrailingZeros,
      Halve.ofSelect, Halve.ofZeroExtend, Halve.ofSignExtend, Halve.ofAnyExtend,
      Halve.ofTruncate, Halve.ofPair, Halve.ofBitcast, Halve.ofExtract]
    repeat' first | with_reducible refine flows_bind ?_ fun _ _ => ?_ | split
    all_goals simp_all

theorem halve_operand {op : Opcode} {rule : OperandRule} (h : Halve.operand? op = some rule)
    (T : Target) (i : Nat) : S.Flows (rule T S.id i) := by
  unfold Halve.operand? at h
  split at h <;> cases h
  all_goals
    simp only [Halve.inTruncate, Halve.inSetcc, Halve.inSelect, Halve.inBitcast, Halve.inOutput]
    try with_reducible refine flows_successor ?_
    repeat' first | with_reducible refine flows_bind ?_ fun _ _ => ?_ | split
    all_goals simp_all

theorem soften_result {op : Opcode} {rule : Target → NodeId → Nat → Edit Value}
    (h : Soften.result? op = some rule) (T : Target) (slot : Nat) :
    S.Flows (rule T S.id slot) := by
  unfold Soften.result? at h
  split at h <;> cases h
  all_goals
    simp only [Soften.ofArgument, Soften.ofConstant, Soften.ofUndef, Soften.ofNeg, Soften.ofAbs,
      Soften.ofCopysign, Soften.ofSelect, Soften.ofBitcast, Soften.ofExtract, Soften.ofPair,
      Soften.signBit, Soften.bitsBelowSign]
    repeat' first | with_reducible refine flows_bind ?_ fun _ _ => ?_ | split
    all_goals simp_all

theorem soften_operand {op : Opcode} {rule : OperandRule} (h : Soften.operand? op = some rule)
    (T : Target) (i : Nat) : S.Flows (rule T S.id i) := by
  unfold Soften.operand? at h
  split at h <;> cases h
  all_goals
    simp only [Soften.inBitcast, Soften.inOutput]
    try with_reducible refine flows_successor ?_
    repeat' first | with_reducible refine flows_bind ?_ fun _ _ => ?_ | split
    all_goals simp_all

theorem doubleDouble_result {op : Opcode} {rule : Target → NodeId → Nat → Edit (Value × Value)}
    (h : DoubleDouble.result? op = some rule) (T : Target) (slot : Nat) :
    S.Flows (rule T S.id slot) := by
  unfold DoubleDouble.result? at h
  split at h <;> cases h
  all_goals
    simp only [DoubleDouble.ofArgument, DoubleDouble.ofConstant, DoubleDouble.ofUndef,
      DoubleDouble.ofNeg, DoubleDouble.ofSelect, DoubleDouble.partType]
    repeat' first | with_reducible refine flows_bind ?_ fun _ _ => ?_ | split
    all_goals simp_all

theorem doubleDouble_operand {op : Opcode} {rule : OperandRule}
    (h : DoubleDouble.operand? op = some rule) (T : Target) (i : Nat) :
    S.Flows (rule T S.id i) := by
  unfold DoubleDouble.operand? at h
  split at h <;> cases h
  all_goals
    simp only [DoubleDouble.inRound, DoubleDouble.inOutput]
    try with_reducible refine flows_successor ?_
    repeat' first | with_reducible refine flows_bind ?_ fun _ _ => ?_ | split
    all_goals simp_all

theorem scalarize_result {op : Opcode} {rule : Target → NodeId → Nat → Edit Value}
    (h : Scalarize.result? op = some rule) (T : Target) (slot : Nat) :
    S.Flows (rule T S.id slot) := by
  unfold Scalarize.result? at h
  split at h <;> cases h
  all_goals
    simp only [Scalarize.ofArgument, Scalarize.ofUndef, Scalarize.ofUnary, Scalarize.ofBinary,
      Scalarize.ofSelect, Scalarize.ofBuildVector, Scalarize.ofInsert, Scalarize.ofShuffle,
      Scalarize.ofBitcast, Scalarize.elementType, Scalarize.shuffledLane]
    repeat' first | with_reducible refine flows_bind ?_ fun _ _ => ?_ | split
    all_goals simp_all

theorem scalarize_operand {op : Opcode} {rule : OperandRule}
    (h : Scalarize.operand? op = some rule) (T : Target) (i : Nat) :
    S.Flows (rule T S.id i) := by
  unfold Scalarize.operand? at h
  split at h <;> cases h
  all_goals
    simp only [Scalarize.inExtract, Scalarize.inBitcast, Scalarize.inOutput]
    try with_reducible refine flows_successor ?_
    repeat' first | with_reducible refine flows_bind ?_ fun _ _ => ?_ | split
    all_goals simp_all

theorem split_result {op : Opcode} {rule : Target → NodeId → Nat → Edit (Value × Value)}
    (h : Split.result? op = some rule) (T : Target) (slot : Nat) :
    S.Flows (rule T S.id slot) := by
  unfold Split.result? at h
  split at h <;> cases h
  all_goals
    simp only [Split.ofArgument, Split.ofUndef, Split.ofUnary, Split.ofBinary, Split.ofSelect,
      Split.ofBuildVector, Split.ofConcat, Split.ofInsert, Split.ofShuffle, Split.ofBitcast,
      Split.ofPair]
    repeat' first | with_reducible refine flows_bind ?_ fun _ _ => ?_ | split
    all_goals simp_all

theorem split_operand {op : Opcode} {rule : OperandRule} (h : Split.operand? op = some rule)
    (T : Target) (i : Nat) : S.Flows (rule T S.id i) := by
  unfold Split.operand? at h
  split at h <;> cases h
  all_goals
    simp only [Split.inExtract, Split.inBitcast, Split.inShuffle, Split.inOutput]
    try with_reducible refine flows_successor ?_
    repeat' first | with_reducible refine flows_bind ?_ fun _ _ => ?_ | split
    all_goals simp_all

/-- The parts that a rule gives a result are values of its scope. -/
theorem flows_resultRule {action : Action} {op : Opcode} {rule : ResultRule}
    (h : resultRule? action op = some rule) (T : Target) (slot : Nat) :
    S.Flows (rule T S.id slot) := by
  have one {r : Target → NodeId → Nat → Edit Value} (hr : S.Flows (r T S.id slot)) :
      S.Flows (ResultRule.ofOne r T S.id slot) := flows_map hr fun _ hv => hv
  have two {r : Target → NodeId → Nat → Edit (Value × Value)} (hr : S.Flows (r T S.id slot)) :
      S.Flows (ResultRule.ofTwo r T S.id slot) := flows_bind hr fun _ hp => flows_pure hp
  cases action <;> simp only [resultRule?, Option.map_eq_some_iff, reduceCtorEq] at h <;>
    obtain ⟨r, hr, rfl⟩ := h
  case promoteInteger => exact one (widen_result hr T slot)
  case expandInteger => exact two (halve_result hr T slot)
  case promoteFloat => exact one (soften_result hr T slot)
  case expandFloat => exact two (doubleDouble_result hr T slot)
  case scalarize => exact one (scalarize_result hr T slot)
  case split => exact two (split_result hr T slot)

/-- The successor that a rule gives a node is a value of its scope. -/
theorem flows_operandRule {action : Action} {op : Opcode} {rule : OperandRule}
    (h : operandRule? action op = some rule) (T : Target) (i : Nat) :
    S.Flows (rule T S.id i) := by
  cases action with
  | legal => cases h
  | promoteInteger => exact widen_operand h T i
  | expandInteger => exact halve_operand h T i
  | promoteFloat => exact soften_operand h T i
  | expandFloat => exact doubleDouble_operand h T i
  | scalarize => exact scalarize_operand h T i
  | split => exact split_operand h T i

end Dataflow.Legal.Scope
