import Dataflow.Proofs.Rules.DoubleDouble
import Dataflow.Proofs.Rules.Halve.Division
import Dataflow.Proofs.Rules.Halve.Reinterpret
import Dataflow.Proofs.Rules.Halve.Shift
import Dataflow.Proofs.Rules.Output
import Dataflow.Proofs.Rules.Scalarize
import Dataflow.Proofs.Rules.Soften
import Dataflow.Proofs.Rules.Split.Reinterpret
import Dataflow.Proofs.Rules.Split.Shuffle
import Dataflow.Proofs.Rules.Widen

/-!
# All rules

The rule that applies to an action and an operation achieves what a rule of that kind should:
whichever result rule is found gives parts of the result, whichever operand rule is found gives a
value in the place of the result, and scalar integer code always finds one.
-/

namespace Dataflow

/-- Operations whose rules may look at constants among the operands. -/
def Opcode.readsConstants : Opcode → Bool
  | .int .shl | .int .srl | .int .sra | .extractElement | .insertElement => true
  | _ => false

namespace Legal

open RuleSpec RewriteSpec

variable {V : RewriteSpec} {op : Opcode} {ts : List ValueType} {t u : ValueType} {i : Nat}

/-! ### Results -/

section
variable (hn : V.Shows op ts t) (hsig : V.T.Signs V.limit op ts t)
include hn hsig

theorem Widen.meets_result (hc : V.T.classify t = .promoteInteger)
    {rule : Target → NodeId → Nat → Edit Value} (h : Widen.result? op = some rule) :
    V.Meets (rule V.T V.id 0) (V.Carried t) := by
  have hsigns := hsig
  rcases hsig with hsig | ⟨hl, hlib, htakes⟩
  · cases hsig with
    | argument => cases h; exact meets_ofArgument hn hc
    | constant => cases h; exact meets_ofConstant hn hc
    | undef => cases h; exact meets_ofUndef hn hc
    | @int op =>
      cases op with
      | add | sub | mul | and | or | xor => cases h; exact meets_ofLowBits hn hc (by simp)
      | shl => cases h; exact meets_ofFilled hn hc (by simp) fillsTo_shl
      | srl => cases h; exact meets_ofFilled hn hc (by simp) fillsTo_srl
      | sra => cases h; exact meets_ofFilled hn hc (by simp) fillsTo_sra
      | udiv => cases h; exact meets_ofFilled hn hc (by simp) fillsTo_udiv
      | sdiv => cases h; exact meets_ofFilled hn hc (by simp) fillsTo_sdiv
      | mulhu => cases h
    | @count op =>
      cases op with
      | ones => cases h; exact meets_ofOnes hn hc
      | leadingZeros => cases h; exact meets_ofLeadingZeros hn hc
      | trailingZeros => cases h; exact meets_ofTrailingZeros hn hc
    | setcc hu => cases h; exact meets_ofSetcc hn hu hc
    | select hcond => cases h; exact meets_ofSelect hn hcond hc
    | zeroExtend hu _ hlt => cases h; exact meets_ofExtension .zero hn hu hlt hc
    | signExtend hu _ hlt => cases h; exact meets_ofExtension .sign hn hu hlt hc
    | anyExtend hu _ hlt => cases h; exact meets_ofExtension .any hn hu hlt hc
    | truncate hu _ hlt => cases h; exact meets_ofTruncate hn hu hlt hc
    | bitcast hbits => cases h; exact meets_ofBitcast hn hbits hc
    | buildPair hu hbits => cases h; exact meets_ofPair hn (.inl hu) hbits hc
    | extractElement hu _ hi => cases h; exact meets_ofExtract hn hu hsigns.reads hi hc
    | _ => cases h
  · cases hlib with
    | lane hu _ _ _ hi => cases h; exact meets_ofExtract hn hu hsigns.reads hi hc
    | pair hbits =>
      cases h
      exact meets_ofPair hn (.inr ⟨hl, htakes.resolve_right fun hn => hn (.inl hc)⟩) hbits hc
    | zeroExtend | anyExtend =>
      rw [show V.T.classify t = .legal from htakes] at hc
      cases hc
    | _ => cases h

theorem Halve.meets_result (hnumbered : op.readsConstants = true → V.sem → V.numbered)
    (hc : V.T.classify t = .expandInteger)
    {rule : Target → NodeId → Nat → Edit (Value × Value)} (h : Halve.result? op = some rule) :
    V.Meets (rule V.T V.id 0) (V.Paired t) := by
  have hsigns := hsig
  rcases hsig with hsig | ⟨hl, hlib, htakes⟩
  · cases hsig with
    | argument => cases h; exact meets_ofArgument hn hc
    | constant => cases h; exact meets_ofConstant hn hc
    | undef => cases h; exact meets_ofUndef hn hc
    | @int op =>
      cases op with
      | and | or | xor => cases h; exact meets_ofBitwise (by simp) hn hc
      | add => cases h; exact meets_ofAdd hn hc
      | sub => cases h; exact meets_ofSub hn hc
      | mul => cases h; exact meets_ofMul hn hc
      | mulhu => cases h; exact meets_ofMulHigh hn hc
      | shl | srl | sra => cases h; exact meets_ofShift (by simp) hn (hnumbered rfl) hc
      | udiv => cases h; exact meets_ofUnsignedDiv hn hc
      | sdiv => cases h; exact meets_ofSignedDiv hn hc
    | @count op =>
      cases op with
      | ones => cases h; exact meets_ofOnes hn hc
      | leadingZeros => cases h; exact meets_ofLeadingZeros hn hc
      | trailingZeros => cases h; exact meets_ofTrailingZeros hn hc
    | select hcond => cases h; exact meets_ofSelect hn hcond hc
    | zeroExtend hu _ hlt => cases h; exact meets_ofZeroExtend hu hlt hn hc
    | signExtend hu _ hlt => cases h; exact meets_ofSignExtend hu hlt hn hc
    | anyExtend hu _ hlt => cases h; exact meets_ofAnyExtend hu hlt hn hc
    | truncate hu _ hlt => cases h; exact meets_ofTruncate hn hu hlt hc
    | bitcast hbits => cases h; exact meets_ofBitcast hn hbits hc
    | buildPair _ hbits => cases h; exact meets_ofPair hn hbits hc
    | extractElement hu _ hi =>
      cases h
      refine meets_ofExtract hn (fun hs hlanes => ?_) hu hsigns.reads hi hc
      exact locates_of_numbered hn hi.2 hlanes hs (hnumbered rfl hs)
    | _ => cases h
  · cases hlib with
    | lane hu _ _ _ hi =>
      cases h
      refine meets_ofExtract hn (fun hs hlanes => ?_) hu hsigns.reads hi hc
      exact locates_of_numbered hn hi.2 hlanes hs (hnumbered rfl hs)
    | pair hbits => cases h; exact meets_ofPair hn hbits hc
    | zeroExtend | anyExtend =>
      rw [show V.T.classify t = .legal from htakes] at hc
      cases hc
    | _ => cases h

theorem Soften.meets_result (hc : V.T.classify t = .promoteFloat)
    {rule : Target → NodeId → Nat → Edit Value} (h : Soften.result? op = some rule) :
    V.Meets (rule V.T V.id 0) (V.Carried t) := by
  have hsigns := hsig
  rcases hsig with hsig | ⟨hl, hlib, htakes⟩
  · cases hsig with
    | argument => cases h; exact meets_ofArgument hn hc
    | constantFp => cases h; exact meets_ofConstant hn hc
    | undef => cases h; exact meets_ofUndef hn hc
    | fneg => cases h; exact meets_ofNeg hn hc
    | fabs => cases h; exact meets_ofAbs hn hc
    | fcopysign => cases h; exact meets_ofCopysign hn hc
    | select hcond => cases h; exact meets_ofSelect hn hcond hc
    | bitcast hbits => cases h; exact meets_ofBitcast hn hbits hc
    | buildPair _ hbits => cases h; exact meets_ofPair hn hsigns hbits hc
    | extractElement hu _ hi => cases h; exact meets_ofExtract hn hu hsigns.reads hi hc
    | _ => cases h
  · cases hlib with
    | lane hu _ _ _ hi => cases h; exact meets_ofExtract hn hu hsigns.reads hi hc
    | pair hbits => cases h; exact meets_ofPair hn hsigns hbits hc
    | _ => cases h

theorem DoubleDouble.meets_result (hc : V.T.classify t = .expandFloat)
    {rule : Target → NodeId → Nat → Edit (Value × Value)}
    (h : DoubleDouble.result? op = some rule) : V.Meets (rule V.T V.id 0) (V.Paired t) := by
  rcases hsig with hsig | ⟨hl, hlib, htakes⟩
  · cases hsig with
    | argument => cases h; exact meets_ofArgument hn hc
    | constantFp => cases h; exact meets_ofConstant hn hc
    | undef => cases h; exact meets_ofUndef hn hc
    | fneg => cases h; exact meets_ofNeg hn hc
    | select hcond => cases h; exact meets_ofSelect hn hcond hc
    | _ => cases h
  · cases hlib <;> cases h

theorem Scalarize.meets_result (hc : V.T.classify t = .scalarize)
    {rule : Target → NodeId → Nat → Edit Value} (h : Scalarize.result? op = some rule) :
    V.Meets (rule V.T V.id 0) (V.Carried t) := by
  have hsigns := hsig
  rcases hsig with hsig | ⟨hl, hlib, htakes⟩
  · cases hsig with
    | argument => cases h; exact meets_ofArgument hn hc
    | undef => cases h; exact meets_ofUndef hn hc
    | count ht => cases h; exact meets_ofUnary hn (.count ht) rfl hc
    | fneg ht => cases h; exact meets_ofUnary hn (.fneg ht) rfl hc
    | fabs ht => cases h; exact meets_ofUnary hn (.fabs ht) rfl hc
    | int ht => cases h; exact meets_ofBinary hn (.int ht) (.inl rfl) hc
    | float ht => cases h; exact meets_ofBinary hn (.float ht) (.inr rfl) hc
    | fcopysign ht => cases h; exact meets_ofBinary hn (.fcopysign ht) (.inr rfl) hc
    | select hcond => cases h; exact meets_ofSelect hn hcond hc
    | buildVector _ hlen =>
      cases h
      rw [(V.regular.scalarized hc).1] at hlen
      obtain ⟨e, rfl⟩ := List.length_eq_one_iff.1 hlen
      obtain rfl := (hsigns.writes.2.2 e (by simp)).scalar hc
      exact meets_ofBuildVector hn hc
    | insertElement _ _ hi =>
      cases h
      obtain rfl := hsigns.writes_element.scalar hc
      exact meets_ofInsert hn hi hc
    | vectorShuffle hu _ hscalar => cases h; exact meets_ofShuffle hn hu hscalar hc
    | bitcast hbits => cases h; exact meets_ofBitcast hn hbits hc
    | _ => cases h
  · cases hlib with
    | elements _ hlen =>
      cases h
      rw [(V.regular.scalarized hc).1] at hlen
      obtain ⟨e, rfl⟩ := List.length_eq_one_iff.1 hlen
      obtain rfl := (hsigns.writes.2.2 e (by simp)).scalar hc
      exact meets_ofBuildVector hn hc
    | element _ _ _ hi =>
      cases h
      obtain rfl := hsigns.writes_element.scalar hc
      exact meets_ofInsert hn hi hc
    | _ => cases h

theorem Split.meets_result (hnumbered : op.readsConstants = true → V.sem → V.numbered)
    (hc : V.T.classify t = .split)
    {rule : Target → NodeId → Nat → Edit (Value × Value)} (h : Split.result? op = some rule) :
    V.Meets (rule V.T V.id 0) (V.Paired t) := by
  have hsigns := hsig
  rcases hsig with hsig | ⟨hl, hlib, htakes⟩
  · cases hsig with
    | argument => cases h; exact meets_ofArgument hn hc
    | undef => cases h; exact meets_ofUndef hn hc
    | count ht => cases h; exact meets_ofUnary hn (.count ht) rfl hc
    | fneg ht => cases h; exact meets_ofUnary hn (.fneg ht) rfl hc
    | fabs ht => cases h; exact meets_ofUnary hn (.fabs ht) rfl hc
    | int ht => cases h; exact meets_ofBinary hn (.int ht) (.inl rfl) hc
    | float ht => cases h; exact meets_ofBinary hn (.float ht) (.inr rfl) hc
    | fcopysign ht => cases h; exact meets_ofBinary hn (.fcopysign ht) (.inr rfl) hc
    | select hcond => cases h; exact meets_ofSelect hn hcond hc
    | buildVector _ hlen => cases h; exact meets_ofBuildVector hn hlen hsigns.writes.2.2 hc
    | concatVectors hhalf =>
      cases h
      rw [V.regular.halved hc] at hhalf
      cases hhalf
      exact meets_ofConcat hn hc
    | insertElement _ _ hi =>
      cases h
      exact meets_ofInsert hn (hnumbered rfl) hsigns.writes_element hi hc
    | vectorShuffle hu => cases h; exact (meets_ofShuffle hn hu hc).mono fun _ hp => hp.1
    | bitcast hbits => cases h; exact meets_ofBitcast hn hbits hc
    | buildPair _ hbits => cases h; exact meets_ofPair hn hbits hc
    | _ => cases h
  · cases hlib with
    | elements _ hlen => cases h; exact meets_ofBuildVector hn hlen hsigns.writes.2.2 hc
    | element _ _ _ hi =>
      cases h
      exact meets_ofInsert hn (hnumbered rfl) hsigns.writes_element hi hc
    | pair hbits => cases h; exact meets_ofPair hn hbits hc
    | _ => cases h

end

namespace RewriteSpec

/-- Parts that stand for the result of the node. -/
structure Represents (V : RewriteSpec) (t : ValueType) (p : Parts) : Prop where
  suits : ∃ kind, Conversion.Suits V.T V.final.typeOf? t ⟨kind, p⟩
  parts : Tracked.all (fun w => V.Is w (V.T.transform t) (V.val w.node)) p
  datum : V.sem → V.Accepts (p.assemble V.T V.val t)

theorem Carried.represents {w : Value} (h : V.Carried t w) {kind : ConversionKind}
    (hk : (V.T.classify t).kind? = some kind) (hp : kind.isPair = false) :
    V.Represents t (.one w) :=
  ⟨⟨kind, hk, hp.symm, h.is.type⟩, h.is, h.datum⟩

theorem Paired.represents {w : Value × Value} (h : V.Paired t w) {kind : ConversionKind}
    (hk : (V.T.classify t).kind? = some kind) (hp : kind.isPair = true) :
    V.Represents t (.two w.1 w.2) :=
  ⟨⟨kind, hk, hp.symm, h.low.type, h.high.type⟩, ⟨h.low, h.high⟩, h.datum⟩

end RewriteSpec

namespace RuleSpec.Meets

theorem ofOne {rule : Target → NodeId → Nat → Edit Value}
    (h : V.Meets (rule V.T V.id 0) (V.Carried t)) {kind : ConversionKind}
    (hk : (V.T.classify t).kind? = some kind) (hp : kind.isPair = false) :
    V.Meets (ResultRule.ofOne rule V.T V.id 0) (V.Represents t) :=
  h.map fun _ hw => hw.represents hk hp

theorem ofTwo {rule : Target → NodeId → Nat → Edit (Value × Value)}
    (h : V.Meets (rule V.T V.id 0) (V.Paired t)) {kind : ConversionKind}
    (hk : (V.T.classify t).kind? = some kind) (hp : kind.isPair = true) :
    V.Meets (ResultRule.ofTwo rule V.T V.id 0) (V.Represents t) :=
  .bind h fun _ hw => .pure (hw.represents hk hp)

/-- Every result rule gives parts of the result. -/
theorem resultRule (hn : V.Shows op ts t) (hsig : V.T.Signs V.limit op ts t)
    (hnumbered : op.readsConstants = true → V.sem → V.numbered) {rule : ResultRule}
    (h : resultRule? (V.T.classify t) op = some rule) :
    V.Meets (rule V.T V.id 0) (V.Represents t) := by
  cases hc : V.T.classify t with
  | legal => rw [hc] at h; cases h
  | promoteInteger =>
    rw [hc] at h
    obtain ⟨r, hr, rfl⟩ := Option.map_eq_some_iff.1 h
    exact (Widen.meets_result hn hsig hc hr).ofOne (by rw [hc]; rfl) rfl
  | expandInteger =>
    rw [hc] at h
    obtain ⟨r, hr, rfl⟩ := Option.map_eq_some_iff.1 h
    exact (Halve.meets_result hn hsig hnumbered hc hr).ofTwo (by rw [hc]; rfl) rfl
  | promoteFloat =>
    rw [hc] at h
    obtain ⟨r, hr, rfl⟩ := Option.map_eq_some_iff.1 h
    exact (Soften.meets_result hn hsig hc hr).ofOne (by rw [hc]; rfl) rfl
  | expandFloat =>
    rw [hc] at h
    obtain ⟨r, hr, rfl⟩ := Option.map_eq_some_iff.1 h
    exact (DoubleDouble.meets_result hn hsig hc hr).ofTwo (by rw [hc]; rfl) rfl
  | scalarize =>
    rw [hc] at h
    obtain ⟨r, hr, rfl⟩ := Option.map_eq_some_iff.1 h
    exact (Scalarize.meets_result hn hsig hc hr).ofOne (by rw [hc]; rfl) rfl
  | split =>
    rw [hc] at h
    obtain ⟨r, hr, rfl⟩ := Option.map_eq_some_iff.1 h
    exact (Split.meets_result hn hsig hnumbered hc hr).ofTwo (by rw [hc]; rfl) rfl

end RuleSpec.Meets

/-! ### Operands -/

/-- A successor that takes the place of the result of the node. -/
def RewriteSpec.Succeeds (V : RewriteSpec) (t : ValueType) (s : Successor) : Prop :=
  ∃ w, s = .value w ∧ V.Stands t w

theorem RuleSpec.Meets.value {x : Edit Value} (h : V.Meets x (V.Stands t)) :
    V.Meets (Successor.value <$> x) (V.Succeeds t) :=
  h.map fun w hw => ⟨w, rfl, hw⟩

/-- An illegal operand of a selection of legal values is the condition. -/
theorem RewriteSpec.condition_of_illegal {c : ValueType} (hlegal : V.T.classify t = .legal)
    (hi : [c, t, t][i]? = some u) (hc : V.T.classify u ≠ .legal) : i = 0 ∧ u = c := by
  match i with
  | 0 => exact ⟨rfl, (Option.some.inj hi).symm⟩
  | 1 | 2 =>
    cases hi
    exact absurd hlegal hc
  | _ + 3 => cases hi

section
variable (hn : V.Shows op ts t) (hsig : V.T.Signs V.limit op ts t)
  (hlegal : V.T.classify t = .legal) (hi : ts[i]? = some u) {rule : OperandRule}
include hn hsig hlegal hi

theorem Widen.meets_operand (hc : V.T.classify u = .promoteInteger)
    (h : Widen.operand? op = some rule) : V.Meets (rule V.T V.id i) (V.Succeeds t) := by
  have hmem := List.mem_of_getElem? hi
  have hat (s : ValueType) (hs : ts[i]? = some s) : V.T.classify s = .promoteInteger := by
    rw [hi] at hs
    exact Option.some.inj hs ▸ hc
  have hsigns := hsig
  rcases hsig with hsig | ⟨hl, hlib, htakes⟩
  · cases hsig with
    | setcc _ ht =>
      cases h
      obtain rfl : u = _ := by simpa using hmem
      exact (meets_inSetcc hn ht hlegal hc).value
    | select =>
      cases h
      obtain ⟨rfl, rfl⟩ := condition_of_illegal hlegal hi (by rw [hc]; simp)
      exact (meets_inSelect hn hc).value
    | zeroExtend _ ht hlt =>
      cases h
      obtain rfl : u = _ := by simpa using hmem
      exact (meets_inExtension .zero hn ht hlegal hlt hc).value
    | signExtend _ ht hlt =>
      cases h
      obtain rfl : u = _ := by simpa using hmem
      exact (meets_inExtension .sign hn ht hlegal hlt hc).value
    | anyExtend _ ht hlt =>
      cases h
      obtain rfl : u = _ := by simpa using hmem
      exact (meets_inExtension .any hn ht hlegal hlt hc).value
    | buildPair _ hbits =>
      cases h
      obtain rfl : u = _ := by simpa using hmem
      exact (meets_inPair hn hlegal hbits hc).value
    | buildVector ht hlen =>
      cases h
      exact (meets_inBuildVector hn ht hlen hsigns.writes.2.2 hlegal hi hc).value
    | insertElement ht _ hindex =>
      cases h
      exact (meets_inInsert hn ht hsigns.writes_element hindex hlegal i hat).value
    | extractElement hu _ hindex =>
      cases h
      exact ((meets_inExtract hn hu hsigns.reads hindex i hat).mono fun _ hw => hw.1).value
    | _ => cases h
  · cases hlib with
    | elements ht hlen =>
      cases h
      exact (meets_inBuildVector hn ht hlen hsigns.writes.2.2 hlegal hi hc).value
    | element ht _ _ hindex =>
      cases h
      exact (meets_inInsert hn ht hsigns.writes_element hindex hlegal i hat).value
    | lane hu _ _ _ hindex =>
      cases h
      exact ((meets_inExtract hn hu hsigns.reads hindex i hat).mono fun _ hw => hw.1).value
    | pair hbits =>
      cases h
      obtain rfl : u = _ := by simpa using hmem
      exact (meets_inPair hn hlegal hbits hc).value
    | zeroExtend _ hu | anyExtend _ hu =>
      obtain rfl : u = _ := by simpa using hmem
      exact absurd (V.regular.promoted hc).1 hu

theorem Halve.meets_operand (hc : V.T.classify u = .expandInteger)
    (h : Halve.operand? op = some rule) : V.Meets (rule V.T V.id i) (V.Succeeds t) := by
  have hmem := List.mem_of_getElem? hi
  rcases hsig with hsig | ⟨hl, hlib, htakes⟩
  · cases hsig with
    | truncate _ ht hlt =>
      cases h
      obtain rfl : u = _ := by simpa using hmem
      exact (meets_inTruncate hn ht hlt hlegal hc).value
    | setcc _ ht =>
      cases h
      obtain rfl : u = _ := by simpa using hmem
      exact (meets_inSetcc hn ht hlegal hc).value
    | select =>
      cases h
      obtain ⟨rfl, rfl⟩ := condition_of_illegal hlegal hi (by rw [hc]; simp)
      exact (meets_inSelect hn hc).value
    | bitcast hbits =>
      cases h
      obtain rfl : u = _ := by simpa using hmem
      exact (meets_inBitcast hn hbits hlegal hc).value
    | _ => cases h
  · cases hlib <;> cases h

theorem Soften.meets_operand (hc : V.T.classify u = .promoteFloat)
    (h : Soften.operand? op = some rule) : V.Meets (rule V.T V.id i) (V.Succeeds t) := by
  have hmem := List.mem_of_getElem? hi
  rcases hsig with hsig | ⟨hl, hlib, htakes⟩
  · cases hsig with
    | bitcast hbits =>
      cases h
      obtain rfl : u = _ := by simpa using hmem
      exact (meets_inBitcast hn hbits hc).value
    | _ => cases h
  · cases hlib <;> cases h

theorem DoubleDouble.meets_operand (hc : V.T.classify u = .expandFloat)
    (h : DoubleDouble.operand? op = some rule) : V.Meets (rule V.T V.id i) (V.Succeeds t) := by
  have hmem := List.mem_of_getElem? hi
  rcases hsig with hsig | ⟨hl, hlib, htakes⟩
  · cases hsig with
    | roundDoubleDouble =>
      cases h
      obtain rfl : u = _ := by simpa using hmem
      exact (meets_inRound hn hlegal hc).value
    | roundDouble =>
      obtain rfl : u = _ := by simpa using hmem
      cases (V.regular.paired hc).1
    | _ => cases h
  · cases hlib <;> cases h

theorem Scalarize.meets_operand (hc : V.T.classify u = .scalarize)
    (h : Scalarize.operand? op = some rule) : V.Meets (rule V.T V.id i) (V.Succeeds t) := by
  have hmem := List.mem_of_getElem? hi
  have hat (s : ValueType) (hs : ts[i]? = some s) : V.T.classify s = .scalarize := by
    rw [hi] at hs
    exact Option.some.inj hs ▸ hc
  have hsigns := hsig
  rcases hsig with hsig | ⟨hl, hlib, htakes⟩
  · cases hsig with
    | extractElement _ _ hindex =>
      cases h
      exact (meets_inExtract hn hsigns.reads hindex hlegal i hat).value
    | bitcast hbits =>
      cases h
      obtain rfl : u = _ := by simpa using hmem
      exact (meets_inBitcast hn hbits hc).value
    | _ => cases h
  · cases hlib with
    | lane _ _ _ _ hindex =>
      cases h
      exact (meets_inExtract hn hsigns.reads hindex hlegal i hat).value
    | _ => cases h

theorem Split.meets_operand (hnumbered : op.readsConstants = true → V.sem → V.numbered)
    (hc : V.T.classify u = .split)
    (h : Split.operand? op = some rule) : V.Meets (rule V.T V.id i) (V.Succeeds t) := by
  have hmem := List.mem_of_getElem? hi
  have hat (s : ValueType) (hs : ts[i]? = some s) : V.T.classify s = .split := by
    rw [hi] at hs
    exact Option.some.inj hs ▸ hc
  have hsigns := hsig
  rcases hsig with hsig | ⟨hl, hlib, htakes⟩
  · cases hsig with
    | extractElement _ _ hindex =>
      cases h
      exact (meets_inExtract hn (hnumbered rfl) hsigns.reads hindex i hat).value
    | bitcast hbits =>
      cases h
      obtain rfl : u = _ := by simpa using hmem
      exact (meets_inBitcast hn hbits hlegal hc).value
    | vectorShuffle _ ht hscalar =>
      cases h
      obtain rfl : u = _ := by simpa using hmem
      exact ((meets_inShuffle hn ht hscalar hlegal hc).mono fun _ hw => hw.1).value
    | _ => cases h
  · cases hlib with
    | lane _ _ _ _ hindex =>
      cases h
      exact (meets_inExtract hn (hnumbered rfl) hsigns.reads hindex i hat).value
    | _ => cases h

/-- Every operand rule gives a value in the place of the result. -/
theorem RuleSpec.Meets.operandRule
    (hnumbered : op.readsConstants = true → V.sem → V.numbered)
    (h : operandRule? (V.T.classify u) op = some rule) :
    V.Meets (rule V.T V.id i) (V.Succeeds t) := by
  cases hc : V.T.classify u with
  | legal => rw [hc] at h; cases h
  | promoteInteger => rw [hc] at h; exact Widen.meets_operand hn hsig hlegal hi hc h
  | expandInteger => rw [hc] at h; exact Halve.meets_operand hn hsig hlegal hi hc h
  | promoteFloat => rw [hc] at h; exact Soften.meets_operand hn hsig hlegal hi hc h
  | expandFloat => rw [hc] at h; exact DoubleDouble.meets_operand hn hsig hlegal hi hc h
  | scalarize => rw [hc] at h; exact Scalarize.meets_operand hn hsig hlegal hi hc h
  | split => rw [hc] at h; exact Split.meets_operand hn hsig hlegal hi hnumbered hc h

end

/-- Every rule for an output gives an output that observes the same bits. -/
theorem RuleSpec.Meets.outputRule (hop : V.node.opcode = .output) (hresults : V.node.results = [])
    (hi : V.types[i]? = some u) {rule : OperandRule}
    (h : operandRule? (V.T.classify u) .output = some rule) :
    V.Meets (rule V.T V.id i) V.Observes := by
  cases hc : V.T.classify u with
  | legal => rw [hc] at h; cases h
  | promoteInteger => rw [hc] at h; cases h; exact Widen.meets_inOutput hop hresults hi hc
  | expandInteger => rw [hc] at h; cases h; exact Halve.meets_inOutput hop hresults hi hc
  | promoteFloat => rw [hc] at h; cases h; exact Soften.meets_inOutput hop hresults hi hc
  | expandFloat => rw [hc] at h; cases h; exact DoubleDouble.meets_inOutput hop hresults hi hc
  | scalarize => rw [hc] at h; cases h; exact Scalarize.meets_inOutput hop hresults hi hc
  | split => rw [hc] at h; cases h; exact Split.meets_inOutput hop hresults hi hc

/-! ### Scalar integer code -/

end Legal

namespace Target

open Legal

variable {T : Target} {wide : ValueType → ValueType → Prop} {op : Opcode} {ts : List ValueType}
  {t u : ValueType} {i : Nat}

/-- Between two legal words there is no illegal one. -/
def Contiguous (T : Target) : Prop :=
  ∀ a b c : ValueType, a.IsWord → b.IsWord → c.IsWord → a.bits < b.bits → b.bits < c.bits →
    T.classify a = .legal → T.classify c = .legal → T.classify b = .legal

/-- A rule converts the result of scalar integer code. -/
theorem Plain.resultRule?_isSome (hT : T.Regular) (hp : T.Plain op (t :: ts))
    (hsig : Signature wide op ts t) (hc : T.classify t ≠ .legal) :
    (resultRule? (T.classify t) op).isSome := by
  have hop := hp.opcode
  rcases hT.word_cases (hp.words t List.mem_cons_self) with hlegal | hwide | hhalf
  · exact absurd hlegal hc
  · rw [hwide]
    cases hsig with
    | @int op =>
      cases op with
      | mulhu => exact absurd hwide (hp.mulhu rfl t List.mem_cons_self)
      | _ => rfl
    | @count op => cases op <;> rfl
    | constantFp | float | fcopysign | fneg | fabs | bitcast | roundDoubleDouble | roundDouble
    | buildVector | extractElement | insertElement | vectorShuffle | concatVectors => cases hop
    | _ => rfl
  · rw [hhalf]
    cases hsig with
    | @int op => cases op <;> rfl
    | @count op => cases op <;> rfl
    | setcc => exact absurd hhalf (hp.setcc rfl t rfl)
    | constantFp | float | fcopysign | fneg | fabs | bitcast | roundDoubleDouble | roundDouble
    | buildVector | extractElement | insertElement | vectorShuffle | concatVectors => cases hop
    | _ => rfl

/-- A rule takes an illegal operand of scalar integer code of a legal result. Truncation of a
promoted operand has none: its type would lie between two legal ones. -/
theorem Plain.operandRule?_isSome (hT : T.Regular) (hcontiguous : T.Contiguous)
    (hp : T.Plain op (t :: ts)) (hsig : Signature wide op ts t) (hlegal : T.classify t = .legal)
    (hi : ts[i]? = some u) (hc : T.classify u ≠ .legal) :
    (operandRule? (T.classify u) op).isSome := by
  have hop := hp.opcode
  have hmem := List.mem_of_getElem? hi
  have hword := hp.words u (List.mem_cons_of_mem t hmem)
  rcases hT.word_cases hword with hlegal' | hwide | hhalf
  · exact absurd hlegal' hc
  · rw [hwide]
    cases hsig with
    | int | count =>
      obtain rfl : u = t := by simpa using hmem
      exact absurd hlegal hc
    | truncate _ ht hlt =>
      obtain rfl : u = _ := by simpa using hmem
      obtain ⟨_, hcarrier, hlt', hlegal'⟩ := hT.promoted hwide
      exact absurd (hcontiguous _ _ _ ht hword hcarrier hlt hlt' hlegal hlegal') hc
    | argument | constant | undef => cases hi
    | constantFp | float | fcopysign | fneg | fabs | bitcast | roundDoubleDouble | roundDouble
    | buildVector | extractElement | insertElement | vectorShuffle | concatVectors => cases hop
    | _ => rfl
  · rw [hhalf]
    have hwider (hle : u.bits < t.bits) : False := by
      have := hT.bits_le_of_expanded hhalf (hp.words t List.mem_cons_self) (by rw [hlegal]; simp)
      omega
    cases hsig with
    | int | count =>
      obtain rfl : u = t := by simpa using hmem
      exact absurd hlegal hc
    | zeroExtend _ _ hlt | signExtend _ _ hlt | anyExtend _ _ hlt =>
      obtain rfl : u = _ := by simpa using hmem
      exact (hwider hlt).elim
    | buildPair _ hbits =>
      obtain rfl : u = _ := by simpa using hmem
      exact (hwider (by have := u.bits_pos; omega)).elim
    | argument | constant | undef => cases hi
    | constantFp | float | fcopysign | fneg | fabs | bitcast | roundDoubleDouble | roundDouble
    | buildVector | extractElement | insertElement | vectorShuffle | concatVectors => cases hop
    | _ => rfl

/-- Outputs take every illegal operand. -/
theorem outputRule?_isSome (T : Target) (hc : T.classify u ≠ .legal) :
    (operandRule? (T.classify u) .output).isSome := by
  cases h : T.classify u with
  | legal => exact absurd h hc
  | _ => rfl

end Target

end Dataflow
