import Dataflow.Legal.Halve.Reinterpret
import Dataflow.Proofs.Rules.Halve.Limbs

/-!
# Comparisons and bit counts of two halves

Orderings are decided by the high halves and, on a tie, by the low ones; zeros are counted through
the half that is zero. In any logic of words.
-/

namespace Dataflow.Legal.WordLogic

open Halve

variable {L : WordLogic} {T : Target} {id : NodeId} {slot : Nat} {half t : ValueType}
  {c : Condition}
  {p q : Value × Value} {x y : Nat}

/-! ### Comparisons -/

section
variable (hhalf : L.Works 5 half) (hx : L.IsPair half p x) (hy : L.IsPair half q y)
include hhalf hx hy

theorem meets_equality (hc : c.isEquality = true) (ht : L.Flag t) :
    L.Meets (equality c p q t) fun w => L.Is w t (c.test (2 * half.bits) x y).toNat := by
  obtain ⟨a, b, ha, hb, hx⟩ := hx
  obtain ⟨a', b', ha', hb', hy⟩ := hy
  refine .typeOf_bind ha ?_
  refine .bind (int hhalf .xor ha ha' (by decide)) fun lo hlo => ?_
  refine .bind (int hhalf .xor hb hb' (by decide)) fun hi hhi => ?_
  refine .bind (int hhalf .or hlo hhi (by decide)) fun difference hdifference => ?_
  refine .bind (L.constant hhalf 0) fun zero hzero => ?_
  rw [Nat.zero_mod] at hzero
  refine (L.setcc ht hhalf c hdifference hzero).mono fun w hw => L.congr hw fun hs => ?_
  rw [hx hs, hy hs, Condition.test_equality hc (L.lt ha hs) (L.lt ha' hs)]

theorem meets_ordering (hc : c.isEquality = false) (hle : half.bits ≤ 64)
    (hflag : L.Flag (T.compareType half)) (ht : L.Works 1 t) :
    L.Meets (ordering T c p q t) fun w => L.Is w t (c.test (2 * half.bits) x y).toNat := by
  obtain ⟨a, b, ha, hb, hx⟩ := hx
  obtain ⟨a', b', ha', hb', hy⟩ := hy
  have hflag₀ := L.works_flag (s := 0) hflag
  refine .typeOf_bind ha ?_
  refine .bind (L.setcc hflag hhalf _ ha ha') fun loCompare hloCompare => ?_
  refine .bind (L.setcc hflag hhalf _ hb hb') fun hiCompare hhiCompare => ?_
  refine .bind (L.setcc hflag hhalf .eq hb hb') fun hiEqual hhiEqual => ?_
  refine .bind (L.select hflag₀ hflag₀ hhiEqual hloCompare hhiCompare) fun result hresult => ?_
  have hresult : L.Is result _ (if b = b' then c.toUnsigned.test half.bits a a' else
      c.test half.bits b b').toNat := L.congr hresult fun _ => by
    by_cases h : b = b' <;> simp [Condition.test, h]
  refine (resizeFlag (L.works_flag hflag) ht _ hresult).mono fun w hw => L.congr hw fun hs => ?_
  rw [hx hs, hy hs, Condition.test_ordering hc half.bits_pos (by omega) (L.lt ha hs) (L.lt hb hs)
    (L.lt ha' hs) (L.lt hb' hs)]

end

theorem meets_inSetcc (hhalf : L.Works 5 half) (hle : half.bits ≤ 64)
    (hflag : L.Flag (T.compareType half)) (ht : L.Flag t)
    (htype : L.Meets (Edit.resultType id 0) (t = ·)) {P : Condition → Prop}
    (hcond : L.Meets (Edit.predicate id) P) (hxy : L.Operands half id x y) :
    L.Meets (inSetcc T id) fun w => ∃ c, P c ∧ L.Is w t (c.test (2 * half.bits) x y).toNat := by
  refine .bind htype ?_
  rintro _ rfl
  refine .bind hcond fun c hP => .bind hxy ?_
  rintro ⟨p, q⟩ ⟨hx, hy⟩
  dsimp only
  split
  · next hc => exact (meets_equality hhalf hx hy hc ht).mono fun w hw => ⟨c, hP, hw⟩
  · next hc =>
    exact (meets_ordering hhalf hx hy (by simpa using hc) hle hflag (L.works_flag ht)).mono
      fun w hw => ⟨c, hP, hw⟩

/-! ### Bit counts -/

/-- The halves of the first operand of a node. -/
def Operand (L : WordLogic) (half : ValueType) (id : NodeId) (x : Nat) : Prop :=
  L.Meets (Edit.operand id 0 >>= Edit.halves) fun p => L.IsPair half p x

section
variable (hhalf : L.Works 5 half) (hle : 8 ≤ half.bits)
  (htype : L.Meets (halfType T id slot) (half = ·)) (hx : L.Operand half id x)
include hhalf hle htype hx

theorem meets_ofOnes : L.Meets (ofOnes T id slot) fun p =>
    L.IsPair half p (Word.count .ones (2 * half.bits) x) := by
  refine .bind htype ?_
  rintro _ rfl
  rw [← bind_assoc]
  refine .bind hx ?_
  rintro ⟨lo, hi⟩ ⟨a, b, ha, hb, hx⟩
  refine .bind (L.count hhalf .ones ha) fun lo' hlo' => ?_
  refine .bind (L.count hhalf .ones hb) fun hi' hhi' => ?_
  refine .bind (int hhalf .add hlo' hhi' (by decide)) fun count hcount => ?_
  refine .bind (L.constant hhalf 0) fun zero hzero => .pure ⟨_, _, hcount, hzero, fun hs => ?_⟩
  rw [hx hs, Word.ones_halves (by omega) (L.lt ha hs), Nat.zero_mod, Nat.mul_zero, Nat.add_zero]

theorem meets_ofLeadingZeros (hflag : L.Flag (T.compareType half)) :
    L.Meets (ofLeadingZeros T id slot) fun p =>
      L.IsPair half p (Word.count .leadingZeros (2 * half.bits) x) := by
  refine .bind htype ?_
  rintro _ rfl
  rw [← bind_assoc]
  refine .bind hx ?_
  rintro ⟨lo, hi⟩ ⟨a, b, ha, hb, hx⟩
  refine .bind (L.constant hhalf 0) fun zero hzero => ?_
  rw [Nat.zero_mod] at hzero
  refine .bind (L.setcc hflag hhalf .eq hb hzero) fun isZero hisZero => ?_
  refine .bind (L.count hhalf .leadingZeros ha) fun loCount hloCount => ?_
  refine .bind (L.constant hhalf _) fun width hwidth => ?_
  rw [ValueType.width_mod (Nat.le_refl _)] at hwidth
  refine .bind (int hhalf .add hloCount hwidth (by decide)) fun loCount' hloCount' => ?_
  refine .bind (L.count hhalf .leadingZeros hb) fun hiCount hhiCount => ?_
  refine .bind (L.select (L.works_flag hflag) hhalf hisZero hloCount' hhiCount) fun count hcount =>
    .pure ⟨_, _, hcount, hzero, fun hs => ?_⟩
  rw [hx hs, Word.leadingZeros_halves (by omega) (L.lt ha hs), Nat.mul_zero, Nat.add_zero]
  by_cases h : b = 0 <;> simp [Condition.test, h]

theorem meets_ofTrailingZeros (hflag : L.Flag (T.compareType half)) :
    L.Meets (ofTrailingZeros T id slot) fun p =>
      L.IsPair half p (Word.count .trailingZeros (2 * half.bits) x) := by
  refine .bind htype ?_
  rintro _ rfl
  rw [← bind_assoc]
  refine .bind hx ?_
  rintro ⟨lo, hi⟩ ⟨a, b, ha, hb, hx⟩
  refine .bind (L.constant hhalf 0) fun zero hzero => ?_
  rw [Nat.zero_mod] at hzero
  refine .bind (L.setcc hflag hhalf .eq ha hzero) fun isZero hisZero => ?_
  refine .bind (L.count hhalf .trailingZeros hb) fun hiCount hhiCount => ?_
  refine .bind (L.constant hhalf _) fun width hwidth => ?_
  rw [ValueType.width_mod (Nat.le_refl _)] at hwidth
  refine .bind (int hhalf .add hhiCount hwidth (by decide)) fun hiCount' hhiCount' => ?_
  refine .bind (L.count hhalf .trailingZeros ha) fun loCount hloCount => ?_
  refine .bind (L.select (L.works_flag hflag) hhalf hisZero hhiCount' hloCount) fun count hcount =>
    .pure ⟨_, _, hcount, hzero, fun hs => ?_⟩
  rw [hx hs, Word.trailingZeros_halves (by omega) (L.lt ha hs), Nat.mul_zero, Nat.add_zero]
  by_cases h : a = 0 <;> simp [Condition.test, h]

end

end Dataflow.Legal.WordLogic
