import Dataflow.Proofs.Rules.Leaves

/-!
# Double-doubles in two parts

The low part of a double-double is in its low bits, and the parts are floats of half its width.
-/

namespace Dataflow

namespace FloatBits

variable {x y : Nat}

/-- A double-double has a sign bit in each half. -/
theorem xor_signMask (hx : x < 2 ^ 64) : (x + 2 ^ 64 * y) ^^^ signMask .ppcf128 =
    (x ^^^ 2 ^ 63) + 2 ^ 64 * (y ^^^ 2 ^ 63) := by
  have hxor : x ^^^ 2 ^ 63 < 2 ^ 64 := Nat.xor_lt_two_pow hx (by decide)
  rw [Nat.add_comm x, Nat.add_comm (x ^^^ 2 ^ 63)]
  refine Nat.eq_of_testBit_eq fun i => ?_
  have hmask : signMask .ppcf128 = 2 ^ 64 * 2 ^ 63 + 2 ^ 63 := by decide
  rw [hmask, Nat.testBit_xor, Nat.testBit_two_pow_mul_add _ hx, Nat.testBit_two_pow_mul_add _ hxor,
    Nat.testBit_two_pow_mul_add _ (by decide)]
  split <;> rw [Nat.testBit_xor]

/-- Rounding a double-double adds its parts. -/
theorem roundDoubleDouble_eq (hx : x < 2 ^ 64) :
    binary? .add .f64 y x = some (roundDoubleDouble (x + 2 ^ 64 * y)) := by
  have hlow : UInt64.ofNat (x + 2 ^ 64 * y) = .ofNat x := by
    refine UInt64.toNat_inj.1 ?_
    rw [UInt64.toNat_ofNat', UInt64.toNat_ofNat', Nat.add_mul_mod_self_left]
  have hhigh : (x + 2 ^ 64 * y) >>> 64 = y := by
    rw [Nat.shiftRight_eq_div_pow, Nat.add_mul_div_left _ _ (by decide), Nat.div_eq_of_lt hx,
      Nat.zero_add]
  simp only [binary?, roundDoubleDouble, hlow, hhigh]
  rfl

end FloatBits

namespace Legal.DoubleDouble

open RuleSpec RewriteSpec

variable {V : RewriteSpec} {t : ValueType}

/-- Operations on the parts may be added. -/
theorem admits_parts {op op' : Opcode} {ts us : List ValueType} (hn : V.Shows op ts t)
    (hc : V.T.classify t = .expandFloat) (hop : op' ≠ .buildPair) (hus : ∀ u ∈ us, u = .f64) :
    V.Admits op' us := by
  obtain ⟨rfl, hpart⟩ := V.regular.paired hc
  have hlight := Target.weight_transform_lt V.regular (t := .ppcf128) (by rw [hc]; simp)
  rw [hpart] at hlight
  refine .of_small hop (fun u hu => ?_) fun h =>
    absurd h (hn.not_total_of_mem List.mem_cons_self (by decide))
  rw [hus u hu]
  exact .lighter hn.mem hlight op'.stage_le

/-- Two parts that make up the datum. -/
theorem paired {p : Value × Value} {x y : Nat} (hc : V.T.classify t = .expandFloat)
    (hlo : V.Is p.1 .f64 (.scalar x)) (hhi : V.Is p.2 .f64 (.scalar y))
    (hd : V.sem → V.Accepts (.scalar (x + 2 ^ 64 * y))) : V.Paired t p := by
  obtain ⟨rfl, hpart⟩ := V.regular.paired hc
  rw [← hpart] at hlo hhi
  refine hlo.pairedWords hhi rfl (by rw [hpart]; rfl) fun hs => ?_
  rw [hpart]
  exact hd hs

theorem meets_ofArgument (hn : V.Shows .argument [] t) (hc : V.T.classify t = .expandFloat) :
    V.Meets (ofArgument V.T V.id 0) (V.Paired t) := by
  obtain ⟨ht, hpart⟩ := V.regular.paired hc
  refine .bind (.transformed hn) ?_
  rintro _ rfl
  exact Meets.argumentParts (by rw [hc]; simp) hn (by rw [hpart, ht]; rfl)

theorem meets_ofConstant (hn : V.Shows .constantFp [] t) (hc : V.T.classify t = .expandFloat) :
    V.Meets (ofConstant V.T V.id 0) (V.Paired t) := by
  obtain ⟨rfl, hpart⟩ := V.regular.paired hc
  refine .bind (.transformed hn) ?_
  rintro _ rfl
  rw [hpart]
  have hadmits : V.Admits .constantFp [.f64] := admits_parts hn hc (by simp) (by simp)
  refine .bind (.immediate hn (.inr rfl)) fun bits hattr => ?_
  refine .bind (.constantFp rfl hadmits bits) fun lo hlo => ?_
  refine .bind (.shiftedRight bits (by decide)) ?_
  rintro _ rfl
  refine .bind (.constantFp rfl hadmits _) fun hi hhi => .pure (paired hc hlo hhi fun hs => ?_)
  rw [hn.accepts_iff (by simp), hn.datum_literal hs (.inr rfl) rfl hattr.1]
  exact congrArg Datum.scalar (Word.mod_add_div_mod bits 64 64)

theorem meets_ofUndef (hn : V.Shows .undef [] t) (hc : V.T.classify t = .expandFloat) :
    V.Meets (ofUndef V.T V.id 0) (V.Paired t) := by
  refine .bind (.transformed hn) ?_
  rintro _ rfl
  exact Meets.undefParts (by rw [hc]; simp) hn

theorem meets_ofNeg (hn : V.Shows .fneg [t] t) (hc : V.T.classify t = .expandFloat) :
    V.Meets (ofNeg V.id) (V.Paired t) := by
  obtain ⟨rfl, _⟩ := V.regular.paired hc
  have hneg {v : Value} {x : Nat} (hv : V.Is v .f64 (.scalar x)) :
      V.Meets (Edit.unary .fneg v) fun w => V.Is w .f64 (.scalar (x ^^^ 2 ^ 63)) :=
    .unary rfl (.fneg rfl) (admits_parts hn hc (by simp) (by simp)) hv fun _ _ _ _ => rfl
  refine .bind (.operandWord (hn.operandType rfl) rfl) fun v hv => ?_
  refine .bind (.floatParts hv.1 hv.2 hc) ?_
  rintro ⟨lo, hi⟩ ⟨x, y, hlo, hhi, hxy⟩
  refine .bind (hneg hlo) fun lo' hlo' => .bind (hneg hhi) fun hi' hhi' => .pure ?_
  refine paired hc hlo' hhi' fun hs => ?_
  rw [hn.accepts_iff (by simp), hn.datum_unary hs rfl rfl (by simp) rfl, hxy hs]
  exact congrArg Datum.scalar (FloatBits.xor_signMask (hlo.lt hs)).symm

theorem meets_ofSelect {c : ValueType} (hn : V.Shows .select [c, t, t] t) (hcond : c.IsWord)
    (hc : V.T.classify t = .expandFloat) : V.Meets (ofSelect V.id) (V.Paired t) := by
  obtain ⟨rfl, hpart⟩ := V.regular.paired hc
  have hlight := Target.weight_transform_lt V.regular (t := .ppcf128) (by rw [hc]; simp)
  rw [hpart] at hlight
  have hadmits : V.Admits .select [.f64, c, .f64, .f64] :=
    hn.admits (by simp) (by simp [Nat.le_of_lt hlight]) (by simp; omega) fun h =>
      absurd h (hn.not_total_of_mem List.mem_cons_self (by decide))
  refine .bind (.operandWord (hn.operandType rfl) hcond.2) fun cond hk => ?_
  refine .bind (.operandWord (hn.operandType rfl) rfl) fun a ha => ?_
  refine .bind (.operandWord (hn.operandType rfl) rfl) fun b hb => ?_
  refine .bind (.floatParts ha.1 ha.2 hc) ?_
  rintro ⟨aLo, aHi⟩ ⟨x, x', haLo, haHi, hx⟩
  refine .bind (.floatParts hb.1 hb.2 hc) ?_
  rintro ⟨bLo, bHi⟩ ⟨y, y', hbLo, hbHi, hy⟩
  refine .bind (.selectOf hcond hadmits hk.2 haLo hbLo) fun lo hlo => ?_
  refine .bind (.selectOf hcond hadmits hk.2 haHi hbHi) fun hi hhi => .pure ?_
  have hlo := hlo.congr (e := .scalar (if V.bitsOf 0 ≠ 0 then x else y)) fun _ => by split <;> rfl
  have hhi := hhi.congr (e := .scalar (if V.bitsOf 0 ≠ 0 then x' else y')) fun _ => by split <;> rfl
  refine paired hc hlo hhi fun hs => ?_
  rw [hn.accepts_iff (by simp), hn.datum_select hs hcond,
    V.data_scalar hs (hn.operandType (i := 1) rfl) rfl,
    V.data_scalar hs (hn.operandType (i := 2) rfl) rfl, hx hs, hy hs]
  split <;> rfl

/-! ### Operands -/

theorem meets_inRound (hn : V.Shows .fpRound [.ppcf128] .f64)
    (hlegal : V.T.classify .f64 = .legal) (hc : V.T.classify .ppcf128 = .expandFloat) :
    V.Meets (inRound V.id) (V.Stands .f64) := by
  refine .bind (.resultType hn.results) ?_
  rintro _ rfl
  refine .bind (.operandWord (hn.operandType rfl) rfl) fun v hv => ?_
  refine .bind (.floatParts hv.1 hv.2 hc) ?_
  rintro ⟨lo, hi⟩ ⟨x, y, hlo, hhi, hxy⟩
  refine .typeOf_bind hhi ?_
  rw [if_neg (not_not.2 rfl)]
  have hadmits : V.Admits (.float .add) [.f64, .f64, .f64] :=
    .of_small (by simp) (by simpa using .legal hlegal) fun h => absurd h (hn.not_total rfl)
  refine (Meets.binary (.inr rfl) (.float rfl) hadmits hhi hlo fun hs ops attr types => ?_).mono
    fun w hw => hw.stands (d := .scalar (FloatBits.roundDoubleDouble (V.bitsOf 0))) fun hs => ?_
  · rw [Node.meaning_lanes₂ (.float rfl : Signature V.T.Wide _ _ _) (.inr rfl)]
    refine Node.lanewise₂_scalar rfl ?_
    rw [hxy hs]
    simp only [Node.lane₂]
    rw [show ValueType.f64.scalar = .f64 from rfl, FloatBits.roundDoubleDouble_eq (hlo.lt hs)]
  · rw [hn.accepts_iff (by simp)]
    have hmeans := hn.means (by simp) hs
    rw [show (List.range [ValueType.ppcf128].length).map V.data = [V.data 0] from rfl,
      V.data_scalar hs (hn.operandType rfl) rfl] at hmeans
    exact Except.ok.inj hmeans

end Legal.DoubleDouble

end Dataflow
