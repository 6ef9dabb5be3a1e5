import Dataflow.Proofs.Rules.Halve.Counts
import Dataflow.Proofs.Rules.Leaves

/-!
# Integers in two halves: arithmetic

The halves that the rules make are the halves of the result.
-/

namespace Dataflow.Legal.Halve

open RuleSpec RewriteSpec

variable {V : RewriteSpec} {t u : ValueType} {op : Opcode} {ts : List ValueType} {a b : Value}
  {x y : Nat}

/-- What is known of a type that is expanded. -/
theorem expanded (hc : V.T.classify t = .expandInteger) : t.IsWord ∧ (V.T.transform t).IsWord ∧
    t.bits = 2 * (V.T.transform t).bits ∧ 8 ≤ (V.T.transform t).bits ∧
      V.T.weight (V.T.transform t) < V.T.weight t := by
  obtain ⟨hword, hhalf, hbits, _⟩ := V.regular.expanded hc
  refine ⟨hword, hhalf, hbits, ?_, Target.weight_transform_lt V.regular (by rw [hc]; simp)⟩
  rcases hword.bits_cases with h | h | h | h | h | h <;>
    rcases hhalf.bits_cases with h' | h' | h' | h' | h' | h' <;> omega

/-- Halves of the datum. -/
theorem paired {p : Value × Value} (hc : V.T.classify t = .expandInteger)
    (hlo : V.Is p.1 (V.T.transform t) (.scalar x)) (hhi : V.Is p.2 (V.T.transform t) (.scalar y))
    (hd : V.sem → V.Accepts (.scalar (x + 2 ^ (V.T.transform t).bits * y))) : V.Paired t p :=
  hlo.pairedWords hhi (expanded hc).1.2 (expanded hc).2.2.1 hd

/-! ### Leaves -/

theorem meets_ofArgument (hn : V.Shows .argument [] t) (hc : V.T.classify t = .expandInteger) :
    V.Meets (ofArgument V.T V.id 0) (V.Paired t) := by
  refine .bind (.transformed hn) ?_
  rintro _ rfl
  exact Meets.argumentParts (by rw [hc]; simp) hn (expanded hc).2.2.1

theorem meets_ofConstant (hn : V.Shows .constant [] t) (hc : V.T.classify t = .expandInteger) :
    V.Meets (ofConstant V.T V.id 0) (V.Paired t) := by
  obtain ⟨hword, hhalf, hbits, _, _⟩ := expanded hc
  have hle := hword.bits_le
  refine .bind (.transformed hn) ?_
  rintro _ rfl
  refine .bind (.immediate hn (.inl rfl)) fun bits hattr => ?_
  refine .bind (.constant (.half hn.mem hc) bits) fun lo hlo => ?_
  refine .bind (.shiftedRight bits (by omega)) ?_
  rintro _ rfl
  refine .bind (.constant (.half hn.mem hc) _) fun hi hhi => .pure (paired hc hlo hhi fun hs => ?_)
  rw [hn.accepts_iff (by simp), hn.datum_literal hs (.inl rfl) hword.2 hattr.1, hbits,
    Word.mod_double]

theorem meets_ofUndef (hn : V.Shows .undef [] t) (hc : V.T.classify t = .expandInteger) :
    V.Meets (ofUndef V.T V.id 0) (V.Paired t) := by
  refine .bind (.transformed hn) ?_
  rintro _ rfl
  exact Meets.undefParts (by rw [hc]; simp) hn

/-! ### Operations on halves -/

/-- The halves of the first two operands. -/
theorem holds_operands (h₀ : V.types[0]? = some t) (h₁ : V.types[1]? = some t)
    (hc : V.T.classify t = .expandInteger) :
    V.words.Operands (V.T.transform t) V.id (V.bitsOf 0) (V.bitsOf 1) := by
  obtain ⟨hword, _⟩ := expanded hc
  refine .bind (.operandWord h₀ hword.2) fun v hv => ?_
  refine .bind (.operandWord h₁ hword.2) fun w hw => ?_
  exact .bind (.halves hv.1 hv.2 hc) fun p hp => .bind (.halves hw.1 hw.2 hc) fun q hq =>
    .pure ⟨hp, hq⟩

section
variable {op : IntOp}

theorem meets_ofBitwise (hop : op = .and ∨ op = .or ∨ op = .xor) (hn : V.Shows (.int op) [t, t] t)
    (hc : V.T.classify t = .expandInteger) : V.Meets (ofBitwise V.id) (V.Paired t) := by
  obtain ⟨hword, _, hbits, _, _⟩ := expanded hc
  have hhalf := Word.half hn.mem hc
  have hstage : (Opcode.int op).stage ≤ 5 := Opcode.stage_le _
  have hmulhu : op ≠ .mulhu := by rcases hop with rfl | rfl | rfl <;> simp
  refine .bind (.node V.node_final) ?_
  rintro _ rfl
  rw [hn.opcode]
  refine .bind (holds_operands (hn.operandType rfl) (hn.operandType rfl) hc) ?_
  rintro ⟨⟨aLo, aHi⟩, bLo, bHi⟩ ⟨⟨a, b, ha, hb, hx⟩, c, d, hc', hd, hy⟩
  refine .bind (.int hhalf op ha hc' ⟨hstage, hmulhu⟩) fun lo hlo => ?_
  refine .bind (.int hhalf op hb hd ⟨hstage, hmulhu⟩) fun hi hhi =>
    .pure (paired hc hlo hhi fun hs => ?_)
  rw [hn.accepts_iff (by simp), hn.datum_int hs hword, hx hs, hy hs, hbits,
    Word.bitwise_halves hop (ha.lt hs) (hc'.lt hs)]

end

/-- Operations on wide words whose halves are known. -/
theorem meets_wide {op : IntOp} {x : Edit (Value × Value)} (hn : V.Shows (.int op) [t, t] t)
    (hc : V.T.classify t = .expandInteger)
    (h : V.words.Operands (V.T.transform t) V.id (V.bitsOf 0) (V.bitsOf 1) →
      V.words.Meets x fun p => V.words.IsPair (V.T.transform t) p
        (Word.value op (2 * (V.T.transform t).bits) (V.bitsOf 0) (V.bitsOf 1))) :
    V.Meets x (V.Paired t) := by
  obtain ⟨hword, _, hbits, _, _⟩ := expanded hc
  refine (h (holds_operands (hn.operandType rfl) (hn.operandType rfl) hc)).mono ?_
  rintro p ⟨y, z, hlo, hhi, hyz⟩
  refine paired hc hlo hhi fun hs => ?_
  rw [hn.accepts_iff (by simp), hn.datum_int hs hword, hbits, hyz hs]

theorem meets_ofAdd (hn : V.Shows (.int .add) [t, t] t) (hc : V.T.classify t = .expandInteger) :
    V.Meets (ofAdd V.T V.id) (V.Paired t) :=
  meets_wide hn hc (WordLogic.meets_ofAdd (Word.half hn.mem hc) (V.regular.compareType _))

theorem meets_ofSub (hn : V.Shows (.int .sub) [t, t] t) (hc : V.T.classify t = .expandInteger) :
    V.Meets (ofSub V.T V.id) (V.Paired t) :=
  meets_wide hn hc (WordLogic.meets_ofSub (Word.half hn.mem hc) (V.regular.compareType _))

theorem meets_ofMul (hn : V.Shows (.int .mul) [t, t] t) (hc : V.T.classify t = .expandInteger) :
    V.Meets (ofMul V.id) (V.Paired t) :=
  meets_wide hn hc (WordLogic.meets_ofMul (Word.half hn.mem hc) (V.regular.half_ne_promoted hc))

theorem meets_ofMulHigh (hn : V.Shows (.int .mulhu) [t, t] t)
    (hc : V.T.classify t = .expandInteger) : V.Meets (ofMulHigh V.T V.id) (V.Paired t) :=
  meets_wide hn hc (WordLogic.meets_ofMulHigh (Word.half hn.mem hc) (V.regular.compareType _)
    (V.regular.half_ne_promoted hc) (expanded hc).2.2.2.1)

/-! ### Bit counts -/

theorem holds_operand (h₀ : V.types[0]? = some t) (hc : V.T.classify t = .expandInteger) :
    V.words.Operand (V.T.transform t) V.id (V.bitsOf 0) :=
  .bind (.operandWord h₀ (expanded hc).1.2) fun _ hv => .halves hv.1 hv.2 hc

/-- The halves of the one operand. -/
theorem meets_operandHalf (h₀ : V.types[0]? = some t) (hc : V.T.classify t = .expandInteger)
    {α : Type} {f : Value × Value → Edit α} {Q : α → Prop}
    (hf : ∀ p a b, V.Is p.1 (V.T.transform t) (.scalar a) →
      V.Is p.2 (V.T.transform t) (.scalar b) →
      (V.sem → V.bitsOf 0 = a + 2 ^ (V.T.transform t).bits * b) → V.Meets (f p) Q) :
    V.Meets (Edit.operand V.id 0 >>= fun v => Edit.halves v >>= f) Q := by
  rw [← bind_assoc]
  refine .bind (holds_operand h₀ hc) ?_
  rintro p ⟨a, b, ha, hb, hab⟩
  exact hf p a b ha hb hab

/-- Counts in a wide word whose halves are known. -/
theorem meets_counted {op : BitCount} {x : Edit (Value × Value)} (hn : V.Shows (.count op) [t] t)
    (hc : V.T.classify t = .expandInteger)
    (h : V.words.Operand (V.T.transform t) V.id (V.bitsOf 0) →
      V.words.Meets x fun p => V.words.IsPair (V.T.transform t) p
        (Word.count op (2 * (V.T.transform t).bits) (V.bitsOf 0))) :
    V.Meets x (V.Paired t) := by
  obtain ⟨hword, _, hbits, _, _⟩ := expanded hc
  refine (h (holds_operand (hn.operandType rfl) hc)).mono ?_
  rintro p ⟨y, z, hlo, hhi, hyz⟩
  refine paired hc hlo hhi fun hs => ?_
  rw [hn.accepts_iff (by simp), hn.datum_count hs hword, hbits, hyz hs]

theorem meets_ofOnes (hn : V.Shows (.count .ones) [t] t) (hc : V.T.classify t = .expandInteger) :
    V.Meets (ofOnes V.T V.id 0) (V.Paired t) :=
  meets_counted hn hc fun hx =>
    WordLogic.meets_ofOnes (Word.half hn.mem hc) (expanded hc).2.2.2.1 (.transformed hn) hx

theorem meets_ofLeadingZeros (hn : V.Shows (.count .leadingZeros) [t] t)
    (hc : V.T.classify t = .expandInteger) : V.Meets (ofLeadingZeros V.T V.id 0) (V.Paired t) :=
  meets_counted hn hc fun hx => WordLogic.meets_ofLeadingZeros (Word.half hn.mem hc)
    (expanded hc).2.2.2.1 (.transformed hn) hx (V.regular.compareType _)

theorem meets_ofTrailingZeros (hn : V.Shows (.count .trailingZeros) [t] t)
    (hc : V.T.classify t = .expandInteger) : V.Meets (ofTrailingZeros V.T V.id 0) (V.Paired t) :=
  meets_counted hn hc fun hx => WordLogic.meets_ofTrailingZeros (Word.half hn.mem hc)
    (expanded hc).2.2.2.1 (.transformed hn) hx (V.regular.compareType _)

/-! ### Moves -/

theorem meets_ofSelect {c : ValueType} (hn : V.Shows .select [c, t, t] t) (hcond : c.IsWord)
    (hc : V.T.classify t = .expandInteger) : V.Meets (ofSelect V.id) (V.Paired t) := by
  obtain ⟨hword, hhalf, _, _, hlight⟩ := expanded hc
  have hadmits : V.Admits .select [V.T.transform t, c, V.T.transform t, V.T.transform t] :=
    hn.admits (by simp) (by simp [Nat.le_of_lt hlight]) (by simp; omega) fun _ =>
      ⟨rfl, by simp [hhalf, hcond], by simp, by simp⟩
  refine .bind (.operandWord (hn.operandType rfl) hcond.2) fun cond hk => ?_
  refine .bind (.operandWord (hn.operandType rfl) hword.2) fun v hv => ?_
  refine .bind (.operandWord (hn.operandType rfl) hword.2) fun w hw => ?_
  refine .bind (.halves hv.1 hv.2 hc) ?_
  rintro ⟨aLo, aHi⟩ ⟨a, b, ha, hb, hx⟩
  refine .bind (.halves hw.1 hw.2 hc) ?_
  rintro ⟨bLo, bHi⟩ ⟨c', d, hc', hd, hy⟩
  refine .bind (.selectOf hcond hadmits hk.2 ha hc') fun lo hlo => ?_
  refine .bind (.selectOf hcond hadmits hk.2 hb hd) fun hi hhi => .pure ?_
  have hlo := hlo.congr (e := .scalar (if V.bitsOf 0 ≠ 0 then a else c')) fun _ => by split <;> rfl
  have hhi := hhi.congr (e := .scalar (if V.bitsOf 0 ≠ 0 then b else d)) fun _ => by split <;> rfl
  refine paired hc hlo hhi fun hs => ?_
  rw [hn.accepts_iff (by simp), hn.datum_select hs hcond,
    V.data_scalar hs (hn.operandType (i := 1) rfl) hword.2,
    V.data_scalar hs (hn.operandType (i := 2) rfl) hword.2, hx hs, hy hs]
  split <;> rfl

section
variable (hu : u.IsWord) (hut : u.bits < t.bits)
include hu hut

/-- A narrower operand, at the type of the halves. -/
theorem meets_lowHalf (fill : Fill) (hn : V.Shows op [u] t) (hc : V.T.classify t = .expandInteger) :
    V.Meets (Edit.operand V.id 0 >>= fun v => Edit.resize fill v (V.T.transform t)) fun w =>
      ∃ z, V.Is w (V.T.transform t) (.scalar z) ∧ (V.sem → V.bitsOf 0 < 2 ^ u.bits ∧
        fill.Fills u.bits (V.T.transform t).bits (V.bitsOf 0) z ∧
          (fill = .any → ¬ V.T.Loose V.limit u → z = V.bitsOf 0)) := by
  obtain ⟨hword, hhalf, hbits, _, _⟩ := expanded hc
  have hle := hu.bits_le_of_lt_double hhalf (hbits ▸ hut)
  refine .bind (.operandWord (hn.operandType rfl) hu.2) fun v hv => ?_
  have huword : V.Word 1 u :=
    ⟨hu, (hn.small_narrower List.mem_cons_self (by rw [hc]; simp) hut).mono (by decide)⟩
  have hhalfword : V.Word 1 (V.T.transform t) := (Word.half hn.mem hc).mono (by decide)
  cases fill with
  | any =>
    refine (Meets.resizeAny huword hhalfword hle hv.2).mono ?_
    rintro w ⟨z, hw, hz⟩
    exact ⟨z, hw, fun hs => ⟨hv.2.lt hs, (hz hs).1, fun _ => (hz hs).2⟩⟩
  | zero | sign =>
    refine (Meets.resize (n := u.bits) (x := V.bitsOf 0) _ huword hhalfword u.bits_pos
      (Nat.le_refl _) hle hv.2 fun hs => ⟨hv.2.lt hs, Fill.fills_self (hv.2.lt hs)⟩).mono ?_
    rintro w ⟨z, hw, hz⟩
    exact ⟨z, hw, fun hs => ⟨hv.2.lt hs, hz hs, fun h => by cases h⟩⟩

theorem meets_ofZeroExtend (hn : V.Shows .zeroExtend [u] t)
    (hc : V.T.classify t = .expandInteger) : V.Meets (ofZeroExtend V.T V.id 0) (V.Paired t) := by
  obtain ⟨hword, _, _, _, _⟩ := expanded hc
  refine .bind (.transformed hn) ?_
  rintro _ rfl
  rw [← bind_assoc]
  refine .bind (meets_lowHalf hu hut .zero hn hc) ?_
  rintro lo ⟨z, hlo, hz⟩
  refine .bind (.constant (.half hn.mem hc) 0) fun hi hhi => .pure (paired hc hlo hhi fun hs => ?_)
  obtain ⟨hlt, hfills, _⟩ := hz hs
  have hpow : 2 ^ u.bits ≤ 2 ^ t.bits := Nat.pow_le_pow_right (by decide) (Nat.le_of_lt hut)
  rw [hn.accepts_iff (by simp), hn.datum_cut hs (.inr (.inl rfl)) hu hword,
    Nat.mod_eq_of_lt (Nat.lt_of_lt_of_le hlt hpow), Nat.zero_mod, Nat.mul_zero, Nat.add_zero,
    show z = V.bitsOf 0 from hfills]

theorem meets_ofSignExtend (hn : V.Shows .signExtend [u] t)
    (hc : V.T.classify t = .expandInteger) : V.Meets (ofSignExtend V.T V.id 0) (V.Paired t) := by
  obtain ⟨hword, hhalf, hbits, _, _⟩ := expanded hc
  refine .bind (.transformed hn) ?_
  rintro _ rfl
  rw [← bind_assoc]
  refine .bind (meets_lowHalf hu hut .sign hn hc) ?_
  rintro lo ⟨z, hlo, hz⟩
  refine .bind (.constant (.half hn.mem hc) _) fun amount hamount => ?_
  rw [ValueType.width_mod (Nat.sub_le ..)] at hamount
  refine .bind (.int (.half hn.mem hc) .sra hlo hamount (by decide)) fun hi hhi =>
    .pure (paired hc hlo hhi fun hs => ?_)
  obtain ⟨hlt, hfills, _⟩ := hz hs
  rw [hn.accepts_iff (by simp), hn.datum_signExtend hs hu hword hut, hbits,
    Word.extend_halves u.bits_pos (hu.bits_le_of_lt_double hhalf (hbits ▸ hut)) hlt,
    show z = _ from hfills]

theorem meets_ofAnyExtend (hn : V.Shows .anyExtend [u] t)
    (hc : V.T.classify t = .expandInteger) : V.Meets (ofAnyExtend V.T V.id 0) (V.Paired t) := by
  obtain ⟨hword, hhalf, _, _, _⟩ := expanded hc
  refine .bind (.transformed hn) ?_
  rintro _ rfl
  rw [← bind_assoc]
  refine .bind (meets_lowHalf hu hut .any hn hc) ?_
  rintro lo ⟨z, hlo, hz⟩
  refine .bind (.undef (hn.admits_leaf (by rw [hc]; simp) (.inr (.inr rfl)))) fun hi hhi => ?_
  rw [Datum.ofNumber_word hhalf.2, Nat.zero_mod] at hhi
  refine .pure (paired hc hlo hhi fun hs => ?_)
  obtain ⟨hlt, hfills, htight⟩ := hz hs
  refine hn.accepts_low (.inl rfl) (hn.datum_cut hs (.inr (.inr rfl)) hu hword) ?_ fun h => ?_
  · rw [Nat.mul_zero, Nat.add_zero, hu.laneBits_eq,
      Nat.mod_mod_of_dvd _ (Nat.pow_dvd_pow 2 (Nat.le_of_lt hut)), ← hfills, Nat.mod_mod]
  · rw [Nat.mul_zero, Nat.add_zero, htight rfl h, Nat.mod_eq_of_lt (Nat.lt_of_lt_of_le hlt
      (Nat.pow_le_pow_right (by decide) (Nat.le_of_lt hut)))]

end

theorem meets_ofTruncate (hn : V.Shows .truncate [u] t) (hu : u.IsWord) (htu : t.bits < u.bits)
    (hc : V.T.classify t = .expandInteger) : V.Meets (ofTruncate V.T V.id 0) (V.Paired t) := by
  obtain ⟨hword, hhalf, hbits, _, hlight⟩ := expanded hc
  refine .bind (.transformed hn) ?_
  rintro _ rfl
  refine .bind (.operandWord (hn.operandType rfl) hu.2) fun v hv => ?_
  refine (Meets.cutInteger ⟨hu, hn.small (by simp) (by decide)⟩ hhalf (by omega)
    (hn.admits (by simp) (by simp [Nat.le_of_lt hlight]) (by simp [hlight]) fun _ =>
      ⟨rfl, by simp [hhalf, hu], by simp, by simp⟩) hv.2).mono fun w hw =>
        paired hc hw.1 hw.2 fun hs => ?_
  rw [hn.accepts_iff (by simp), hn.datum_cut hs (.inl rfl) hu hword, hbits, Word.mod_double]

theorem meets_ofPair (hn : V.Shows .buildPair [u, u] t) (hbits : t.bits = 2 * u.bits)
    (hc : V.T.classify t = .expandInteger) : V.Meets (ofPair V.T V.id 0) (V.Paired t) := by
  obtain ⟨hword, hhalf, hbits', _, _⟩ := expanded hc
  refine .bind (.transformed hn) ?_
  rintro _ rfl
  refine .bind (.operand (hn.operandType rfl)) fun lo hlo => ?_
  refine .bind (.operand (hn.operandType rfl)) fun hi hhi => ?_
  refine .typeOf_bind hlo.2 ?_
  by_cases hu : u = V.T.transform t
  · subst hu
    rw [if_pos rfl]
    refine .typeOf_bind hhi.2 ?_
    rw [if_pos rfl]
    refine .pure (Is.paired hlo.2 hhi.2 fun hs => ?_)
    rw [hn.accepts_iff (by simp), hn.datum_pair hs hbits]
  · rw [if_neg hu]
    refine .bind (.resultType hn.results) fun _ _ => .throw trivial fun htotal => hu ?_
    exact ((hn.plain htotal).words u (by simp)).eq_of_bits_eq hhalf (by omega)

end Dataflow.Legal.Halve
