import Dataflow.Legal.Rules
import Dataflow.Proofs.Rules.Outcome

/-!
# Leaves

The parts of arguments, constants and undefined values are arguments, constants and undefined values
of the transformed type.
-/

namespace Dataflow.Legal

variable {V : RewriteSpec} {op : Opcode} {t : ValueType} {bits : Nat}

/-- Leaves of the transformed type may be added. -/
theorem RewriteSpec.Shows.admits_leaf {ts : List ValueType} (hn : V.Shows op ts t)
    (hc : V.T.classify t ≠ .legal) {leaf : Opcode}
    (hleaf : leaf = .argument ∨ leaf = .constant ∨ leaf = .undef) :
    V.Admits leaf [V.T.transform t] := by
  have hlt := Target.weight_transform_lt V.regular hc
  refine .of_small (by rcases hleaf with rfl | rfl | rfl <;> simp) ?_ fun htotal => ?_
  · simpa using .lighter hn.mem hlt leaf.stage_le
  · have hword := V.regular.transform_word ((hn.plain htotal).words t List.mem_cons_self) hc
    refine ⟨?_, by simpa using hword, ?_, ?_⟩ <;>
      rcases hleaf with rfl | rfl | rfl <;> simp [Opcode.isPlain]

namespace RuleSpec.Meets

/-- The transformed type of the result. -/
theorem transformed {ts : List ValueType} (hn : V.Shows op ts t) :
    V.Meets (do return V.T.transform (← Edit.resultType V.id 0)) (V.T.transform t = ·) :=
  .bind (.resultType hn.results) fun u hu => .pure (by rw [hu])

section
variable (hc : V.T.classify t ≠ .legal)
include hc

/-! ### Arguments -/

theorem argumentPart (hn : V.Shows .argument [] t) (hbits : t.bits ≤ (V.T.transform t).bits)
    (hwide : (V.T.transform t).bits = t.bits ∨
      V.T.classify (V.T.transform t) = .legal ∧ (V.T.transform t).bits ≤ 128) :
    V.Meets (do
      let (index, offset) ← Edit.argumentPosition V.id
      Edit.argument index offset (V.T.transform t)) (V.Carried t) := by
  refine .bind (.argumentPosition hn) ?_
  rintro ⟨index, offset⟩ ⟨hattr, hstrict, hends⟩
  have hdatum (hs : V.sem) := hn.datum_argument hs hattr (hstrict (V.strict_of_sem hs))
  refine (Meets.argument ((V.args[index]?).getD ⟨[]⟩) (hn.admits_leaf hc (.inl rfl))
    (fun h => ?_) (fun hl hpart => ?_) fun hs => ?_).mono fun w hw => hw.carried fun hs => ?_
  · have hend := hstrict h
    unfold Target.Within at hend ⊢
    rw [if_neg hc] at hend
    rcases hwide with heq | ⟨hlegal, hle⟩
    · split <;> omega
    · rw [if_pos hlegal]
      omega
  · rcases hwide with heq | ⟨hlegal, _⟩
    · rw [heq]
      exact hends hl hc
    · exact absurd hlegal hpart
  · obtain ⟨s, hget, _⟩ := hdatum hs
    rw [hget]
    rfl
  · obtain ⟨s, hget, hd⟩ := hdatum hs
    rw [Datum.ofNumber_widened hbits, hget, hn.accepts_iff (by simp), hd]
    rfl

theorem argumentParts (hn : V.Shows .argument [] t) (hbits : t.bits = 2 * (V.T.transform t).bits) :
    V.Meets (do
      let (index, offset) ← Edit.argumentPosition V.id
      let lo ← Edit.argument index offset (V.T.transform t)
      let hi ← Edit.argument index (← Edit.position (offset + (V.T.transform t).bits))
        (V.T.transform t)
      return (lo, hi)) (V.Paired t) := by
  refine .bind (.argumentPosition hn) ?_
  rintro ⟨index, offset⟩ ⟨hattr, hstrict, hends⟩
  have hdatum (hs : V.sem) := hn.datum_argument hs hattr (hstrict (V.strict_of_sem hs))
  have hbound (h : V.strict) : offset + t.bits ≤ V.limit.bound := by
    have := hstrict h
    unfold Target.Within at this
    rwa [if_neg hc] at this
  have hwithin (h : V.strict) : V.T.Within V.limit offset (V.T.transform t) ∧
      V.T.Within V.limit (offset + (V.T.transform t).bits) (V.T.transform t) := by
    have := hbound h
    unfold Target.Within
    split <;> omega
  have hends' (hl : V.limit.moderate) : offset + (V.T.transform t).bits ≤ 2 ^ 32 ∧
      offset + (V.T.transform t).bits + (V.T.transform t).bits ≤ 2 ^ 32 := by
    have := hends hl hc
    omega
  have hargs (hs : V.sem) : V.args[index]? = some ((V.args[index]?).getD ⟨[]⟩) := by
    obtain ⟨s, hget, _⟩ := hdatum hs
    rw [hget]
    rfl
  have hadmits := hn.admits_leaf hc (.inl rfl)
  refine .bind (Meets.argument _ hadmits (fun h => (hwithin h).1) (fun hl _ => (hends' hl).1) hargs)
    fun lo hlo => ?_
  refine .bind (.position (fun h => ?_) fun h => ?_) ?_
  · have := hbound h
    have := V.limit.bound_le
    omega
  · exact ⟨t, hn.results, .inl ⟨hn.opcode, hc, hbits, index, offset, hattr, h⟩⟩
  rintro _ rfl
  refine .bind (Meets.argument _ hadmits (fun h => (hwithin h).2) (fun hl _ => (hends' hl).2) hargs)
    fun hi hhi => .pure (hlo.paired hhi fun hs => ?_)
  obtain ⟨s, hget, hd⟩ := hdatum hs
  rw [hn.accepts_iff (by simp), hd, hget, Option.getD_some, Datum.number_ofNumber,
    Datum.number_ofNumber, Nat.pow_add, ← Nat.div_div_eq_div_mul, Word.mod_add_div_mod,
    ← Nat.two_mul, ← hbits, Datum.ofNumber_mod]

/-! ### Constants -/

theorem constantPart (hn : V.Shows op [] t) (hop : op = .constant ∨ op = .constantFp)
    (ht : t.isVector = false) (hpart : (V.T.transform t).isVector = false)
    (hbits : t.bits ≤ (V.T.transform t).bits) : V.Meets (do
      let bits ← Edit.immediate V.id
      Edit.constant bits (V.T.transform t)) (V.Carried t) := by
  refine .bind (.immediate hn hop) fun bits hattr => ?_
  refine (Meets.constantOf hpart (hn.admits_leaf hc (.inr (.inl rfl))) bits).mono fun w hw =>
    hw.carriedWord ht fun hs => ?_
  rw [hn.accepts_iff (by rcases hop with rfl | rfl <;> simp), hn.datum_literal hs hop ht hattr.1,
    Nat.mod_mod_of_dvd _ (Nat.pow_dvd_pow 2 hbits)]

/-! ### Undefined values -/

theorem undefPart (hn : V.Shows .undef [] t) (hbits : t.bits ≤ (V.T.transform t).bits) :
    V.Meets (Edit.undef (V.T.transform t)) (V.Carried t) := by
  refine (Meets.undef (hn.admits_leaf hc (.inr (.inr rfl)))).mono fun w hw => hw.carried fun hs => ?_
  rw [Datum.ofNumber_widened hbits, hn.accepts_iff (by simp), hn.datum_undef hs]

theorem undefParts (hn : V.Shows .undef [] t) : V.Meets (do
      let lo ← Edit.undef (V.T.transform t)
      let hi ← Edit.undef (V.T.transform t)
      return (lo, hi)) (V.Paired t) := by
  have hundef := Meets.undef (hn.admits_leaf hc (.inr (.inr rfl)))
  refine .bind hundef fun lo hlo => .bind hundef fun hi hhi => .pure (hlo.paired hhi fun hs => ?_)
  rw [hn.accepts_iff (by simp), hn.datum_undef hs, Datum.number_ofNumber, Nat.zero_mod, Nat.mul_zero]

end

end RuleSpec.Meets

end Dataflow.Legal
