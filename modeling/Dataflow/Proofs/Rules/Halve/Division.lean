import Dataflow.Proofs.Rules.Halve.Arithmetic
import Dataflow.Proofs.Rules.Halve.LongDivision

/-!
# Integers in two halves: division

The nodes of a long division work at the wide type: they are of an earlier stage than the division
and are converted in turn.
-/

namespace Dataflow.Legal.Halve

open RuleSpec RewriteSpec

variable {V : RewriteSpec} {t : ValueType} {op : IntOp}

theorem divides (hn : V.Shows (.int op) [t, t] t) (hc : V.T.classify t = .expandInteger) :
    V.words.Divides V.T V.id 0 t (V.bitsOf 0) (V.bitsOf 1) where
  result := .resultType hn.results
  dividend := (Meets.operandWord (hn.operandType rfl) (expanded hc).1.2).mono fun _ hv => hv.2
  divisor := (Meets.operandWord (hn.operandType rfl) (expanded hc).1.2).mono fun _ hv => hv.2
  flag := V.regular.compareType t
  half := (Word.half hn.mem hc).mono (by decide)
  bits := (expanded hc).2.2.1

/-- Halves of the quotient are the halves of the result. -/
theorem meets_quotient {x : Edit (Value × Value)} (hn : V.Shows (.int op) [t, t] t)
    (hc : V.T.classify t = .expandInteger)
    (h : V.words.Meets x fun p => V.words.IsPair (V.T.transform t) p
      (Word.value op t.bits (V.bitsOf 0) (V.bitsOf 1))) : V.Meets x (V.Paired t) := by
  refine h.mono ?_
  rintro p ⟨y, z, hlo, hhi, hyz⟩
  refine paired hc hlo hhi fun hs => ?_
  rw [hn.accepts_iff (by simp), hn.datum_int hs (expanded hc).1, hyz hs]

theorem meets_ofUnsignedDiv (hn : V.Shows (.int .udiv) [t, t] t)
    (hc : V.T.classify t = .expandInteger) : V.Meets (ofUnsignedDiv V.T V.id 0) (V.Paired t) :=
  meets_quotient hn hc (WordLogic.meets_ofUnsignedDiv (divides hn hc)
    ⟨(expanded hc).1, hn.small List.mem_cons_self (by decide)⟩)

theorem meets_ofSignedDiv (hn : V.Shows (.int .sdiv) [t, t] t)
    (hc : V.T.classify t = .expandInteger) : V.Meets (ofSignedDiv V.T V.id 0) (V.Paired t) :=
  meets_quotient hn hc (WordLogic.meets_ofSignedDiv (divides hn hc)
    ⟨(expanded hc).1, hn.small List.mem_cons_self (by decide)⟩)

end Dataflow.Legal.Halve
