import Dataflow.Proofs.Rules.Halve.Arithmetic

/-!
# Integers in two halves: shifts

Value and amount of a typed shift have one type, so both are in halves.
-/

namespace Dataflow.Legal.Halve

open RuleSpec RewriteSpec

variable {V : RewriteSpec} {t : ValueType} {op : IntOp} {x : Nat}

theorem meets_amountParts {v : Value} (hv : V.Source v) (h : V.Is v t (.scalar x))
    (hc : V.T.classify t = .expandInteger) :
    V.Meets (amountParts V.T V.id v (V.T.transform t)) (V.words.IsAmount (V.T.transform t) x) := by
  refine .typeOf_bind h ?_
  rw [hc]
  refine .bind (.halves hv h hc) ?_
  rintro ⟨low, high⟩ ⟨c, d, hlow, hhigh, hx⟩
  refine .typeOf_bind hlow ?_
  rw [if_neg (not_not.2 rfl)]
  refine .pure ⟨c, d, hlow, ?_, fun h => ?_, hx⟩
  · rintro _ ⟨⟩
    exact hhigh
  · cases h

theorem meets_ofShift (hop : op = .shl ∨ op = .srl ∨ op = .sra) (hn : V.Shows (.int op) [t, t] t)
    (hnumbered : V.sem → V.numbered) (hc : V.T.classify t = .expandInteger) :
    V.Meets (ofShift V.T V.id) (V.Paired t) := by
  obtain ⟨hword, _, hbits, hle, _⟩ := expanded hc
  have hhalf : V.words.Works 0 (V.T.transform t) := (Word.half hn.mem hc).mono (by decide)
  refine .bind (.node V.node_final) ?_
  rintro _ rfl
  rw [hn.opcode]
  refine .bind (.operandWord (hn.operandType rfl) hword.2) fun v hv => ?_
  refine .bind (.operandWord (hn.operandType rfl) hword.2) fun w hw => ?_
  refine .bind (.halves hv.1 hv.2 hc) ?_
  rintro ⟨lo, hi⟩ ⟨a, b, ha, hb, hx⟩
  have hnext {p : Value × Value} {k : Nat} (hk : V.sem → V.bitsOf 1 = k)
      (hp : V.words.IsPair (V.T.transform t) p (Word.value op (2 * (V.T.transform t).bits)
        (a + 2 ^ (V.T.transform t).bits * b) k)) : V.Paired t p := by
    obtain ⟨y, z, hlo, hhi, hyz⟩ := hp
    refine paired hc hlo hhi fun hs => ?_
    rw [hn.accepts_iff (by simp), hn.datum_int hs hword, hx hs, hk hs, hbits, ← hyz hs]
  refine .bind (.constant? hw.2 hword.2) fun r hr => ?_
  cases r with
  | some k =>
    exact (WordLogic.meets_constantShift hhalf ha hb hop k).mono fun p hp =>
      hnext (fun hs => (hr k rfl).1 hs (hnumbered hs)) hp
  | none =>
    exact (WordLogic.meets_variableShift hhalf (V.regular.compareType _) hle hop ha hb
      (meets_amountParts hw.1 hw.2 hc)).mono fun p hp => hnext (fun _ => rfl) hp

end Dataflow.Legal.Halve
