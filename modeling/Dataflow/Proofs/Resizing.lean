import Dataflow.Proofs.Requests

/-!
# Changes of width

What extensions, truncations and the ways between an integer and its halves do to data.
-/

namespace Dataflow.Legal

namespace RuleSpec

variable {V : RuleSpec} {v a b : Value} {t u : ValueType} {x y n s s' : Nat} {d : Datum}

/-! ### Words of the target -/

theorem Word.legal (ht : t.IsWord) (h : V.T.classify t = .legal) : V.Word s t :=
  ⟨ht, .legal h⟩

theorem Word.promoted (hu : V.T.classify u = .promoteInteger) : V.Word s (V.T.transform u) :=
  .legal (V.regular.promoted hu).2.1 (V.regular.promoted hu).2.2.2

theorem Word.compareType (t : ValueType) : V.Word s (V.T.compareType t) :=
  .legal (V.regular.compareType t).1 (V.regular.compareType t).2

theorem Word.indexType : V.Word s V.T.indexType :=
  .legal V.regular.indexType.1 V.regular.indexType.2.1

/-- Halves are narrower. -/
theorem Word.half {V : RewriteSpec} (ht : t ∈ V.node.results ++ V.types)
    (hc : V.T.classify t = .expandInteger) :
    V.Word 5 (V.T.transform t) := by
  obtain ⟨_, hhalf, hbits, _⟩ := V.regular.expanded hc
  have hpos := (V.T.transform t).bits_pos
  exact ⟨hhalf, .narrower ht (by rw [hc]; simp) (by omega) (Nat.le_refl 5)⟩

namespace Meets

/-! ### Filling a carrier -/

theorem clearAbove (ht : V.Word s t) (hu : u.IsWord) (h : V.Is v t (.scalar x)) :
    V.Meets (Edit.clearAbove v u) fun w => V.Is w t (.scalar (x % 2 ^ u.bits)) :=
  WordLogic.clearAbove (L := V.words) ht hu h

theorem signFill (ht : V.Word s t) (hut : u.bits ≤ t.bits) (h : V.Is v t (.scalar x)) :
    V.Meets (Edit.signFill v u) fun w =>
      V.Is w t (.scalar (Word.extend u.bits t.bits (x % 2 ^ u.bits))) := by
  refine typeOf_bind h ?_
  split
  · next hle =>
    refine .pure (h.congr fun hs => ?_)
    rw [Nat.le_antisymm hut hle, Word.extend_self, Nat.mod_eq_of_lt (h.lt hs)]
  · refine .bind (constant ht _) fun amount hamount => ?_
    rw [ValueType.width_mod (Nat.sub_le ..)] at hamount
    refine .bind (int ht .shl h hamount ⟨Nat.zero_le s, by decide⟩) fun shifted hshifted => ?_
    refine (int ht .sra hshifted hamount ⟨Nat.zero_le s, by decide⟩).mono fun w hw =>
      hw.congr fun _ => ?_
    rw [Word.sra_shl u.bits_pos hut]

section
variable {V : RewriteSpec} (hv : V.Source v) (h : V.Is v u (.scalar x))
  (hu : V.T.classify u = .promoteInteger)
include hv h hu

theorem zeroExtended :
    V.Meets (Edit.zeroExtended v) fun w => V.Is w (V.T.transform u) (.scalar x) := by
  refine typeOf_bind h (.bind (promoted hv h hu) ?_)
  rintro w ⟨y, hw, hy⟩
  refine (clearAbove (s := 0) (.promoted hu) (V.regular.promoted hu).1 hw).mono fun w hw =>
    hw.congr fun hs => ?_
  rw [hy hs]

theorem signExtended : V.Meets (Edit.signExtended v) fun w =>
    V.Is w (V.T.transform u) (.scalar (Word.extend u.bits (V.T.transform u).bits x)) := by
  refine typeOf_bind h (.bind (promoted hv h hu) ?_)
  rintro w ⟨y, hw, hy⟩
  refine (signFill (s := 0) (.promoted hu) (Nat.le_of_lt (V.regular.promoted hu).2.2.1) hw).mono
    fun w hw => hw.congr fun hs => ?_
  rw [hy hs]

theorem filled (fill : Fill) : V.Meets (Edit.filled fill v) fun w =>
    ∃ y, V.Is w (V.T.transform u) (.scalar y) ∧
      (V.sem → fill.Fills u.bits (V.T.transform u).bits x y) := by
  cases fill with
  | zero => exact (zeroExtended hv h hu).mono fun w hw => ⟨x, hw, fun _ => rfl⟩
  | sign => exact (signExtended hv h hu).mono fun w hw => ⟨_, hw, fun _ => rfl⟩
  | any => exact promoted hv h hu

end

/-! ### Resizing -/

theorem resize_self (fill : Fill) (h : V.Is v t d) :
    V.Meets (Edit.resize fill v t) fun w => V.Is w t d :=
  typeOf_bind h (by rw [if_pos rfl]; exact .pure h)

theorem resize (fill : Fill) (hu : V.Word 1 u) (ht : V.Word 1 t) (hn : 0 < n) (hnu : n ≤ u.bits)
    (hnt : n ≤ t.bits) (h : V.Is v u (.scalar y))
    (hy : V.sem → x < 2 ^ n ∧ fill.Fills n u.bits x y) :
    V.Meets (Edit.resize fill v t) fun w =>
      ∃ z, V.Is w t (.scalar z) ∧ (V.sem → fill.Fills n t.bits x z) :=
  WordLogic.resize (L := V.words) fill hu ht hn hnu hnt h hy

/-- A word that is not loose is extended by zeros. -/
theorem resizeAny (hu : V.Word 1 u) (ht : V.Word 1 t) (hut : u.bits ≤ t.bits)
    (h : V.Is v u (.scalar x)) : V.Meets (Edit.resize .any v t) fun w => ∃ z, V.Is w t (.scalar z) ∧
      (V.sem → z % 2 ^ u.bits = x ∧ (¬ V.T.Loose V.limit u → z = x)) := by
  refine typeOf_bind h ?_
  split
  · next heq =>
    cases heq
    exact .pure ⟨x, h, fun hs => ⟨Nat.mod_eq_of_lt (h.lt hs), fun _ => rfl⟩⟩
  split
  · next hlt => exact anyExtend hu ht hlt h
  · next hne hnlt =>
    exact absurd (hu.1.eq_of_bits_eq ht.1 (Nat.le_antisymm hut (Nat.le_of_not_lt hnlt))) hne

theorem resizeFlag (hu : V.Word 1 u) (ht : V.Word 1 t) (b : Bool) (h : V.Is v u (.scalar b.toNat)) :
    V.Meets (Edit.resize .zero v t) fun w => V.Is w t (.scalar b.toNat) :=
  WordLogic.resizeFlag (L := V.words) hu ht b h

theorem bitcast (hbits : u.bits = t.bits) (hadmits : u ≠ t → V.Admits .bitcast [t, u])
    (h : V.Is v u d) :
    V.Meets (Edit.bitcast v t) fun w => V.Is w t (.ofNumber t (d.number u)) := by
  refine typeOf_bind h ?_
  split
  · next heq =>
    cases heq
    exact .pure (h.congr fun hs => (h.fits hs).ofNumber_number.symm)
  · next hne => exact castBits hbits (hadmits hne) h

theorem bitcastScalar (ht : t.isVector = false) (hbits : u.bits = t.bits)
    (hadmits : u ≠ t → V.Admits .bitcast [t, u]) (h : V.Is v u (.scalar x)) :
    V.Meets (Edit.bitcast v t) fun w => V.Is w t (.scalar x) := by
  refine (bitcast hbits hadmits h).mono fun w hw => hw.congr fun hs => ?_
  rw [Datum.number_scalar, Datum.ofNumber_word ht, ← hbits, Nat.mod_eq_of_lt (h.lt hs)]

/-! ### Halves -/

theorem cutInteger (ht : V.Word 0 t) (hu : u.IsWord) (hut : u.bits < t.bits)
    (hadmits : V.Admits .truncate [u, t]) (h : V.Is v t (.scalar x)) :
    V.Meets (Edit.cutInteger v u) fun w => V.Is w.1 u (.scalar (x % 2 ^ u.bits)) ∧
      V.Is w.2 u (.scalar (x / 2 ^ u.bits % 2 ^ u.bits)) := by
  refine typeOf_bind h ?_
  refine .bind (truncateOf ht.1 hu hut hadmits h) fun lo hlo => ?_
  refine .bind (constant ht _) fun amount hamount => ?_
  rw [ValueType.width_mod (Nat.le_of_lt hut)] at hamount
  refine .bind (int ht .srl h hamount (by decide)) fun shifted hshifted => ?_
  exact .bind (truncateOf ht.1 hu hut hadmits hshifted) fun hi hhi => .pure ⟨hlo, hhi⟩

/-- Only the low bits of the high part count. -/
theorem joinParts {lo hi : Value} (ht : V.Word 1 t) (hnt : 2 * n ≤ t.bits)
    (hlo : V.Is lo t (.scalar x)) (hhi : V.Is hi t (.scalar y)) (hx : V.sem → x < 2 ^ n) :
    V.Meets (do
      let amount ← Edit.constant n t
      let hi ← Edit.int .shl hi amount
      Edit.int .or lo hi) fun w => ∃ z, V.Is w t (.scalar z) ∧
        (V.sem → z % 2 ^ (2 * n) = x + 2 ^ n * (y % 2 ^ n)) := by
  refine .bind (constant ht _) fun amount hamount => ?_
  rw [ValueType.width_mod (by omega)] at hamount
  refine .bind (int ht .shl hhi hamount (by decide)) fun shifted hshifted => ?_
  refine (int ht .or hlo hshifted (by decide)).mono fun w hw => ⟨_, hw, fun hsem => ?_⟩
  obtain ⟨k, hk⟩ := Nat.exists_eq_add_of_le (show n ≤ t.bits by omega)
  have hpow : 2 ^ t.bits = 2 ^ k * 2 ^ n := by rw [hk, Nat.add_comm, Nat.pow_add]
  have hvalue : Word.value .or t.bits x (Word.value .shl t.bits y n) = 2 ^ n * (y % 2 ^ k) + x := by
    rw [Word.value, Word.value, hpow, Nat.mul_mod_mul_right, Nat.or_comm, Nat.mul_comm,
      Nat.two_pow_add_eq_or_of_lt (hx hsem)]
  rw [hvalue, Nat.two_mul, Nat.pow_add, Nat.mod_mul, Nat.mul_add_mod, Nat.mod_eq_of_lt (hx hsem),
    Nat.mul_add_div (Nat.two_pow_pos n), Nat.div_eq_of_lt (hx hsem), Nat.add_zero,
    Nat.mod_mod_of_dvd _ (Nat.pow_dvd_pow 2 (by omega))]

theorem joinAt {s : ValueType} (hu : V.Word 1 u) (hs : V.Word 1 s) (ht : V.Word 1 t) (hn : 0 < n)
    (hnu : n ≤ u.bits) (hns : n ≤ s.bits) (hnt : 2 * n ≤ t.bits) (ha : V.Is a u (.scalar x))
    (hb : V.Is b s (.scalar y)) (hx : V.sem → x < 2 ^ n) :
    V.Meets (Edit.joinAt n a b t) fun w => ∃ z, V.Is w t (.scalar z) ∧
      (V.sem → z % 2 ^ (2 * n) = x + 2 ^ n * (y % 2 ^ n)) := by
  refine .bind (resize .zero hu ht hn hnu (by omega) ha fun hsem => ⟨hx hsem, rfl⟩) ?_
  rintro lo ⟨x', hlo, hx'⟩
  refine .bind (resize (x := y % 2 ^ n) .any hs ht hn hns (by omega) hb fun _ =>
    ⟨Nat.mod_lt _ (Nat.two_pow_pos n), rfl⟩) ?_
  rintro hi ⟨y', hhi, hy'⟩
  refine (joinParts ht hnt (hlo.congr fun hsem => congrArg _ (hx' hsem)) hhi hx).mono ?_
  rintro w ⟨z, hw, hz⟩
  exact ⟨z, hw, fun hsem => by rw [hz hsem, show y' % 2 ^ n = _ from hy' hsem]⟩

/-- The halves may be values of one lane, where liberties are taken. -/
theorem joinLanes {e : Datum} (hl : V.limit.liberal) (hone : u.laneCount = 1) (hu : ¬ u.IsWord)
    (ht : t.IsWord) (hlegal : V.T.classify t = .legal) (hut : 2 * u.bits ≤ t.bits)
    (hadmits : V.Admits .zeroExtend [t, u] ∧ V.Admits .anyExtend [t, u]) (ha : V.Is a u d)
    (hb : V.Is b u e) : V.Meets (Edit.joinAt u.bits a b t) fun w => ∃ z, V.Is w t (.scalar z) ∧
      (V.sem → z % 2 ^ (2 * u.bits) = d.number u + 2 ^ u.bits * e.number u) := by
  have hlt : u.bits < t.bits := by have := u.bits_pos; omega
  have hne : u ≠ t := by
    rintro rfl
    exact hu ht
  refine .bind (P := fun w => V.Is w t (.scalar (d.number u))) (typeOf_bind ha ?_) fun lo hlo => ?_
  · rw [if_neg hne, if_pos hlt]
    exact zeroExtendLane hl hone hu ht hlegal hlt ha hadmits.1
  refine .bind (P := fun w => ∃ y, V.Is w t (.scalar y) ∧ (V.sem → y % 2 ^ u.bits = e.number u))
    (typeOf_bind hb ?_) ?_
  · rw [if_neg hne, if_pos hlt]
    exact anyExtendLane hl hone hu ht hlegal hlt hb hadmits.2
  rintro hi ⟨y, hhi, hy⟩
  refine (joinParts (.legal ht hlegal) hut hlo hhi fun hs => (ha.fits hs).number_lt).mono ?_
  rintro w ⟨z, hw, hz⟩
  exact ⟨z, hw, fun hs => by rw [hz hs, hy hs]⟩

theorem joinHalves (hu : V.Word 1 u) (ht : V.Word 1 t) (hut : 2 * u.bits ≤ t.bits)
    (ha : V.Is a u (.scalar x)) (hb : V.Is b u (.scalar y)) :
    V.Meets (Edit.joinHalves a b t) fun w => ∃ z, V.Is w t (.scalar z) ∧
      (V.sem → z % 2 ^ (2 * u.bits) = x + 2 ^ u.bits * y) := by
  refine typeOf_bind ha ?_
  refine (joinAt hu hu ht u.bits_pos (Nat.le_refl _) (Nat.le_refl _) hut ha hb ha.lt).mono ?_
  rintro w ⟨z, hw, hz⟩
  exact ⟨z, hw, fun hs => by rw [hz hs, Nat.mod_eq_of_lt (hb.lt hs)]⟩

end Meets

end RuleSpec

end Dataflow.Legal
