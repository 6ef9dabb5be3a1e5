import Dataflow.Legal.Split.Reinterpret
import Dataflow.Proofs.Halves
import Dataflow.Proofs.Rules.Split.Lanes

/-!
# Vectors in two halves: reinterpretation

The halves of a value are two values of one type, of half its width each, whose bits are those of
the value, one after the other.
-/

namespace Dataflow.Legal.Split

open RuleSpec RewriteSpec

variable {V : RewriteSpec} {t u s : ValueType} {v lo hi : Value} {x : Nat} {d e : Datum}

theorem map_range_getD (l : List Nat) : (List.range l.length).map (fun k => l[k]?.getD 0) = l := by
  refine List.ext_getElem? fun j => ?_
  by_cases hj : j < l.length
  · rw [List.getElem?_map, List.getElem?_range hj, Option.map_some, List.getElem?_eq_getElem hj,
      Option.getD_some]
  · rw [List.getElem?_eq_none (by simpa using hj), List.getElem?_eq_none (Nat.le_of_not_lt hj)]

/-- Two values of one type whose bits, one after the other, are those of the operand, of type
`u`. -/
def HasBits (V : RewriteSpec) (u : ValueType) (p : Value × Value) : Prop :=
  ∃ s d e, V.Is p.1 s d ∧ V.Is p.2 s e ∧ u.bits = 2 * s.bits ∧
    (V.sem → (V.data 0).number u = d.number s + 2 ^ s.bits * e.number s)

/-- Words as wide as a vector of an illegal type may be used. -/
theorem word_of_bits {op : Opcode} {ts : List ValueType} (hn : V.Shows op ts t) (hu : u ∈ t :: ts)
    (hc : V.T.classify u ≠ .legal) (hvector : u.isVector = true) (hs : s.IsWord)
    (hbits : s.bits = u.bits) : V.Word 5 s :=
  ⟨hs, .lighter (hn.append_eq ▸ hu) (Target.weight_word_lt hs hc (fun h => by
    rw [h.2] at hvector
    cases hvector) (Nat.le_of_eq hbits)) (Nat.le_refl 5)⟩

section
variable (hn : V.Shows .bitcast [u] t) (hbits : u.bits = t.bits) (hc : V.T.classify t = .split)
include hn hbits hc

/-- The low bits of a scalar, in two integers. -/
theorem meets_halvesAsIntegers (h : V.Is v s (.scalar x)) (hle : u.bits ≤ s.bits)
    (hwhole : ∀ w : ValueType, w.IsWord → w.bits = s.bits →
      V.Word 1 w ∧ (s ≠ w → V.Admits .bitcast [w, s]))
    (hx : V.sem → (V.data 0).number u = x % 2 ^ u.bits) :
    V.Meets (halvesAsIntegers V.id v u.bits) (HasBits V u) := by
  have ht := halved hc
  have htbits := ht.bits
  have htotal := hn.not_total rfl
  refine .typeOf_bind h ?_
  split
  · next whole half hwholeEq hhalfEq =>
    obtain ⟨hwword, hwbits⟩ := ValueType.int?_eq_some hwholeEq
    obtain ⟨hhword, hhbits⟩ := ValueType.int?_eq_some hhalfEq
    obtain ⟨hwsmall, hcast⟩ := hwhole whole hwword hwbits
    have hpos := half.bits_pos
    have hhsmall : V.Small 5 half :=
      hn.small_narrower List.mem_cons_self ht.illegal (by omega)
    have hadmits : V.Admits .truncate [half, whole] := by
      refine .of_small (by simp) ?_ fun h => absurd h htotal
      simpa [Opcode.stage] using ⟨hhsmall.mono (by decide), hwsmall.2⟩
    refine .bind (.bitcastScalar hwword.2 hwbits.symm hcast h) fun w hw => ?_
    refine (Meets.cutInteger (hwsmall.mono (by decide)) hhword (by omega) hadmits hw).mono
      fun p hp => ⟨half, _, _, hp.1, hp.2, by omega, fun hs => ?_⟩
    rw [hx hs, Datum.number_scalar, Datum.number_scalar, ← Word.mod_double,
      show 2 * half.bits = u.bits by omega]
  · exact .obstacle _ htotal

/-- The halves of a legal vector. Where nodes are measured, its lanes are legal. -/
theorem meets_legalHalves (hlegal : V.T.classify u = .legal) (hu : u.isVector = true)
    {l : List Nat} (h : V.Is v u (.vector l)) (hl : V.sem → V.data 0 = .vector l) :
    V.Meets (legalHalves V.T V.id v u) (HasBits V u) := by
  have ht := halved hc
  have htotal := hn.not_total rfl
  unfold legalHalves
  split
  · next half hhalf =>
    obtain ⟨_, hhvector, hscalar, hlanes⟩ := ValueType.half?_eq_some hhalf
    obtain ⟨hlaneBits, hhbits⟩ := ValueType.bits_half hhalf
    have hsmall (c : Nat) : V.Small c u.scalar := fun hm => Small.legal (V.laned hm u (hn.mem_operand (by simp)) hlegal) hm
    have hpos := half.bits_pos
    have hhsmall : V.Small 0 half :=
      (hn.small_narrower List.mem_cons_self ht.illegal (by omega)).mono (Nat.zero_le _)
    have hextract : V.Admits .extractElement [u.scalar, u, V.T.indexType] := by
      refine .of_small (by simp) ?_ fun h => absurd h htotal
      simpa using ⟨hsmall _, .legal hlegal, .legal V.regular.indexType.2.1⟩
    -- the vector of the lanes in a list of positions
    have hgather {ks : List Nat} {ws : List Value} (hks : ks.length = half.lanes)
        (hws : List.Forall₂ (fun w k => V.Is w u.scalar (.scalar (l[k]?.getD 0))) ws ks) :
        V.Meets (Edit.buildVector ws half) fun w =>
          V.Is w half (.vector (ks.map fun k => l[k]?.getD 0)) := by
      refine .buildElements hhvector ?_ (by rw [List.length_map, hks]) htotal
        ⟨hhsmall, by rw [hscalar]; exact hsmall 0⟩
      rw [hscalar]
      exact List.forall₂_map_right_iff.2 hws
    have hmem (k : Nat) (hk : k ∈ List.range u.lanes) : k < u.lanes := List.mem_range.1 hk
    refine .bind (.readLanes hu hextract h fun k hk => hmem k (List.mem_of_mem_take hk))
      fun los hlos => .bind (hgather ?_ hlos) fun lo hlo => ?_
    · rw [List.length_take, List.length_range]
      omega
    refine .bind (.readLanes hu hextract h fun k hk => hmem k (List.mem_of_mem_drop hk))
      fun his hhis => .bind (hgather ?_ hhis) fun hi hhi => .pure ?_
    · rw [List.length_drop, List.length_range]
      omega
    refine ⟨half, _, _, hlo, hhi, hhbits, fun hs => ?_⟩
    have hlen := (Datum.fits_vector.1 (h.fits hs)).2.1
    have hlow : ((List.range u.lanes).take (u.lanes / 2)).length = half.lanes := by
      rw [List.length_take, List.length_range]
      omega
    rw [hl hs, ← Datum.number_append hhalf (by rw [List.length_map, hlow]), ← List.map_append,
      List.take_append_drop, ← hlen, map_range_getD]
  · exact .obstacle _ htotal

theorem meets_bitHalves (hv : V.Source v) (h : V.Is v u (V.data 0)) :
    V.Meets (bitHalves V.T V.id v) (HasBits V u) := by
  have ht := halved hc
  have htotal := hn.not_total rfl
  have hword (w : ValueType) (hw : w.IsWord) (hwbits : w.bits = u.bits) : V.Word 5 w :=
    word_of_bits hn List.mem_cons_self ht.illegal ht.vector hw (hwbits.trans hbits)
  refine .typeOf_bind h ?_
  split
  · next hcu =>
    have hu := halved hcu
    obtain ⟨l, hl, hdata⟩ := h.vector hu.vector
    refine (Meets.vectorHalves hv hl hcu).mono ?_
    rintro p ⟨m, m', hlo, hhi, hm⟩
    refine ⟨_, _, _, hlo, hhi, hu.bits, fun hs => ?_⟩
    rw [hdata hs, hm hs, Datum.number_append hu.half (Datum.fits_vector.1 (hlo.fits hs)).2.1]
  · next hcu =>
    obtain ⟨huword, _, hubits, _⟩ := V.regular.expanded hcu
    obtain ⟨y, hy, hdata⟩ := h.scalar huword.2
    refine (Meets.halves hv hy hcu).mono ?_
    rintro p ⟨a, b, hlo, hhi, hab⟩
    refine ⟨_, _, _, hlo, hhi, hubits, fun hs => ?_⟩
    rw [hdata hs, Datum.number_scalar, Datum.number_scalar, Datum.number_scalar, hab hs]
  · next hcu =>
    obtain ⟨rfl, _⟩ := V.regular.paired hcu
    obtain ⟨y, hy, hdata⟩ := h.scalar rfl
    refine (Meets.floatParts hv hy hcu).mono ?_
    rintro p ⟨a, b, hlo, hhi, hab⟩
    refine ⟨_, _, _, hlo, hhi, rfl, fun hs => ?_⟩
    rw [hdata hs, Datum.number_scalar, Datum.number_scalar, Datum.number_scalar, hab hs]
    rfl
  · next hcu =>
    by_cases hu : u.isVector = true
    · obtain ⟨l, hl, hdata⟩ := h.vector hu
      rw [if_pos hu]
      exact meets_legalHalves hn hbits hc hcu hu hl hdata
    · have hu' : u.isVector = false := by simpa using hu
      obtain ⟨y, hy, hdata⟩ := h.scalar hu'
      rw [if_neg hu]
      refine meets_halvesAsIntegers hn hbits hc hy (Nat.le_refl _) (fun w hw hwbits => ?_)
        fun hs => ?_
      · have hw' := hword w hw hwbits
        refine ⟨hw'.mono (by decide), fun _ => .of_small (by simp) ?_ fun h => absurd h htotal⟩
        simpa [Opcode.stage] using ⟨hw'.2.mono (by decide), .legal hcu⟩
      · rw [hdata hs, Datum.number_scalar, Nat.mod_eq_of_lt (hy.lt hs)]
  · next hcu =>
    obtain ⟨huword, hwide, hlt, hlegal⟩ := V.regular.promoted hcu
    obtain ⟨y, hy, hdata⟩ := h.scalar huword.2
    refine .bind (.promoted hv hy hcu) ?_
    rintro w ⟨z, hw, hz⟩
    refine meets_halvesAsIntegers hn hbits hc hw (Nat.le_of_lt hlt)
      (fun w' hw' hw'bits => ?_) fun hs => ?_
    · obtain rfl : w' = V.T.transform u := hw'.eq_of_bits_eq hwide hw'bits
      exact ⟨.promoted hcu, fun h => absurd rfl h⟩
    · rw [hdata hs, Datum.number_scalar, hz hs]
  · next hcu =>
    obtain ⟨_, huvector, hwide, hwbits, _⟩ := V.regular.softened hcu
    obtain ⟨y, hy, hdata⟩ := h.scalar huvector
    refine .bind (.softened hv hy hcu) fun w hw => ?_
    refine meets_halvesAsIntegers hn hbits hc hw (Nat.le_of_eq hwbits.symm)
      (fun w' hw' hw'bits => ?_) fun hs => ?_
    · obtain rfl : w' = V.T.transform u := hw'.eq_of_bits_eq hwide hw'bits
      exact ⟨(hword _ hw' hwbits).mono (by decide), fun h => absurd rfl h⟩
    · rw [hdata hs, Datum.number_scalar, ← hwbits, Nat.mod_eq_of_lt (hw.lt hs)]
  · next hcu =>
    obtain ⟨hlanes, _⟩ := V.regular.scalarized hcu
    have hu : u.isVector = true := by simp [ValueType.isVector, hlanes]
    have hlight := Target.weight_scalar_lt (T := V.T) hu (by rw [hcu]; simp)
    have hsbits := ValueType.bits_scalar hlanes
    obtain ⟨l, hl, hdata⟩ := h.vector hu
    refine .bind (.soleLane hv hl hcu) ?_
    rintro w ⟨y, hw, hy⟩
    refine meets_halvesAsIntegers hn hbits hc hw (Nat.le_of_eq hsbits.symm)
      (fun w' hw' hw'bits => ?_) fun hs => ?_
    · have hw'' := hword w' hw' (hw'bits.trans hsbits)
      refine ⟨hw''.mono (by decide), fun _ => .of_small (by simp) ?_ fun h => absurd h htotal⟩
      simpa [Opcode.stage] using ⟨hw''.2.mono (by decide),
        .lighter (hn.mem_operand (u := u) (by simp)) hlight (by decide)⟩
    · rw [hdata hs, hy hs, Datum.number, Datum.lanes, Nat.ofDigits_singleton, ← hsbits,
        Nat.mod_eq_of_lt (hw.lt hs)]

end

/-- Two values of half the width, cast to the type of the halves. -/
theorem meets_castHalves {op : Opcode} {ts : List ValueType} (hn : V.Shows op ts t)
    (hop : ¬(op = .anyExtend ∨ op = .extractElement)) (hc : V.T.classify t = .split)
    (hsbits : s.bits = (V.T.transform t).bits) (hlo : V.Is lo s d) (hhi : V.Is hi s e)
    (h : V.sem → V.datum = .ofNumber t (d.number s + 2 ^ s.bits * e.number s)) : V.Meets (do
      let lo ← Edit.bitcast lo (V.T.transform t)
      let hi ← Edit.bitcast hi (V.T.transform t)
      return (lo, hi)) (V.Paired t) := by
  have ht := halved hc
  have htbits := ht.bits
  have hpos := s.bits_pos
  have hadmits : V.Admits .bitcast [V.T.transform t, s] := by
    refine .of_small (by simp) ?_ fun h => absurd h (not_total hn List.mem_cons_self ht.vector)
    have hsmall (w : ValueType) (hw : w.bits = s.bits) : V.Small 3 w :=
      (hn.small_narrower List.mem_cons_self ht.illegal (by omega)).mono (by decide)
    simpa [Opcode.stage] using ⟨hsmall _ hsbits.symm, hsmall s rfl⟩
  refine .bind (.bitcast hsbits (fun _ => hadmits) hlo) fun lo' hlo' => ?_
  refine .bind (.bitcast hsbits (fun _ => hadmits) hhi) fun hi' hhi' =>
    .pure (Is.paired hlo' hhi' fun hs => ?_)
  rw [hn.accepts_iff hop, h hs, Datum.number_ofNumber, Datum.number_ofNumber, ← hsbits,
    Nat.mod_eq_of_lt (hlo.fits hs).number_lt, Nat.mod_eq_of_lt (hhi.fits hs).number_lt]

theorem meets_ofBitcast (hn : V.Shows .bitcast [u] t) (hbits : u.bits = t.bits)
    (hc : V.T.classify t = .split) : V.Meets (ofBitcast V.T V.id 0) (V.Paired t) := by
  have htbits := (halved hc).bits
  refine .bind (.transformed hn) ?_
  rintro _ rfl
  refine .bind (.operand (hn.operandType rfl)) fun v hv => ?_
  refine .bind (meets_bitHalves hn hbits hc hv.1 hv.2) ?_
  rintro ⟨lo, hi⟩ ⟨s, d, e, hlo, hhi, hsbits, hsum⟩
  refine .typeOf_bind hlo ?_
  rw [if_neg (by omega)]
  refine meets_castHalves hn (by simp) hc (by omega) hlo hhi fun hs => ?_
  rw [hn.datum_bitcast hs hbits, hsum hs]

theorem meets_ofPair (hn : V.Shows .buildPair [u, u] t) (hbits : t.bits = 2 * u.bits)
    (hc : V.T.classify t = .split) : V.Meets (ofPair V.T V.id 0) (V.Paired t) := by
  have htbits := (halved hc).bits
  refine .bind (.transformed hn) ?_
  rintro _ rfl
  refine .bind (.operand (hn.operandType rfl)) fun lo hlo => ?_
  refine .bind (.operand (hn.operandType rfl)) fun hi hhi => ?_
  refine .typeOf_bind hlo.2 ?_
  rw [if_neg (by omega)]
  refine .typeOf_bind hhi.2 ?_
  rw [if_neg (by omega)]
  refine meets_castHalves hn (by simp) hc (by omega) hlo.2 hhi.2 fun hs => ?_
  rw [hn.datum_pair hs hbits]

/-! ### Operands -/

/-- The halves may be cast to types of their width. -/
theorem admits_cast (hn : V.Shows .bitcast [u] t) (hc : V.T.classify u = .split)
    (hs : s.bits = (V.T.transform u).bits) : V.Admits .bitcast [s, V.T.transform u] := by
  have hu := halved hc
  have hubits := hu.bits
  have hpos := s.bits_pos
  refine .of_small (by simp) ?_ fun h => absurd h (hn.not_total rfl)
  have hsmall (w : ValueType) (hw : w.bits = s.bits) : V.Small 3 w :=
    (hn.small_narrower (u := u) (by simp) hu.illegal (by omega)).mono (by decide)
  simpa [Opcode.stage] using ⟨hsmall s rfl, hsmall _ hs.symm⟩

/-- The bits of the node are those of the halves. -/
theorem datum_halves {m m' : List Nat} (hn : V.Shows .bitcast [u] t) (hbits : u.bits = t.bits)
    (hc : V.T.classify u = .split) (hlo : V.Is lo (V.T.transform u) (.vector m))
    (hm : V.sem → V.lanesOf 0 = m ++ m') (hs : V.sem) :
    V.datum = .ofNumber t ((Datum.vector m).number (V.T.transform u) +
      2 ^ (V.T.transform u).bits * (Datum.vector m').number (V.T.transform u)) := by
  have hu := halved hc
  rw [hn.datum_bitcast hs hbits, V.data_vector hs (hn.operandType rfl) hu.vector, hm hs,
    Datum.number_append hu.half (Datum.fits_vector.1 (hlo.fits hs)).2.1]

section
variable {m m' : List Nat} (hn : V.Shows .bitcast [u] t) (hbits : u.bits = t.bits)
  (hlegal : V.T.classify t = .legal) (hc : V.T.classify u = .split)
  (hlo : V.Is lo (V.T.transform u) (.vector m)) (hhi : V.Is hi (V.T.transform u) (.vector m'))
  (hm : V.sem → V.lanesOf 0 = m ++ m')
include hn hbits hlegal hc hlo hhi hm

theorem meets_scalarFromHalves (ht : t.isVector = false) :
    V.Meets (scalarFromHalves V.id lo hi t) (V.Stands t) := by
  have hu := halved hc
  have hubits := hu.bits
  have htotal := hn.not_total rfl
  unfold scalarFromHalves
  split
  · next whole half hwhole hhalf =>
    obtain ⟨hwword, hwbits⟩ := ValueType.int?_eq_some hwhole
    obtain ⟨hhword, hhbits⟩ := ValueType.int?_eq_some hhalf
    have hpos := half.bits_pos
    have hhbits' : half.bits = (V.T.transform u).bits := by omega
    have hcast := admits_cast hn hc hhbits'
    have hwhole' := word_of_bits hn (u := u) (by simp) hu.illegal hu.vector hwword (by omega)
    have hhalf' : V.Word 1 half :=
      ⟨hhword, (hn.small_narrower (u := u) (by simp) hu.illegal (by omega)).mono (by decide)⟩
    have hback : V.Admits .bitcast [t, whole] := by
      refine .of_small (by simp) ?_ fun h => absurd h htotal
      simpa [Opcode.stage] using ⟨.legal hlegal, hwhole'.2.mono (by decide)⟩
    refine .bind (.bitcast hhbits'.symm (fun _ => hcast) hlo) fun lo' hlo' => ?_
    refine .bind (.bitcast hhbits'.symm (fun _ => hcast) hhi) fun hi' hhi' => ?_
    rw [Datum.ofNumber_word hhword.2] at hlo' hhi'
    refine .bind (.joinHalves hhalf' (hwhole'.mono (by decide)) (by omega) hlo' hhi') ?_
    rintro w ⟨z, hw, hz⟩
    refine (Meets.bitcastScalar ht hwbits (fun _ => hback) hw).mono fun w' hw' =>
      hw'.stands fun hs => ?_
    have hz := hz hs
    rw [hhbits', Nat.mod_eq_of_lt (hlo.fits hs).number_lt, Nat.mod_eq_of_lt (hhi.fits hs).number_lt,
      show 2 * (V.T.transform u).bits = whole.bits by omega, Nat.mod_eq_of_lt (hw.lt hs)] at hz
    have hlt := hw.lt hs
    rw [hwbits] at hlt
    rw [hn.accepts_iff (by simp), datum_halves hn hbits hc hlo hm hs, ← hz,
      Datum.ofNumber_word ht, Nat.mod_eq_of_lt hlt]
  · exact .obstacle _ htotal

theorem meets_vectorFromHalves (ht : t.isVector = true) :
    V.Meets (vectorFromHalves V.T V.id lo hi t) (V.Stands t) := by
  have hu := halved hc
  have hubits := hu.bits
  have htotal := hn.not_total rfl
  unfold vectorFromHalves
  split
  · next half hhalf =>
    obtain ⟨_, hhvector, hscalar, hlanes⟩ := ValueType.half?_eq_some hhalf
    obtain ⟨_, hhbits⟩ := ValueType.bits_half hhalf
    have hpos := half.bits_pos
    have hhbits' : half.bits = (V.T.transform u).bits := by omega
    have hcast := admits_cast hn hc hhbits'
    have hsmall (c : Nat) : V.Small c t.scalar := fun hm => Small.legal (V.laned hm t hn.mem hlegal) hm
    have hhsmall : V.Small 4 half :=
      (hn.small_narrower (u := u) (by simp) hu.illegal (by omega)).mono (by decide)
    have hextract : V.Admits .extractElement [half.scalar, half, V.T.indexType] := by
      refine .of_small (by simp) ?_ fun h => absurd h htotal
      rw [hscalar]
      simpa [Opcode.stage] using ⟨hsmall _, hhsmall, .legal V.regular.indexType.2.1⟩
    -- the lanes of a half that is cast
    have hread {w : Value} {l : List Nat} (hw : V.Is w (V.T.transform u) (.vector l)) {α : Type}
        {f : List Value → Edit α} {Q : α → Prop}
        (hf : ∀ ws xs, List.Forall₂ (fun w x => V.Is w t.scalar (.scalar x)) ws xs →
          xs.length = half.lanes → (V.sem → .ofNumber half
            ((Datum.vector l).number (V.T.transform u)) = Datum.vector xs) → V.Meets (f ws) Q) :
        V.Meets (Edit.bitcast w half >>= fun w' =>
          (List.range half.lanes).mapM (Edit.extractLane V.T w') >>= f) Q := by
      refine .bind (.bitcast hhbits'.symm (fun _ => hcast) hw) fun w' hw' => ?_
      obtain ⟨l', hl', heq⟩ := hw'.vector hhvector
      refine .bind (.readLanes hhvector hextract hl' fun k hk => List.mem_range.1 hk) fun ws hws => ?_
      rw [hscalar] at hws
      refine hf ws ((List.range half.lanes).map fun k => l'[k]?.getD 0)
        (List.forall₂_map_right_iff.2 hws) (by simp) fun hs => ?_
      have hlen := (Datum.fits_vector.1 (hl'.fits hs)).2.1
      rw [heq hs, ← hlen, map_range_getD]
    refine hread hlo fun los xs hlos hxs hx => hread hhi fun his ys hhis hys hy => ?_
    refine (Meets.buildElements ht (List.rel_append hlos hhis)
      (by rw [List.length_append]; omega) htotal ⟨.legal hlegal, hsmall 0⟩).mono fun w hw =>
        hw.stands fun hs => ?_
    have hfits := hw.fits hs
    rw [hn.accepts_iff (by simp), datum_halves hn hbits hc hlo hm hs,
      ← hfits.ofNumber_number, Datum.number_append hhalf hxs, ← hx hs, ← hy hs,
      Datum.number_ofNumber, Datum.number_ofNumber, hhbits',
      Nat.mod_eq_of_lt (hlo.fits hs).number_lt, Nat.mod_eq_of_lt (hhi.fits hs).number_lt]
  · exact .obstacle _ htotal

end

theorem meets_inBitcast (hn : V.Shows .bitcast [u] t) (hbits : u.bits = t.bits)
    (hlegal : V.T.classify t = .legal) (hc : V.T.classify u = .split) :
    V.Meets (inBitcast V.T V.id) (V.Stands t) := by
  have hu := halved hc
  refine .bind (.resultType hn.results) ?_
  rintro _ rfl
  refine .bind (.operandLanes (hn.operandType rfl) hu.vector) fun v hv => ?_
  refine .bind (.vectorHalves hv.1 hv.2 hc) ?_
  rintro ⟨lo, hi⟩ ⟨m, m', hlo, hhi, hm⟩
  dsimp only
  split
  · next ht => exact meets_vectorFromHalves hn hbits hlegal hc hlo hhi hm ht
  · next ht => exact meets_scalarFromHalves hn hbits hlegal hc hlo hhi hm (by simpa using ht)

end Dataflow.Legal.Split
