import Dataflow.Proofs.Rules.Leaves
import Mathlib.Tactic.Choose

/-!
# Vectors in two halves: lanes

The lanes of the halves, one half after the other, are the lanes of the vector.
-/

namespace Dataflow.Legal.Split

open RuleSpec RewriteSpec

variable {V : RewriteSpec} {t u : ValueType} {op : Opcode} {ts : List ValueType}

/-- What is known of a type that is split. -/
structure Halved (V : RewriteSpec) (t : ValueType) : Prop where
  half : t.half? = some (V.T.transform t)
  illegal : V.T.classify t ≠ .legal
  vector : t.isVector = true
  halfVector : (V.T.transform t).isVector = true
  scalar : (V.T.transform t).scalar = t.scalar
  lanes : t.lanes = 2 * (V.T.transform t).lanes
  laneBits : (V.T.transform t).laneBits = t.laneBits
  bits : t.bits = 2 * (V.T.transform t).bits
  light : V.T.weight (V.T.transform t) < V.T.weight t
  scalarLight : V.T.weight t.scalar < V.T.weight t

theorem halved (hc : V.T.classify t = .split) : Halved V t := by
  have hillegal : V.T.classify t ≠ .legal := by rw [hc]; simp
  have hhalf := V.regular.halved hc
  obtain ⟨hvector, hhvector, hscalar, hlanes⟩ := ValueType.half?_eq_some hhalf
  obtain ⟨hlaneBits, hbits⟩ := ValueType.bits_half hhalf
  exact ⟨hhalf, hillegal, hvector, hhvector, hscalar, hlanes, hlaneBits.symm, hbits,
    Target.weight_transform_lt V.regular hillegal, Target.weight_scalar_lt hvector hillegal⟩

/-- Vectors are no scalar integer code. -/
theorem not_total (hn : V.Shows op ts t) (hu : u ∈ t :: ts) (h : u.isVector = true) : ¬ V.total :=
  hn.not_total_of_mem hu fun hword => by
    rw [hword.2] at h
    cases h

/-! ### Leaves -/

theorem meets_ofArgument (hn : V.Shows .argument [] t) (hc : V.T.classify t = .split) :
    V.Meets (ofArgument V.T V.id 0) (V.Paired t) := by
  refine .bind (.transformed hn) ?_
  rintro _ rfl
  exact Meets.argumentParts (halved hc).illegal hn (halved hc).bits

theorem meets_ofUndef (hn : V.Shows .undef [] t) (hc : V.T.classify t = .split) :
    V.Meets (ofUndef V.T V.id 0) (V.Paired t) := by
  refine .bind (.transformed hn) ?_
  rintro _ rfl
  exact Meets.undefParts (halved hc).illegal hn

/-! ### Lane by lane -/

/-- Operations on the halves may be added. -/
theorem admits_halves (hn : V.Shows op ts t) (hc : V.T.classify t = .split) {op' : Opcode}
    {us : List ValueType} (hop : op' ≠ .buildPair) (hus : ∀ u ∈ us, u = V.T.transform t) :
    V.Admits op' us := by
  refine .of_small hop (fun u hu => ?_) fun h =>
    absurd h (not_total hn List.mem_cons_self (halved hc).vector)
  rw [hus u hu]
  exact .lighter hn.mem (halved hc).light op'.stage_le

theorem meets_ofUnary (hn : V.Shows op [t] t) (hsig : Signature V.T.Wide op [t] t)
    (hop : op.isSameTypeUnary) (hc : V.T.classify t = .split) :
    V.Meets (ofUnary V.id) (V.Paired t) := by
  have ht := halved hc
  have hadmits : V.Admits op [V.T.transform t, V.T.transform t] :=
    admits_halves hn hc (by rintro rfl; cases hop) (by simp)
  refine .bind (.node V.node_final) ?_
  rintro _ rfl
  rw [hn.opcode]
  refine .bind (.operandLanes (hn.operandType rfl) ht.vector) fun v hv => ?_
  refine .bind (.vectorHalves hv.1 hv.2 hc) ?_
  rintro ⟨lo, hi⟩ ⟨l, l', hlo, hhi, hl⟩
  have hsplit (hs : V.sem) : ∃ r r', V.datum = .vector (r ++ r') ∧ ∀ ops attr types,
      Node.meaning V.args ⟨op, ops, [V.T.transform t], attr⟩ [.vector l] types = .ok (.vector r) ∧
      Node.meaning V.args ⟨op, ops, [V.T.transform t], attr⟩ [.vector l'] types =
        .ok (.vector r') := by
    have hmeans := hn.means (by rintro rfl; cases hop) hs
    rw [show (List.range [t].length).map V.data = [V.data 0] from rfl,
      V.data_vector hs (hn.operandType rfl) ht.vector, hl hs] at hmeans
    exact Node.meaning_split₁ hop ht.half hmeans
  choose! r r' hd hmean using hsplit
  have hsig' := hsig.retype₁ hop ht.scalar
  refine .bind (.unary hop hsig' hadmits hlo fun hs ops attr types => (hmean hs ops attr types).1)
    fun lo' hlo' => ?_
  refine .bind (.unary hop hsig' hadmits hhi fun hs ops attr types => (hmean hs ops attr types).2)
    fun hi' hhi' => .pure (Is.pairedLanes ht.half hlo' hhi' fun hs => ?_)
  rw [hn.accepts_iff (by rintro (rfl | rfl) <;> cases hop), hd hs]

theorem meets_ofBinary (hn : V.Shows op [t, t] t) (hsig : Signature V.T.Wide op [t, t] t)
    (hop : op.isIntBinary ∨ op.isFloatBinary) (hc : V.T.classify t = .split) :
    V.Meets (ofBinary V.id) (V.Paired t) := by
  have ht := halved hc
  have hne := Opcode.ne_of_isBinary hop
  have hadmits : V.Admits op [V.T.transform t, V.T.transform t, V.T.transform t] :=
    admits_halves hn hc hne.2.1 (by simp)
  refine .bind (.node V.node_final) ?_
  rintro _ rfl
  rw [hn.opcode]
  refine .bind (.operandLanes (hn.operandType rfl) ht.vector) fun v hv => ?_
  refine .bind (.operandLanes (hn.operandType rfl) ht.vector) fun w hw => ?_
  refine .bind (.vectorHalves hv.1 hv.2 hc) ?_
  rintro ⟨aLo, aHi⟩ ⟨l, l', haLo, haHi, hl⟩
  refine .bind (.vectorHalves hw.1 hw.2 hc) ?_
  rintro ⟨bLo, bHi⟩ ⟨m, m', hbLo, hbHi, hm⟩
  have hsplit (hs : V.sem) : ∃ r r', V.datum = .vector (r ++ r') ∧ ∀ ops attr types,
      Node.meaning V.args ⟨op, ops, [V.T.transform t], attr⟩ [.vector l, .vector m] types =
        .ok (.vector r) ∧
      Node.meaning V.args ⟨op, ops, [V.T.transform t], attr⟩ [.vector l', .vector m'] types =
        .ok (.vector r') := by
    have hmeans := hn.means hne.1 hs
    rw [show (List.range [t, t].length).map V.data = [V.data 0, V.data 1] from rfl,
      V.data_vector hs (hn.operandType rfl) ht.vector,
      V.data_vector hs (hn.operandType rfl) ht.vector, hl hs, hm hs] at hmeans
    refine Node.meaning_split₂ hsig hop ht.half ?_ hmeans
    rw [(Datum.fits_vector.1 (haLo.fits hs)).2.1, (Datum.fits_vector.1 (hbLo.fits hs)).2.1]
  choose! r r' hd hmean using hsplit
  have hsig' := hsig.retype₂ hop ht.scalar
  refine .bind (.binary hop hsig' hadmits haLo hbLo fun hs ops attr types =>
    (hmean hs ops attr types).1) fun lo' hlo' => ?_
  refine .bind (.binary hop hsig' hadmits haHi hbHi fun hs ops attr types =>
    (hmean hs ops attr types).2) fun hi' hhi' =>
      .pure (Is.pairedLanes ht.half hlo' hhi' fun hs => ?_)
  rw [hn.accepts_iff hne.2.2, hd hs]

theorem meets_ofSelect {c : ValueType} (hn : V.Shows .select [c, t, t] t) (hcond : c.IsWord)
    (hc : V.T.classify t = .split) : V.Meets (ofSelect V.id) (V.Paired t) := by
  have ht := halved hc
  have hlight := ht.light
  have hadmits : V.Admits .select [V.T.transform t, c, V.T.transform t, V.T.transform t] :=
    hn.admits (by simp) (by simp [Nat.le_of_lt hlight]) (by simp; omega) fun h =>
      absurd h (not_total hn List.mem_cons_self ht.vector)
  refine .bind (.operandWord (hn.operandType rfl) hcond.2) fun cond hk => ?_
  refine .typeOf_bind hk.2 ?_
  rw [if_neg (by rw [hcond.2]; simp)]
  refine .bind (.operandLanes (hn.operandType rfl) ht.vector) fun v hv => ?_
  refine .bind (.operandLanes (hn.operandType rfl) ht.vector) fun w hw => ?_
  refine .bind (.vectorHalves hv.1 hv.2 hc) ?_
  rintro ⟨aLo, aHi⟩ ⟨l, l', haLo, haHi, hl⟩
  refine .bind (.vectorHalves hw.1 hw.2 hc) ?_
  rintro ⟨bLo, bHi⟩ ⟨m, m', hbLo, hbHi, hm⟩
  refine .bind (.selectOf hcond hadmits hk.2 haLo hbLo) fun lo hlo => ?_
  refine .bind (.selectOf hcond hadmits hk.2 haHi hbHi) fun hi hhi => .pure ?_
  have hlo := hlo.congr (e := .vector (if V.bitsOf 0 ≠ 0 then l else m)) fun _ => by split <;> rfl
  have hhi := hhi.congr (e := .vector (if V.bitsOf 0 ≠ 0 then l' else m')) fun _ => by split <;> rfl
  refine Is.pairedLanes ht.half hlo hhi fun hs => ?_
  rw [hn.accepts_iff (by simp), hn.datum_select hs hcond,
    V.data_vector hs (hn.operandType (i := 1) rfl) ht.vector,
    V.data_vector hs (hn.operandType (i := 2) rfl) ht.vector, hl hs, hm hs]
  split <;> rfl

/-! ### Elements -/

theorem meets_ofBuildVector {es : List ValueType} (hn : V.Shows .buildVector es t)
    (hlen : es.length = t.lanes) (hes : ∀ e ∈ es, V.T.Writes V.limit t e)
    (hc : V.T.classify t = .split) : V.Meets (ofBuildVector V.T V.id 0) (V.Paired t) := by
  have ht := halved hc
  refine .bind (.transformed hn) ?_
  rintro _ rfl
  refine .bind (.operands V) fun vs hvs => ?_
  rw [hn.types] at hvs
  rw [if_neg (by rw [hvs.1, hlen, ht.lanes]; simp)]
  -- the elements may be lanes of the halves, too
  have helement (v : Value) (hv : v ∈ vs) :
      ∃ e x, V.Is v e (.scalar x) ∧ V.T.Writes V.limit t e := by
    obtain ⟨j, hj⟩ := List.mem_iff_getElem?.1 hv
    obtain ⟨_, e, he, his⟩ := hvs.2 j v hj
    have hwrites := hes e (List.mem_of_getElem? he)
    obtain ⟨x, hx, _⟩ := his.scalar hwrites.isVector
    exact ⟨e, x, hx, hwrites⟩
  have hbuild (ws : List Value) (hws : ∀ v ∈ ws, v ∈ vs)
      (hwslen : ws.length = (V.T.transform t).lanes) :
      V.Meets (Edit.buildVector ws (V.T.transform t)) fun w => V.Is w (V.T.transform t)
        (.vector (ws.map fun v => V.wordAt v % 2 ^ (V.T.transform t).laneBits)) := by
    refine .buildVector ht.halfVector (fun v hv => ?_) hwslen fun es' hes' _ => ?_
    · obtain ⟨e, x, hx, hwrites⟩ := helement v (hws v hv)
      exact ⟨e, x, hx, hwrites.half V.regular hc⟩
    · refine .of_small (by simp) ?_ fun h =>
        absurd h (not_total hn List.mem_cons_self ht.vector)
      intro u hu
      rcases List.mem_cons.1 hu with rfl | hu
      · exact .lighter hn.mem ht.light (Opcode.stage_le _)
      · have hmem : some u ∈ ws.map V.final.typeOf? := hes' ▸ List.mem_map_of_mem hu
        obtain ⟨v, hv, hvtype⟩ := List.mem_map.1 hmem
        obtain ⟨e, x, hx, hwrites⟩ := helement v (hws v hv)
        cases hx.type.symm.trans hvtype
        intro hm
        rw [hwrites.scalar_of_illegal (V.unmeasured hm) ht.illegal]
        exact Small.lighter hn.mem ht.scalarLight (Opcode.stage_le _) hm
  refine .bind (hbuild _ (fun v => List.mem_of_mem_take) ?_) fun lo hlo => ?_
  · rw [List.length_take, hvs.1, hlen, ht.lanes]
    omega
  refine .bind (hbuild _ (fun v => List.mem_of_mem_drop) ?_) fun hi hhi =>
    .pure (Is.pairedLanes ht.half hlo hhi fun hs => ?_)
  · rw [List.length_drop, hvs.1, hlen, ht.lanes]
    omega
  rw [← List.map_append, List.take_append_drop, hn.accepts_iff (by simp),
    hn.datum_buildVector hs fun e he => (hes e he).isVector, ht.laneBits]
  congr 1
  refine List.ext_getElem? fun j => ?_
  by_cases hj : j < vs.length
  · have hget := List.getElem?_eq_getElem hj
    obtain ⟨_, e, he, his⟩ := hvs.2 j _ hget
    have hscalar := (hes e (List.mem_of_getElem? he)).isVector
    have his := his.congr fun hs => V.data_scalar hs (hn.operandType he) hscalar
    rw [List.getElem?_map, List.getElem?_map, hget, List.getElem?_range (hvs.1 ▸ hj),
      Option.map_some, Option.map_some, his.wordAt hs]
  · rw [List.getElem?_eq_none (by simpa using hj), List.getElem?_eq_none (by
      rw [List.length_map, List.length_range, ← hvs.1]
      omega)]

theorem meets_ofConcat (hn : V.Shows .concatVectors [V.T.transform t, V.T.transform t] t)
    (hc : V.T.classify t = .split) : V.Meets (ofConcat V.T V.id 0) (V.Paired t) := by
  have ht := halved hc
  refine .bind (.transformed hn) ?_
  rintro _ rfl
  refine .bind (.operandLanes (hn.operandType rfl) ht.halfVector) fun lo hlo => ?_
  refine .bind (.operandLanes (hn.operandType rfl) ht.halfVector) fun hi hhi => ?_
  refine .typeOf_bind hlo.2 ?_
  rw [if_pos rfl]
  refine .typeOf_bind hhi.2 ?_
  rw [if_pos rfl]
  refine .pure (Is.pairedLanes ht.half hlo.2 hhi.2 fun hs => ?_)
  rw [hn.accepts_iff (by simp), hn.datum_concat hs ht.halfVector]

/-- A constant below the number of lanes, at the type of the index. -/
theorem meets_laneConstant {i : ValueType} {k : Nat} (hi : i.IsWord)
    (hadmits : V.Admits .constant [i]) (hbits : V.sem → 8 ≤ i.bits) (hk : k < 16) :
    V.Meets (Edit.constant k i) fun v => ∃ c, V.Is v i (.scalar c) ∧ (V.sem → c % 2 ^ 64 = k) ∧
      ∀ u, V.T.Names V.final u i v := by
  refine (Meets.withLiteral (Meets.constantOf hi.2 hadmits k) hi.2).mono fun v hv =>
    ⟨_, hv.1, fun hs => ?_, fun u => Target.names_of_attr hv.2 rfl fun _ _ => ?_⟩
  · have hpow : 2 ^ 8 ≤ 2 ^ i.bits := Nat.pow_le_pow_right (by decide) (hbits hs)
    rw [Nat.mod_eq_of_lt (a := k) (by omega), Nat.mod_eq_of_lt (by omega)]
  · have hle := Nat.mod_le k (2 ^ i.bits)
    calc (k % 2 ^ i.bits + 1) * u.laneBits ≤ 16 * 128 := Nat.mul_le_mul (by omega) u.laneBits_le
      _ ≤ 2 ^ 128 := by decide

/-- Constants of the type of the index may be added: the vector counts too. -/
theorem admits_index {i : ValueType} (hn : V.Shows op ts t) (hi : i ∈ ts)
    (ht : V.T.classify t ≠ .legal) (htotal : ¬ V.total) : V.Admits .constant [i] := by
  refine ⟨fun _ => V.ceiling_eq ▸ Target.burden_lt_of_load
    (Target.height_le_iff.2 ⟨Nat.zero_le _, ?_⟩) ?_, fun h => absurd h htotal⟩
  · intro u hu
    rw [List.mem_singleton.1 hu]
    exact Nat.le_trans (charge_mono (Nat.zero_le _) (Nat.le_refl _))
      (Target.charge_le_height (hn.mem_operand hi))
  · have hpos := Target.weight_pos ht
    have hle := Target.weight_le_load (T := V.T) hi
    rw [hn.append_eq, Target.load_cons, Target.load_cons, Target.load_nil]
    omega

theorem meets_ofInsert {e i : ValueType} (hn : V.Shows .insertElement [t, e, i] t)
    (hnumbered : V.sem → V.numbered) (he : V.T.Writes V.limit t e) (hi : i.IsWord)
    (hc : V.T.classify t = .split) :
    V.Meets (ofInsert V.T V.id 0) (V.Paired t) := by
  have ht := halved hc
  have hlight := ht.light
  have htotal := hn.not_total rfl
  have hlanes : t.lanes ≤ 16 := by cases t <;> decide
  have hdouble := ht.lanes
  have hindex (k : Nat) (hk : k < 16) :=
    meets_laneConstant hi (admits_index hn (i := i) (by simp) ht.illegal htotal)
      (fun hs => hn.insert_index (V.strict_of_sem hs) (hnumbered hs)) hk
  have hwrites := he.half V.regular hc
  have hadmits : V.Admits .insertElement [V.T.transform t, V.T.transform t, e, i] :=
    hn.admits (by simp) (by simp [Nat.le_of_lt hlight]) (by simp; omega) fun h => absurd h htotal
  refine .bind (.transformed hn) ?_
  rintro _ rfl
  refine .bind (.operandLanes (hn.operandType rfl) ht.vector) fun v hv => ?_
  refine .bind (.operandWord (hn.operandType rfl) he.isVector) fun element helement => ?_
  refine .bind (.operandWord (hn.operandType rfl) hi.2) fun index hindexOf => ?_
  refine .bind (.constant? hindexOf.2 hi.2) fun r hr => ?_
  cases r with
  | none => exact .obstacle _ htotal
  | some k =>
    dsimp only
    split
    · exact .bind (P := fun _ => False) (.obstacle _ htotal) fun _ h => h.elim
    next hk =>
    have hdatum (hs : V.sem) : V.datum =
        .vector ((V.lanesOf 0).set k (V.bitsOf 1 % 2 ^ t.laneBits)) := by
      rw [(hn.datum_insert hs ht.vector he.isVector hi).2, (hr k rfl).1 hs (hnumbered hs),
        Nat.mod_eq_of_lt (a := k) (by omega)]
    refine .bind (.vectorHalves hv.1 hv.2 hc) ?_
    rintro ⟨lo, hi'⟩ ⟨l, l', hlo, hhi, hl⟩
    refine .typeOf_bind hindexOf.2 ?_
    have hlen (hs : V.sem) : l.length = (V.T.transform t).lanes :=
      (Datum.fits_vector.1 (hlo.fits hs)).2.1
    have hlen' (hs : V.sem) : l'.length = (V.T.transform t).lanes :=
      (Datum.fits_vector.1 (hhi.fits hs)).2.1
    dsimp only
    split
    · next hlow =>
      refine .bind (hindex k (by omega)) ?_
      rintro index' ⟨c, hindex', hck, _⟩
      refine .bind (.insert ht.halfVector hwrites hi hn.insert_index hadmits hlo helement.2 hindex'
        fun hs => by rw [hck hs, hlen hs]; exact hlow) fun w hw => .pure ?_
      refine Is.pairedLanes ht.half hw hhi fun hs => ?_
      rw [hn.accepts_iff (by simp), hdatum hs, hl hs, hck hs, ht.laneBits,
        List.set_append_left _ _ (by rw [hlen hs]; exact hlow)]
    · next hlow =>
      refine .bind (hindex (k - (V.T.transform t).lanes) (by omega)) ?_
      rintro index' ⟨c, hindex', hck, _⟩
      refine .bind (.insert ht.halfVector hwrites hi hn.insert_index hadmits hhi helement.2 hindex'
        fun hs => by rw [hck hs, hlen' hs]; omega) fun w hw => .pure ?_
      refine Is.pairedLanes ht.half hlo hw fun hs => ?_
      rw [hn.accepts_iff (by simp), hdatum hs, hl hs, hck hs, ht.laneBits,
        List.set_append_right _ _ (by rw [hlen hs]; omega), hlen hs]

/-! ### Operands -/

/-- A lane of the half that holds it, at its index there. -/
theorem meets_laneOfHalf {i : ValueType} (hn : V.Shows .extractElement [u, i] t)
    (hnumbered : V.sem → V.numbered) (hreads : V.T.Reads V.limit u t) (hi : i.IsWord)
    (hc : V.T.classify u = .split) {index half : Value} {l : List Nat} {k x : Nat}
    (hindex : V.Is index i (.scalar x)) (hhalf : V.Is half (V.T.transform u) (.vector l))
    (hk : k < (V.T.transform u).lanes)
    (hget : V.sem → (V.lanesOf 0)[V.bitsOf 1 % 2 ^ 64]? = l[k]?) : V.Meets (do
      let index ← Edit.constant k (← Edit.typeOf index)
      let t ← Edit.resultType V.id 0
      Edit.extractAs half index t) (V.Stands t) := by
  have htotal := hn.not_total rfl
  have hu := halved hc
  have hlight := hu.light
  have hdouble := hu.lanes
  have hlanes : u.lanes ≤ 16 := by cases u <;> decide
  have hconstant : V.Admits .constant [i] := by
    refine .of_small (by simp) ?_ fun h => absurd h htotal
    simpa [Opcode.stage] using hn.small (u := i) (s := 0) (by simp) (by decide)
  have hadmits : V.Admits .extractElement [t, V.T.transform u, i] :=
    hn.admits (by simp) (by simp [Nat.le_of_lt hlight]) (by simp; omega) fun h => absurd h htotal
  refine .typeOf_bind hindex ?_
  refine .bind (meets_laneConstant hi hconstant
    (fun hs => hn.extract_index (V.strict_of_sem hs) (hnumbered hs)) (by omega)) ?_
  rintro index' ⟨c, hindex', hck, hnames⟩
  refine .bind (.resultType hn.results) ?_
  rintro _ rfl
  refine (Meets.extractAs (x := l[k]?.getD 0) hu.halfVector (hreads.half V.regular hc) hi
    hn.extract_index (fun _ => hnames _) hadmits hhalf hindex' fun hs => ?_).mono ?_
  · have hlen := (Datum.fits_vector.1 (hhalf.fits hs)).2.1
    rw [hck hs, List.getElem?_eq_getElem (by rw [hlen]; exact hk)]
    rfl
  · rintro w ⟨y, hw, hy⟩
    refine hw.stands fun hs => ?_
    obtain ⟨x, hx, hd⟩ := hn.datum_extract hs hu.vector hi
    have hy := hy hs
    rw [← hget hs, hx, Option.getD_some] at hy
    refine hn.accepts_low (.inr rfl) hd ?_ fun h =>
      hy.2 (.inr (Target.not_loose_half V.regular h hc))
    rw [← hy.1, ← hu.laneBits, Nat.mod_mod]

theorem meets_inExtract {i : ValueType} (hn : V.Shows .extractElement [u, i] t)
    (hnumbered : V.sem → V.numbered) (hreads : V.T.Reads V.limit u t) (hi : i.IsWord) (j : Nat)
    (hc : ∀ s, [u, i][j]? = some s → V.T.classify s = .split) :
    V.Meets (inExtract V.id j) (V.Stands t) := by
  have htotal := hn.not_total rfl
  unfold inExtract
  split
  · exact .bind (P := fun _ => False) (.obstacle _ htotal) fun _ h => h.elim
  next hj =>
  obtain rfl : j = 0 := not_not.1 hj
  have hc := hc u rfl
  have hu := halved hc
  have hdouble := hu.lanes
  have hlanes : u.lanes ≤ 16 := by cases u <;> decide
  refine .bind (.operandLanes (hn.operandType rfl) hu.vector) fun v hv => ?_
  refine .bind (.operandWord (hn.operandType rfl) hi.2) fun index hindex => ?_
  refine .bind (.constant? hindex.2 hi.2) fun r hr => ?_
  cases r with
  | none => exact .obstacle _ htotal
  | some k =>
    refine .bind (.vectorHalves hv.1 hv.2 hc) ?_
    rintro ⟨lo, hi'⟩ ⟨l, l', hlo, hhi, hl⟩
    refine .typeOf_bind hlo ?_
    dsimp only
    split
    · exact .bind (P := fun _ => False) (.obstacle _ htotal) fun _ h => h.elim
    next hk =>
    have hread (hs : V.sem) : (V.lanesOf 0)[V.bitsOf 1 % 2 ^ 64]? = (l ++ l')[k]? := by
      rw [hl hs, (hr k rfl).1 hs (hnumbered hs), Nat.mod_eq_of_lt (a := k) (by omega)]
    have hlen (hs : V.sem) : l.length = (V.T.transform u).lanes :=
      (Datum.fits_vector.1 (hlo.fits hs)).2.1
    by_cases hlow : k < (V.T.transform u).lanes
    · simp only [if_pos hlow]
      refine meets_laneOfHalf hn hnumbered hreads hi hc hindex.2 hlo hlow fun hs => ?_
      rw [hread hs, List.getElem?_append_left (by rw [hlen hs]; exact hlow)]
    · simp only [if_neg hlow]
      refine meets_laneOfHalf hn hnumbered hreads hi hc hindex.2 hhi (by omega) fun hs => ?_
      rw [hread hs, List.getElem?_append_right (by rw [hlen hs]; omega), hlen hs]

end Dataflow.Legal.Split
