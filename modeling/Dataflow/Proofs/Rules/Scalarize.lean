import Dataflow.Proofs.Rules.Leaves

/-!
# Vectors of one lane

The lane stands for the vector, with the same bits.
-/

namespace Dataflow.Legal.Scalarize

open RuleSpec RewriteSpec

variable {V : RewriteSpec} {t u : ValueType} {op : Opcode} {ts : List ValueType}

theorem oneLane (hc : V.T.classify t = .scalarize) : t.lanes = 1 ∧ t.isVector = true ∧
    V.T.transform t = t.scalar ∧ V.T.weight t.scalar < V.T.weight t := by
  obtain ⟨hlanes, hpart⟩ := V.regular.scalarized hc
  have hvector : t.isVector = true := by simp [ValueType.isVector, hlanes]
  exact ⟨hlanes, hvector, hpart, Target.weight_scalar_lt hvector (by rw [hc]; simp)⟩

/-- The lane makes up the datum. -/
theorem carried {w : Value} {y : Nat} (hc : V.T.classify t = .scalarize)
    (hw : V.Is w t.scalar (.scalar y)) (hd : V.sem → V.Accepts (.vector [y])) : V.Carried t w := by
  obtain ⟨hlanes, _, hpart, _⟩ := oneLane hc
  exact Is.carriedLane (hpart ▸ hw) hlanes hpart hd

/-- A vector has the datum of its lane. -/
theorem number_lane (t : ValueType) (y : Nat) : (Datum.vector [y]).number t = y := by
  rw [Datum.number, Datum.lanes, Nat.ofDigits_singleton]

theorem meets_elementType (hn : V.Shows op ts t) :
    V.Meets (elementType V.id 0) (t.scalar = ·) :=
  .bind (.resultType hn.results) fun u hu => .pure (by rw [hu])

theorem meets_ofArgument (hn : V.Shows .argument [] t) (hc : V.T.classify t = .scalarize) :
    V.Meets (ofArgument V.id 0) (V.Carried t) := by
  obtain ⟨hlanes, _, hpart, _⟩ := oneLane hc
  have hbits := ValueType.bits_scalar hlanes
  have hillegal : V.T.classify t ≠ .legal := by rw [hc]; simp
  refine .bind (meets_elementType hn) ?_
  rintro _ rfl
  rw [← hpart] at hbits ⊢
  exact Meets.argumentPart hillegal hn (Nat.le_of_eq hbits.symm) (.inl hbits)

theorem meets_ofUndef (hn : V.Shows .undef [] t) (hc : V.T.classify t = .scalarize) :
    V.Meets (ofUndef V.id 0) (V.Carried t) := by
  obtain ⟨hlanes, _, hpart, _⟩ := oneLane hc
  refine .bind (meets_elementType hn) ?_
  rintro _ rfl
  rw [← hpart]
  exact Meets.undefPart (by rw [hc]; simp) hn
    (Nat.le_of_eq (by rw [hpart, ValueType.bits_scalar hlanes]))

/-! ### Lane by lane -/

/-- Operations on the lane may be added. -/
theorem admits_lane (hn : V.Shows op ts t) (hc : V.T.classify t = .scalarize) {op' : Opcode}
    {us : List ValueType} (hop : op' ≠ .buildPair) (hus : ∀ u ∈ us, u = t.scalar) :
    V.Admits op' us := by
  obtain ⟨_, hvector, _, hlight⟩ := oneLane hc
  refine .of_small hop (fun u hu => ?_) fun h =>
    absurd h (hn.not_total_of_mem List.mem_cons_self fun hword => by
      rw [hword.2] at hvector
      cases hvector)
  rw [hus u hu]
  exact .lighter hn.mem hlight op'.stage_le

theorem meets_ofUnary (hn : V.Shows op [t] t) (hsig : Signature V.T.Wide op [t] t)
    (hop : op.isSameTypeUnary) (hc : V.T.classify t = .scalarize) :
    V.Meets (ofUnary V.id) (V.Carried t) := by
  obtain ⟨_, hvector, _, _⟩ := oneLane hc
  refine .bind (.node V.node_final) ?_
  rintro _ rfl
  rw [hn.opcode]
  refine .bind (.operandLanes (hn.operandType rfl) hvector) fun v hv => ?_
  refine .bind (.soleLane hv.1 hv.2 hc) ?_
  rintro a ⟨x, ha, hx⟩
  have hlane (hs : V.sem) : ∃ z, V.datum = .vector [z] ∧ ∀ ops attr types,
      Node.meaning V.args ⟨op, ops, [t.scalar], attr⟩ [.scalar x] types = .ok (.scalar z) := by
    have hmeans := hn.means (by rintro rfl; cases hop) hs
    rw [show (List.range [t].length).map V.data = [V.data 0] from rfl,
      V.data_vector hs (hn.operandType rfl) hvector, hx hs] at hmeans
    exact Node.meaning_lane₁ hop hvector hmeans
  refine (Meets.unary (e := .scalar (V.datum.lanes.headD 0)) hop (hsig.retype₁ hop t.scalar_scalar)
    (admits_lane hn hc (by rintro rfl; cases hop) (by simp)) ha
    fun hs ops attr types => ?_).mono fun w hw => carried hc hw fun hs => ?_
  · obtain ⟨z, hz, hmeans⟩ := hlane hs
    rw [hmeans, hz]
    rfl
  · obtain ⟨z, hz, _⟩ := hlane hs
    rw [hn.accepts_iff (by rintro (rfl | rfl) <;> cases hop), hz]
    rfl

theorem meets_ofBinary (hn : V.Shows op [t, t] t) (hsig : Signature V.T.Wide op [t, t] t)
    (hop : op.isIntBinary ∨ op.isFloatBinary) (hc : V.T.classify t = .scalarize) :
    V.Meets (ofBinary V.id) (V.Carried t) := by
  obtain ⟨_, hvector, _, _⟩ := oneLane hc
  have hne := Opcode.ne_of_isBinary hop
  refine .bind (.node V.node_final) ?_
  rintro _ rfl
  rw [hn.opcode]
  refine .bind (.operandLanes (hn.operandType rfl) hvector) fun v hv => ?_
  refine .bind (.operandLanes (hn.operandType rfl) hvector) fun w hw => ?_
  refine .bind (.soleLane hv.1 hv.2 hc) ?_
  rintro a ⟨x, ha, hx⟩
  refine .bind (.soleLane hw.1 hw.2 hc) ?_
  rintro b ⟨y, hb, hy⟩
  have hlane (hs : V.sem) : ∃ z, V.datum = .vector [z] ∧ ∀ ops attr types,
      Node.meaning V.args ⟨op, ops, [t.scalar], attr⟩ [.scalar x, .scalar y] types =
        .ok (.scalar z) := by
    have hmeans := hn.means hne.1 hs
    rw [show (List.range [t, t].length).map V.data = [V.data 0, V.data 1] from rfl,
      V.data_vector hs (hn.operandType rfl) hvector, V.data_vector hs (hn.operandType rfl) hvector,
      hx hs, hy hs] at hmeans
    exact Node.meaning_lane₂ hsig hop hvector hmeans
  refine (Meets.binary (e := .scalar (V.datum.lanes.headD 0)) hop
    (hsig.retype₂ hop t.scalar_scalar) (admits_lane hn hc hne.2.1 (by simp)) ha hb
    fun hs ops attr types => ?_).mono fun w hw => carried hc hw fun hs => ?_
  · obtain ⟨z, hz, hmeans⟩ := hlane hs
    rw [hmeans, hz]
    rfl
  · obtain ⟨z, hz, _⟩ := hlane hs
    rw [hn.accepts_iff hne.2.2, hz]
    rfl

theorem meets_ofSelect {c : ValueType} (hn : V.Shows .select [c, t, t] t) (hcond : c.IsWord)
    (hc : V.T.classify t = .scalarize) : V.Meets (ofSelect V.id) (V.Carried t) := by
  obtain ⟨_, hvector, _, hlight⟩ := oneLane hc
  have hadmits : V.Admits .select [t.scalar, c, t.scalar, t.scalar] :=
    hn.admits (by simp) (by simp [Nat.le_of_lt hlight]) (by simp; omega) fun h =>
      absurd h (hn.not_total_of_mem List.mem_cons_self fun hword => by
        rw [hword.2] at hvector
        cases hvector)
  refine .bind (.operandWord (hn.operandType rfl) hcond.2) fun cond hk => ?_
  refine .bind (.operandLanes (hn.operandType rfl) hvector) fun a ha => ?_
  refine .bind (.operandLanes (hn.operandType rfl) hvector) fun b hb => ?_
  refine .bind (.soleLane ha.1 ha.2 hc) ?_
  rintro a' ⟨x, ha', hx⟩
  refine .bind (.soleLane hb.1 hb.2 hc) ?_
  rintro b' ⟨y, hb', hy⟩
  refine (Meets.selectOf hcond hadmits hk.2 ha' hb').mono fun w hw => ?_
  have hw := hw.congr (e := .scalar (if V.bitsOf 0 ≠ 0 then x else y)) fun _ => by split <;> rfl
  refine carried hc hw fun hs => ?_
  rw [hn.accepts_iff (by simp), hn.datum_select hs hcond,
    V.data_vector hs (hn.operandType (i := 1) rfl) hvector,
    V.data_vector hs (hn.operandType (i := 2) rfl) hvector, hx hs, hy hs]
  split <;> rfl

/-! ### Vectors -/

theorem meets_ofBuildVector (hn : V.Shows .buildVector [t.scalar] t)
    (hc : V.T.classify t = .scalarize) : V.Meets (ofBuildVector V.id) (V.Carried t) := by
  have hscalar := t.isVector_scalar
  refine (Meets.operandWord (hn.operandType rfl) hscalar).mono fun w hw =>
    carried hc hw.2 fun hs => ?_
  have hlt := hw.2.lt hs
  rw [ValueType.bits_eq_laneBits hscalar, t.laneBits_scalar] at hlt
  rw [hn.accepts_iff (by simp), hn.datum_buildVector hs (by simpa using hscalar)]
  simp [Nat.mod_eq_of_lt hlt]

theorem meets_ofInsert {i : ValueType} (hn : V.Shows .insertElement [t, t.scalar, i] t)
    (hi : i.IsWord) (hc : V.T.classify t = .scalarize) : V.Meets (ofInsert V.id) (V.Carried t) := by
  obtain ⟨hlanes, hvector, _, _⟩ := oneLane hc
  have hscalar := t.isVector_scalar
  refine (Meets.operandWord (hn.operandType rfl) hscalar).mono fun w hw =>
    carried hc hw.2 fun hs => ?_
  have hlt := hw.2.lt hs
  rw [ValueType.bits_eq_laneBits hscalar, t.laneBits_scalar] at hlt
  obtain ⟨hk, hd⟩ := hn.datum_insert hs hvector hscalar hi
  have hlen := hn.length_lanesOf hs (i := 0) rfl hvector
  rw [hlanes] at hk hlen
  obtain ⟨x, hx⟩ := List.length_eq_one_iff.1 hlen
  rw [hn.accepts_iff (by simp), hd, hx, Nat.lt_one_iff.1 hk, Nat.mod_eq_of_lt hlt]
  rfl

/-- A lane of the joined inputs is a lane of one of them. -/
theorem meets_shuffledLane (hn : V.Shows .vectorShuffle [u, u] t) (hu : u.isVector = true)
    (hscalar : u.scalar = t.scalar) (hc : V.T.classify t = .scalarize) {k : Nat}
    (hk : V.strict → k < 2 * u.lanes) : V.Meets (shuffledLane V.T V.id k) fun w =>
      V.Is w t.scalar (.scalar (Node.selected (V.lanesOf 0 ++ V.lanesOf 1) (some k))) := by
  obtain ⟨_, _, _, hlight⟩ := oneLane hc
  have hadmits : V.Admits .extractElement [u.scalar, u, V.T.indexType] := by
    refine .of_small (by simp) ?_ fun h => absurd h (hn.not_total rfl)
    rw [hscalar]
    simpa [Opcode.stage] using ⟨.lighter hn.mem hlight (by decide),
      hn.small (by simp) (by decide), .legal V.regular.indexType.2.1⟩
  -- the lane of one input, whichever it is
  have hnext (source : Value) (j k' : Nat) (hsource : V.Source source)
      (his : V.Is source u (.vector (V.lanesOf j))) (hk' : V.strict → k' < u.lanes)
      (hlen : V.sem → (V.lanesOf j).length = u.lanes)
      (hselect : V.sem → (V.lanesOf 0 ++ V.lanesOf 1)[k]? = (V.lanesOf j)[k']?) :
      V.Meets (do
        if V.T.classify (← Edit.typeOf source) = .scalarize then Edit.soleLane source
        else Edit.extractLane V.T source k') fun w =>
      V.Is w t.scalar (.scalar (Node.selected (V.lanesOf 0 ++ V.lanesOf 1) (some k))) := by
    refine .typeOf_bind his ?_
    split
    · next hcu =>
      refine (Meets.soleLane hsource his hcu).mono ?_
      rintro w ⟨y, hw, hy⟩
      rw [← hscalar]
      refine hw.congr fun hs => ?_
      have hzero : k' = 0 := by
        have := hk' (V.strict_of_sem hs)
        rw [(oneLane hcu).1] at this
        omega
      rw [Node.selected, hselect hs, hy hs, hzero]
      rfl
    · rw [← hscalar]
      refine Meets.extractLane hu hadmits his hk' fun hs => ?_
      have hget : k' < (V.lanesOf j).length := by
        rw [hlen hs]
        exact hk' (V.strict_of_sem hs)
      rw [Node.selected, hselect hs, List.getElem?_eq_getElem hget, Option.getD_some]
  have hlen₀ (hs : V.sem) := hn.length_lanesOf hs (i := 0) rfl hu
  have hlen₁ (hs : V.sem) := hn.length_lanesOf hs (i := 1) rfl hu
  refine .bind (.operandLanes (hn.operandType rfl) hu) fun a ha => ?_
  refine .bind (.operandLanes (hn.operandType rfl) hu) fun b hb => ?_
  refine .typeOf_bind ha.2 ?_
  by_cases hlt : k < u.lanes
  · simp only [if_pos hlt]
    exact hnext a 0 k ha.1 ha.2 (fun _ => hlt) hlen₀ fun hs =>
      List.getElem?_append_left (by rw [hlen₀ hs]; exact hlt)
  · simp only [if_neg hlt]
    refine hnext b 1 (k - u.lanes) hb.1 hb.2 (fun h => ?_) hlen₁ fun hs => ?_
    · have := hk h
      omega
    · rw [List.getElem?_append_right (by rw [hlen₀ hs]; omega), hlen₀ hs]

theorem meets_ofShuffle (hn : V.Shows .vectorShuffle [u, u] t) (hu : u.isVector = true)
    (hscalar : u.scalar = t.scalar) (hc : V.T.classify t = .scalarize) :
    V.Meets (ofShuffle V.T V.id 0) (V.Carried t) := by
  obtain ⟨hlanes, hvector, hpart, _⟩ := oneLane hc
  refine .bind (meets_elementType hn) ?_
  rintro _ rfl
  refine .bind (.node V.node_final) ?_
  rintro _ rfl
  have hmask? {mask : List (Option Nat)} (h : V.node.attr = .mask mask) :
      V.node.mask? = some mask := by rw [Node.mask?, h]
  split
  · next k rest hmask =>
    refine (meets_shuffledLane hn hu hscalar hc fun h => ?_).mono fun w hw =>
      carried hc hw fun hs => ?_
    · obtain ⟨mask, hattr, _, hbound⟩ := hn.shuffle_mask h
      rw [hmask? hattr] at hmask
      cases hmask
      exact hbound k List.mem_cons_self
    · obtain ⟨mask, hattr, hlen, _⟩ := hn.shuffle_mask (V.strict_of_sem hs)
      rw [hmask? hattr] at hmask
      cases hmask
      rw [hlanes] at hlen
      obtain rfl := List.length_eq_zero_iff.1 (Nat.succ.inj hlen)
      rw [hn.accepts_iff (by simp), hn.datum_shuffle hs hu hvector hattr]
      rfl
  · next hmask =>
    rw [← hpart]
    refine (Meets.undef (hn.admits_leaf (by rw [hc]; simp) (.inr (.inr rfl)))).mono fun w hw => ?_
    rw [hpart, Datum.ofNumber_word t.isVector_scalar, Nat.zero_mod] at hw
    refine carried hc hw fun hs => ?_
    obtain ⟨mask, hattr, hlen, _⟩ := hn.shuffle_mask (V.strict_of_sem hs)
    rw [hlanes] at hlen
    obtain ⟨lane, rfl⟩ := List.length_eq_one_iff.1 hlen
    cases lane with
    | some k => exact absurd (hmask? hattr) (hmask k [])
    | none =>
      rw [hn.accepts_iff (by simp), hn.datum_shuffle hs hu hvector hattr]
      rfl

theorem meets_ofBitcast (hn : V.Shows .bitcast [u] t) (hbits : u.bits = t.bits)
    (hc : V.T.classify t = .scalarize) : V.Meets (ofBitcast V.T V.id 0) (V.Carried t) := by
  obtain ⟨hlanes, _, hpart, hlight⟩ := oneLane hc
  have htotal := hn.not_total rfl
  have htbits := ValueType.bits_scalar hlanes
  refine .bind (meets_elementType hn) ?_
  rintro _ rfl
  refine .bind (.operand (hn.operandType rfl)) fun v hv => ?_
  refine .typeOf_bind hv.2 ?_
  -- the value that is cast and the bits that it has
  have hnext (source : Value) (s : ValueType) (d : Datum) (hs : V.Is source s d)
      (hsbits : s.bits = u.bits) (hle : V.T.weight s ≤ V.T.weight u)
      (hd : V.sem → d.number s = (V.data 0).number u) :
      V.Meets (Edit.bitcast source t.scalar) (V.Carried t) := by
    refine (Meets.bitcast (by omega) (fun _ => hn.admits (by simp) ?_ ?_ fun h => absurd h htotal)
      hs).mono fun w hw => ?_
    · simp [Nat.le_of_lt hlight, hle]
    · simp only [Target.load_cons]
      omega
    · rw [← hpart] at hw
      refine hw.carried fun hs => ?_
      rw [Datum.ofNumber_widened (by rw [hpart, htbits]), hd hs, hn.accepts_iff (by simp),
        hn.datum_bitcast hs hbits]
  split
  · next hcu =>
    obtain ⟨hulanes, huvector, _, hulight⟩ := oneLane hcu
    obtain ⟨l, hl, hdata⟩ := hv.2.vector huvector
    refine .bind (.soleLane hv.1 hl hcu) ?_
    rintro a ⟨y, ha, hy⟩
    refine hnext a _ _ ha (ValueType.bits_scalar hulanes) (Nat.le_of_lt hulight) fun hs => ?_
    rw [hdata hs, hy hs, number_lane, Datum.number_scalar]
  · refine .bind (P := (v = ·)) (.pure rfl) ?_
    rintro _ rfl
    exact hnext v u _ hv.2 rfl (Nat.le_refl _) fun _ => rfl

/-! ### Operands -/

theorem meets_inExtract {i : ValueType} (hn : V.Shows .extractElement [u, i] t)
    (hreads : V.T.Reads V.limit u t) (hi : i.IsWord) (hlegal : V.T.classify t = .legal) (k : Nat)
    (hc : ∀ s, [u, i][k]? = some s → V.T.classify s = .scalarize) :
    V.Meets (inExtract V.id k) (V.Stands t) := by
  have htotal := hn.not_total rfl
  unfold inExtract
  split
  · exact .bind (P := fun _ => False) (.obstacle _ htotal) fun _ h => h.elim
  next hk =>
  obtain rfl : k = 0 := not_not.1 hk
  have hc := hc u rfl
  obtain ⟨hlanes, hvector, _, hlight⟩ := oneLane hc
  refine .bind (.resultType hn.results) ?_
  rintro _ rfl
  refine .bind (.operandLanes (hn.operandType rfl) hvector) fun v hv => ?_
  refine .bind (.soleLane hv.1 hv.2 hc) ?_
  rintro a ⟨y, ha, hy⟩
  -- the only lane is the one that is read
  have hdatum (hs : V.sem) : V.datum = .scalar y := by
    obtain ⟨x, hx, hd⟩ := hn.datum_extract hs hvector hi
    rw [hy hs, List.getElem?_singleton] at hx
    split at hx
    · cases hx
      exact hd
    · cases hx
  have hbits : u.scalar.bits = u.laneBits := by
    rw [ValueType.bits_eq_laneBits u.isVector_scalar, u.laneBits_scalar]
  rcases hreads.eq_or with rfl | ⟨hlane, hword, hlt⟩
  · refine (Meets.resize_self .any ha).mono fun w hw => hw.stands fun hs => ?_
    exact hn.accepts_self (.inr rfl) (hdatum hs)
  · have hu : V.Word 1 u.scalar :=
      ⟨hlane, .lighter (hn.mem_operand (by simp)) hlight (by decide)⟩
    refine (Meets.resizeAny hu (.legal hword hlegal) (by omega) ha).mono ?_
    rintro w ⟨z, hw, hz⟩
    refine hw.stands fun hs => hn.accepts_low (.inr rfl) (hdatum hs) ?_ fun h =>
      (hz hs).2 (Target.not_loose_scalar h hc)
    rw [← hbits, (hz hs).1, Nat.mod_eq_of_lt (ha.lt hs)]

theorem meets_inBitcast (hn : V.Shows .bitcast [u] t) (hbits : u.bits = t.bits)
    (hc : V.T.classify u = .scalarize) : V.Meets (inBitcast V.id) (V.Stands t) := by
  obtain ⟨hlanes, hvector, _, hlight⟩ := oneLane hc
  refine .bind (.resultType hn.results) ?_
  rintro _ rfl
  refine .bind (.operandLanes (hn.operandType rfl) hvector) fun v hv => ?_
  refine .bind (.soleLane hv.1 hv.2 hc) ?_
  rintro a ⟨y, ha, hy⟩
  refine (Meets.bitcast (by rw [ValueType.bits_scalar hlanes, hbits])
    (fun _ => hn.admits (by simp) ?_ ?_ fun h => absurd h (hn.not_total rfl)) ha).mono fun w hw =>
      hw.stands fun hs => ?_
  · simp [Nat.le_of_lt hlight]
  · simp [hlight]
  · rw [hn.accepts_iff (by simp), hn.datum_bitcast hs hbits,
      V.data_vector hs (hn.operandType rfl) hvector, hy hs, number_lane, Datum.number_scalar]

end Dataflow.Legal.Scalarize
