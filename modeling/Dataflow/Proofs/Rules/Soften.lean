import Dataflow.Proofs.Rules.Leaves

/-!
# Floats carried as integers

The carrier of a float has its bits. Signs are cleared, flipped and copied by operations on them.
-/

namespace Dataflow

/-! ### Sign bits -/

namespace FloatBits

variable {t : ValueType} {x y : Nat}

theorem signMask_eq (ht : t ≠ .ppcf128) : signMask t = 2 ^ (t.bits - 1) := by
  cases t <;> first | exact absurd rfl ht | rfl

/-- The bits below the sign. -/
theorem clear_signMask (ht : t ≠ .ppcf128) (hx : x < 2 ^ t.bits) :
    Word.clear x (signMask t) = x &&& 2 ^ (t.bits - 1) - 1 := by
  have hpow := Word.two_pow_pred t.bits_pos
  refine Nat.eq_of_testBit_eq fun i => ?_
  rw [Word.clear, signMask_eq ht, Nat.testBit_xor, Nat.testBit_and, Nat.testBit_and,
    Nat.testBit_two_pow_sub_one, Nat.testBit_two_pow]
  rcases Nat.lt_trichotomy i (t.bits - 1) with h | h | h
  · simp [h, Nat.ne_of_gt h]
  · simp [h]
  · have : x.testBit i = false :=
      Nat.testBit_lt_two_pow (Nat.lt_of_lt_of_le hx (Nat.pow_le_pow_right (by decide) (by omega)))
    simp [this]

end FloatBits

namespace Legal.Soften

open RuleSpec RewriteSpec

variable {V : RewriteSpec} {t u : ValueType} {v : Value} {x : Nat}

/-- The carrier of a float is lighter than the float. -/
theorem word_carrier {op : Opcode} {ts : List ValueType} (hn : V.Shows op ts t)
    (hc : V.T.classify t = .promoteFloat) : V.Word 5 (V.T.transform t) :=
  ⟨(V.regular.softened hc).2.2.1, .lighter hn.mem
    (Target.weight_transform_lt V.regular (by rw [hc]; simp)) (Nat.le_refl 5)⟩

/-- A carrier with the bits of the datum. -/
theorem carried {w : Value} (hc : V.T.classify t = .promoteFloat)
    (hw : V.Is w (V.T.transform t) (.scalar x)) (hd : V.sem → V.Accepts (.scalar x)) :
    V.Carried t w := by
  obtain ⟨_, hvector, _, hbits, _⟩ := V.regular.softened hc
  refine hw.carriedWord hvector fun hs => ?_
  rw [← hbits, Nat.mod_eq_of_lt (hw.lt hs)]
  exact hd hs

/-! ### Leaves -/

theorem meets_ofArgument (hn : V.Shows .argument [] t) (hc : V.T.classify t = .promoteFloat) :
    V.Meets (ofArgument V.T V.id 0) (V.Carried t) := by
  obtain ⟨_, _, _, hbits, _⟩ := V.regular.softened hc
  have hillegal : V.T.classify t ≠ .legal := by rw [hc]; simp
  refine .bind (.resultType hn.results) ?_
  rintro _ rfl
  exact Meets.argumentPart hillegal hn (Nat.le_of_eq hbits.symm) (.inl hbits)

theorem meets_ofConstant (hn : V.Shows .constantFp [] t) (hc : V.T.classify t = .promoteFloat) :
    V.Meets (ofConstant V.T V.id 0) (V.Carried t) := by
  obtain ⟨_, hvector, hword, hbits, _⟩ := V.regular.softened hc
  refine .bind (.resultType hn.results) ?_
  rintro _ rfl
  exact Meets.constantPart (by rw [hc]; simp) hn (.inr rfl) hvector hword.2 (by omega)

theorem meets_ofUndef (hn : V.Shows .undef [] t) (hc : V.T.classify t = .promoteFloat) :
    V.Meets (ofUndef V.T V.id 0) (V.Carried t) := by
  obtain ⟨_, _, _, hbits, _⟩ := V.regular.softened hc
  refine .bind (.resultType hn.results) ?_
  rintro _ rfl
  exact Meets.undefPart (by rw [hc]; simp) hn (by omega)

/-! ### Signs -/

theorem meets_signBit (ht : V.Word 0 t) (h : V.Is v t (.scalar x)) :
    V.Meets (signBit v) fun w => V.Is w t (.scalar (2 ^ (t.bits - 1))) := by
  have hle := ht.1.bits_le
  have hpos := t.bits_pos
  refine .typeOf_bind h (.bind (.bit (by omega)) ?_)
  rintro _ rfl
  refine (Meets.constant ht _).mono fun w hw => ?_
  rwa [Nat.mod_eq_of_lt (Nat.pow_lt_pow_right (by decide) (by omega))] at hw

theorem meets_bitsBelowSign (ht : V.Word 0 t) (h : V.Is v t (.scalar x)) :
    V.Meets (bitsBelowSign v) fun w => V.Is w t (.scalar (2 ^ (t.bits - 1) - 1)) := by
  have hpow := Word.two_pow_pred t.bits_pos
  have hpos := Nat.two_pow_pos (t.bits - 1)
  refine .typeOf_bind h ((Meets.constant ht _).mono fun w hw => ?_)
  rwa [ht.1.laneBits_eq, Word.mask_eq ht.1.bits_le, Nat.shiftRight_eq_div_pow, Nat.pow_one,
    show (2 ^ t.bits - 1) / 2 = 2 ^ (t.bits - 1) - 1 by omega, Nat.mod_eq_of_lt (by omega)] at hw

theorem meets_ofNeg (hn : V.Shows .fneg [t] t) (hc : V.T.classify t = .promoteFloat) :
    V.Meets (ofNeg V.id) (V.Carried t) := by
  obtain ⟨_, hvector, _, hbits, hpair⟩ := V.regular.softened hc
  have hword := (word_carrier hn hc).mono (Nat.zero_le 5)
  refine .bind (.operandWord (hn.operandType rfl) hvector) fun a ha => ?_
  refine .bind (.softened ha.1 ha.2 hc) fun v hv => ?_
  refine .bind (meets_signBit hword hv) fun sign hsign => ?_
  refine (Meets.int hword .xor hv hsign (by decide)).mono fun w hw => carried hc hw fun hs => ?_
  rw [hn.accepts_iff (by simp), hn.datum_unary hs rfl hvector (fun _ => hpair) rfl,
    ValueType.scalar_eq_self hvector, FloatBits.signMask_eq hpair, hbits]
  rfl

theorem meets_ofAbs (hn : V.Shows .fabs [t] t) (hc : V.T.classify t = .promoteFloat) :
    V.Meets (ofAbs V.id) (V.Carried t) := by
  obtain ⟨_, hvector, _, hbits, hpair⟩ := V.regular.softened hc
  have hword := (word_carrier hn hc).mono (Nat.zero_le 5)
  refine .bind (.operandWord (hn.operandType rfl) hvector) fun a ha => ?_
  refine .bind (.softened ha.1 ha.2 hc) fun v hv => ?_
  refine .bind (meets_bitsBelowSign hword hv) fun mask hmask => ?_
  refine (Meets.int hword .and hv hmask (by decide)).mono fun w hw => carried hc hw fun hs => ?_
  rw [hn.accepts_iff (by simp), hn.datum_unary hs rfl hvector (fun _ => hpair) rfl,
    ValueType.scalar_eq_self hvector, FloatBits.clear_signMask hpair (ha.2.lt hs), hbits]
  rfl

theorem meets_ofCopysign (hn : V.Shows .fcopysign [t, t] t)
    (hc : V.T.classify t = .promoteFloat) : V.Meets (ofCopysign V.id) (V.Carried t) := by
  obtain ⟨hfloat, hvector, _, hbits, hpair⟩ := V.regular.softened hc
  have hword := (word_carrier hn hc).mono (Nat.zero_le 5)
  refine .bind (.operandWord (hn.operandType rfl) hvector) fun a ha => ?_
  refine .bind (.operandWord (hn.operandType rfl) hvector) fun b hb => ?_
  refine .bind (.softened ha.1 ha.2 hc) fun magnitude hmagnitude => ?_
  refine .bind (.softened hb.1 hb.2 hc) fun sign hsign => ?_
  refine .typeOf_bind hmagnitude (.typeOf_bind hsign ?_)
  rw [if_neg (not_not.2 rfl)]
  refine .bind (meets_bitsBelowSign hword hmagnitude) fun below hbelow => ?_
  refine .bind (meets_signBit hword hsign) fun bit hbit => ?_
  refine .bind (.int hword .and hmagnitude hbelow (by decide)) fun low hlow => ?_
  refine .bind (.int hword .and hsign hbit (by decide)) fun high hhigh => ?_
  refine (Meets.int hword .or hlow hhigh (by decide)).mono fun w hw => carried hc hw fun hs => ?_
  rw [hn.accepts_iff (by simp),
    hn.datum_binary hs (.fcopysign hfloat : Signature V.T.Wide _ _ _) (.inr rfl) hvector rfl,
    ValueType.scalar_eq_self hvector, FloatBits.clear_signMask hpair (ha.2.lt hs),
    FloatBits.signMask_eq hpair, hbits]
  rfl

/-! ### Moves -/

theorem meets_ofSelect {c : ValueType} (hn : V.Shows .select [c, t, t] t) (hcond : c.IsWord)
    (hc : V.T.classify t = .promoteFloat) : V.Meets (ofSelect V.id) (V.Carried t) := by
  obtain ⟨_, hvector, hword, _, _⟩ := V.regular.softened hc
  have hlight := Target.weight_transform_lt V.regular (t := t) (by rw [hc]; simp)
  refine .bind (.operandWord (hn.operandType rfl) hcond.2) fun cond hk => ?_
  refine .bind (.operandWord (hn.operandType rfl) hvector) fun a ha => ?_
  refine .bind (.operandWord (hn.operandType rfl) hvector) fun b hb => ?_
  refine .bind (.softened ha.1 ha.2 hc) fun a' ha' => ?_
  refine .bind (.softened hb.1 hb.2 hc) fun b' hb' => ?_
  refine (Meets.selectOf hcond (hn.admits (by simp) ?_ ?_ fun _ => ?_) hk.2 ha' hb').mono
    fun w hw => ?_
  · simp [Nat.le_of_lt hlight]
  · simp
    omega
  · exact ⟨rfl, by simp [hword, hcond], by simp, by simp⟩
  · have hw := hw.congr (e := .scalar (if V.bitsOf 0 ≠ 0 then V.bitsOf 1 else V.bitsOf 2)) fun _ => by
      split <;> rfl
    refine carried hc hw fun hs => ?_
    rw [hn.accepts_iff (by simp), hn.datum_select hs hcond,
      V.data_scalar hs (hn.operandType (i := 1) rfl) hvector,
      V.data_scalar hs (hn.operandType (i := 2) rfl) hvector]
    split <;> rfl

theorem meets_ofBitcast (hn : V.Shows .bitcast [u] t) (hbits : u.bits = t.bits)
    (hc : V.T.classify t = .promoteFloat) : V.Meets (ofBitcast V.T V.id 0) (V.Carried t) := by
  obtain ⟨_, hvector, hword, hcarrier, _⟩ := V.regular.softened hc
  have hlight := Target.weight_transform_lt V.regular (t := t) (by rw [hc]; simp)
  refine .bind (.resultType hn.results) ?_
  rintro _ rfl
  refine .bind (.operand (hn.operandType rfl)) fun v hv => ?_
  refine (Meets.bitcast (by omega) (fun _ => hn.admits (by simp) ?_ ?_ fun h =>
    absurd h (hn.not_total rfl)) hv.2).mono fun w hw => hw.carried fun hs => ?_
  · simp [Nat.le_of_lt hlight]
  · simp [hlight]
  · rw [hn.accepts_iff (by simp), hn.datum_bitcast hs hbits, Datum.ofNumber_widened (by omega)]

theorem meets_ofPair (hn : V.Shows .buildPair [u, u] t)
    (hsig : V.T.Signs V.limit .buildPair [u, u] t) (hbits : t.bits = 2 * u.bits)
    (hc : V.T.classify t = .promoteFloat) :
    V.Meets (ofPair V.T V.id 0) (V.Carried t) := by
  obtain ⟨hfloat, hvector, hword, hcarrier, _⟩ := V.regular.softened hc
  have hlight := Target.weight_transform_lt V.regular (t := t) (by rw [hc]; simp)
  have hadmits : V.Admits .buildPair [V.T.transform t, u, u] := by
    refine ⟨fun _ => ?_, fun htotal => ⟨rfl, ?_, by simp, by simp⟩⟩
    case refine_2 => simpa [hword] using (hn.plain htotal).words u (by simp)
    rw [V.ceiling_eq, hn.append_eq, hn.opcode]
    refine Target.burden_lt_of_load (Target.height_le_iff.2 ⟨?_, ?_⟩) (by simp [hlight])
    · have hjoint : V.T.jointWeight .buildPair [V.T.transform t, u, u] =
          V.T.jointWeight .buildPair [t, u, u] := by simp only [Target.jointWeight, hcarrier]
      rw [hjoint]
      exact Target.charge_joint_le_height
    · have hle {w : ValueType} (hw : w ∈ [t, u, u]) :
          charge Opcode.buildPair.stage (V.T.weight w) ≤ V.T.height .buildPair [t, u, u] :=
        Target.charge_le_height hw
      have ht := Nat.le_trans (charge_mono (Nat.le_refl _) (Nat.le_of_lt hlight)) (hle (w := t) (by simp))
      simpa using ⟨ht, hle (w := u) (by simp)⟩
  refine .bind (.resultType hn.results) ?_
  rintro _ rfl
  refine .bind (.operand (hn.operandType rfl)) fun lo hlo => ?_
  refine .bind (.operand (hn.operandType rfl)) fun hi hhi => ?_
  refine (Meets.buildPair (hsig.softened V.regular hc) (by omega) hadmits hlo.2 hhi.2).mono
    fun w hw => hw.carried fun hs => ?_
  rw [hn.accepts_iff (by simp), hn.datum_pair hs hbits, Datum.ofNumber_widened (by omega)]

/-- The lanes of the vector are read as integers. A legal vector would have legal lanes. -/
theorem meets_ofExtract {i : ValueType} (hn : V.Shows .extractElement [u, i] t)
    (hu : u.isVector = true) (hreads : V.T.Reads V.limit u t) (hi : i.IsWord)
    (hc : V.T.classify t = .promoteFloat) : V.Meets (ofExtract V.T V.id 0) (V.Carried t) := by
  obtain ⟨hfloat, hvector, hword, hcarrier, _⟩ := V.regular.softened hc
  have hillegal : V.T.classify t ≠ .legal := by rw [hc]; simp
  have htotal := hn.not_total rfl
  have hlight := Target.weight_transform_lt V.regular hillegal
  have ht : t = u.scalar := hreads.eq_or.resolve_right fun h => by
    rw [Target.isFloat_of_isWord h.2.1] at hfloat
    cases hfloat
  have hlane : u.laneBits = t.bits := by
    rw [← u.laneBits_scalar, ← ht, ValueType.bits_eq_laneBits hvector]
  refine .bind (.resultType hn.results) ?_
  rintro _ rfl
  refine .bind (.operandLanes (hn.operandType rfl) hu) fun vector hv => ?_
  refine .bind (.operandWord (hn.operandType rfl) hi.2) fun index hindex => ?_
  refine .typeOf_bind hv.2 ?_
  split
  · next lanes hlanes =>
    obtain ⟨e, he, hlanes⟩ := Option.bind_eq_some_iff.1 hlanes
    obtain ⟨heword, hebits⟩ := ValueType.int?_eq_some he
    obtain rfl : e = V.T.transform t := heword.eq_of_bits_eq hword (by omega)
    have hpos : 0 < u.lanes := by
      rw [← ValueType.laneCount_eq_lanes hu]
      exact u.laneCount_pos
    obtain ⟨hlvector, hlscalar, hllanes⟩ := ValueType.vector?_eq_some hlanes hpos
    have hlbits : lanes.laneBits = u.laneBits := by
      rw [← lanes.laneBits_scalar, hlscalar, hword.laneBits_eq, hebits]
    have hbits : lanes.bits = u.bits := by
      rw [ValueType.bits_eq_mul, ValueType.bits_eq_mul, ValueType.laneCount_eq_lanes hlvector,
        ValueType.laneCount_eq_lanes hu, hlbits, hllanes]
    have hweight (hm : V.measured) : V.T.classify u ≠ .legal ∧ V.T.weight lanes ≤ V.T.weight u := by
      have huillegal := illegal_of_lane hm (hn.mem_operand (by simp)) (ht ▸ hillegal)
      refine ⟨huillegal, Target.weight_relaned hlvector ?_ hu huillegal hbits⟩
      rw [← lanes.isFloat_scalar, hlscalar]
      exact Target.isFloat_of_isWord hword
    refine .bind (.bitcast hbits.symm (fun _ => .of_small (by simp) ?_ fun h => absurd h htotal)
      hv.2) fun vector' hv' => ?_
    · simpa using ⟨hn.small_of_weight_le (s := 3) (u := u) (by simp) (by decide) hweight,
        hn.small (s := 3) (by simp) (by decide)⟩
    have hv' := hv'.congr fun hs =>
      (hv.2.fits hs).ofNumber_relaned hlvector hu hlbits hllanes
    have hdatum (hs : V.sem) := hn.datum_extract hs hu hi
    refine (Meets.extractAs (x := ((V.lanesOf 0)[V.bitsOf 1 % 2 ^ 64]?).getD 0) hlvector
      (.inl (.inl hlscalar.symm)) hi hn.extract_index
      (fun hl => (hn.names hu hi.2 hindex.1 hindex.2 hl).of_laneBits_eq hlbits) ⟨fun hm => ?_, fun h => absurd h htotal⟩ hv'
      hindex.2 fun hs => ?_).mono ?_
    · exact (hn.admits (by simp) (by simp [Nat.le_of_lt hlight, (hweight hm).2])
        (by have := (hweight hm).2; simp; omega) fun h => absurd h htotal).lighter hm
    · obtain ⟨x, hx, _⟩ := hdatum hs
      rw [hx]
      rfl
    · rintro w ⟨y, hw, hy⟩
      refine carried hc hw fun hs => ?_
      obtain ⟨x, hx, hd⟩ := hdatum hs
      have hy := (hy hs).1
      rw [hx, Option.getD_some, hlbits, hlane, ← hcarrier, Nat.mod_eq_of_lt (hw.lt hs)] at hy
      exact hy ▸ hn.accepts_self (.inr rfl) hd
  · exact .obstacle _ htotal

/-! ### Operands -/

theorem meets_inBitcast (hn : V.Shows .bitcast [u] t) (hbits : u.bits = t.bits)
    (hc : V.T.classify u = .promoteFloat) : V.Meets (inBitcast V.id) (V.Stands t) := by
  obtain ⟨_, hvector, hword, hcarrier, _⟩ := V.regular.softened hc
  have hlight := Target.weight_transform_lt V.regular (t := u) (by rw [hc]; simp)
  refine .bind (.resultType hn.results) ?_
  rintro _ rfl
  refine .bind (.operandWord (hn.operandType rfl) hvector) fun v hv => ?_
  refine .bind (.softened hv.1 hv.2 hc) fun w hw => ?_
  refine (Meets.bitcast (by omega) (fun _ => hn.admits (by simp) ?_ ?_ fun h =>
    absurd h (hn.not_total rfl)) hw).mono fun w hw => hw.stands fun hs => ?_
  · simp [Nat.le_of_lt hlight]
  · simp [hlight]
  · rw [hn.accepts_iff (by simp), hn.datum_bitcast hs hbits,
      V.data_scalar hs (hn.operandType (i := 0) rfl) hvector, Datum.number_scalar,
      Datum.number_scalar]

end Legal.Soften

end Dataflow
