import Dataflow.Proofs.Rules.Leaves
import Dataflow.Proofs.Widths

/-!
# Integers carried in wider ones

Every carrier that a rule returns holds the bits of the result of the node at its bottom.
-/

namespace Dataflow.Legal.Widen

open RuleSpec RewriteSpec

variable {V : RewriteSpec} {t u : ValueType} {op : IntOp}

/-! ### Leaves -/

theorem meets_ofArgument (hn : V.Shows .argument [] t) (hc : V.T.classify t = .promoteInteger) :
    V.Meets (ofArgument V.T V.id 0) (V.Carried t) := by
  obtain ⟨hword, hwide, hlt, hlegal⟩ := V.regular.promoted hc
  have hillegal : V.T.classify t ≠ .legal := by rw [hc]; simp
  refine .bind (.resultType hn.results) ?_
  rintro _ rfl
  exact Meets.argumentPart hillegal hn (Nat.le_of_lt hlt) (.inr ⟨hlegal, hwide.bits_le⟩)

theorem meets_ofConstant (hn : V.Shows .constant [] t) (hc : V.T.classify t = .promoteInteger) :
    V.Meets (ofConstant V.T V.id 0) (V.Carried t) := by
  obtain ⟨hword, hwide, hlt, _⟩ := V.regular.promoted hc
  refine .bind (.resultType hn.results) ?_
  rintro _ rfl
  exact Meets.constantPart (by rw [hc]; simp) hn (.inl rfl) hword.2 hwide.2 (Nat.le_of_lt hlt)

theorem meets_ofUndef (hn : V.Shows .undef [] t) (hc : V.T.classify t = .promoteInteger) :
    V.Meets (ofUndef V.T V.id 0) (V.Carried t) := by
  refine .bind (.resultType hn.results) ?_
  rintro _ rfl
  exact Meets.undefPart (by rw [hc]; simp) hn (Nat.le_of_lt (V.regular.promoted hc).2.2.1)

/-! ### Arithmetic -/

theorem meets_ofLowBits (hn : V.Shows (.int op) [t, t] t) (hc : V.T.classify t = .promoteInteger)
    (hop : op ∈ [IntOp.add, .sub, .mul, .and, .or, .xor]) :
    V.Meets (ofLowBits V.id) (V.Carried t) := by
  obtain ⟨hword, _, hlt, _⟩ := V.regular.promoted hc
  refine .bind (.node V.node_final) ?_
  rintro _ rfl
  rw [hn.opcode]
  refine .bind (.operandWord (hn.operandType rfl) hword.2) fun a ha => ?_
  refine .bind (.operandWord (hn.operandType rfl) hword.2) fun b hb => ?_
  refine .bind (.promoted ha.1 ha.2 hc) ?_
  rintro a' ⟨x, ha', hx⟩
  refine .bind (.promoted hb.1 hb.2 hc) ?_
  rintro b' ⟨y, hb', hy⟩
  refine (Meets.intOf (s := 5) (.promoted hc) (Opcode.stage_le _) (fun h => ?_) ha' hb').mono
    fun w hw => hw.carriedWord hword.2 fun hs => ?_
  · subst h
    exact absurd hop (by decide)
  · rw [hn.accepts_iff (by simp), hn.datum_int hs hword, ← hx hs, ← hy hs,
      Word.value_mod hop (Nat.le_of_lt hlt) (hb'.lt hs)]

/-- What an operation makes of words that are filled up to a carrier. -/
def FillsTo (op : IntOp) (left right : Fill) : Prop :=
  ∀ n m x y x' y', 0 < n → n ≤ m → x < 2 ^ n → y < 2 ^ n → left.Fills n m x x' →
    right.Fills n m y y' → Word.value op m x' y' % 2 ^ n = Word.value op n x y

theorem fillsTo_shl : FillsTo .shl .any .zero := by
  intro n m x y x' y' _ hnm _ _ hx hy
  cases hy
  rw [Word.shl_mod hnm, show x' % 2 ^ n = x from hx]

theorem fillsTo_srl : FillsTo .srl .zero .zero := by
  intro n m x y x' y' _ _ hx _ hx' hy'
  cases hx'
  cases hy'
  exact Word.srl_mod hx y

theorem fillsTo_sra : FillsTo .sra .sign .zero := by
  intro n m x y x' y' hn hnm hx _ hx' hy'
  cases hx'
  cases hy'
  exact Word.sra_mod hn hnm hx y

theorem fillsTo_udiv : FillsTo .udiv .zero .zero := by
  intro n m x y x' y' _ hnm hx _ hx' hy'
  cases hx'
  cases hy'
  exact Word.quotient_mod hnm hx y

theorem fillsTo_sdiv : FillsTo .sdiv .sign .sign := by
  intro n m x y x' y' hn hnm hx hy hx' hy'
  cases hx'
  cases hy'
  exact Word.sdiv_mod hn hnm hx hy

theorem meets_ofFilled {left right : Fill} (hn : V.Shows (.int op) [t, t] t)
    (hc : V.T.classify t = .promoteInteger) (hop : op ≠ .mulhu) (hfills : FillsTo op left right) :
    V.Meets (ofFilled op left right V.id) (V.Carried t) := by
  obtain ⟨hword, _, hlt, _⟩ := V.regular.promoted hc
  refine .bind (.operandWord (hn.operandType rfl) hword.2) fun a ha => ?_
  refine .bind (.operandWord (hn.operandType rfl) hword.2) fun b hb => ?_
  refine .bind (.filled ha.1 ha.2 hc left) ?_
  rintro a' ⟨x, ha', hx⟩
  refine .bind (.filled hb.1 hb.2 hc right) ?_
  rintro b' ⟨y, hb', hy⟩
  refine (Meets.int (s := 5) (.promoted hc) op ha' hb' ⟨Opcode.stage_le _, hop⟩).mono
    fun w hw => hw.carriedWord hword.2 fun hs => ?_
  rw [hn.accepts_iff (by simp), hn.datum_int hs hword,
    hfills _ _ _ _ _ _ t.bits_pos (Nat.le_of_lt hlt) (ha.2.lt hs) (hb.2.lt hs) (hx hs) (hy hs)]

/-! ### Counts -/

theorem meets_ofOnes (hn : V.Shows (.count .ones) [t] t) (hc : V.T.classify t = .promoteInteger) :
    V.Meets (ofOnes V.id) (V.Carried t) := by
  obtain ⟨hword, _, hlt, _⟩ := V.regular.promoted hc
  refine .bind (.operandWord (hn.operandType rfl) hword.2) fun a ha => ?_
  refine .bind (.zeroExtended ha.1 ha.2 hc) fun a' ha' => ?_
  refine (Meets.count (s := 0) (.promoted hc) .ones ha').mono fun w hw =>
    hw.carriedWord hword.2 fun hs => ?_
  have hcount : Word.count .ones (V.T.transform t).bits (V.bitsOf 0) =
      Word.count .ones t.bits (V.bitsOf 0) :=
    Word.countOnes_of_le (ha.2.lt hs) (Nat.le_of_lt hlt)
  rw [hn.accepts_iff (by simp), hn.datum_count hs hword, hcount, Nat.mod_eq_of_lt (Word.count_lt ..)]

theorem meets_ofLeadingZeros (hn : V.Shows (.count .leadingZeros) [t] t)
    (hc : V.T.classify t = .promoteInteger) : V.Meets (ofLeadingZeros V.id) (V.Carried t) := by
  obtain ⟨hword, _, hlt, _⟩ := V.regular.promoted hc
  have hwide : V.Word 0 (V.T.transform t) := .promoted hc
  refine .bind (.operandWord (hn.operandType rfl) hword.2) fun a ha => ?_
  refine .typeOf_bind ha.2 ?_
  refine .bind (.zeroExtended ha.1 ha.2 hc) fun a' ha' => ?_
  refine .typeOf_bind ha' ?_
  refine .bind (.count hwide .leadingZeros ha') fun count hcount => ?_
  rw [if_neg (by omega)]
  refine .bind (.constant hwide _) fun extra hextra => ?_
  refine (Meets.int hwide .sub hcount hextra (by decide)).mono fun w hw =>
    hw.carriedWord hword.2 fun hs => ?_
  rw [hn.accepts_iff (by simp), hn.datum_count hs hword,
    Word.sub_leadingZeros (Nat.le_of_lt hlt) (ha.2.lt hs), Nat.mod_eq_of_lt (Word.count_lt ..)]

theorem meets_ofTrailingZeros (hn : V.Shows (.count .trailingZeros) [t] t)
    (hc : V.T.classify t = .promoteInteger) : V.Meets (ofTrailingZeros V.id) (V.Carried t) := by
  obtain ⟨hword, hcarrier, hlt, _⟩ := V.regular.promoted hc
  have hwide : V.Word 0 (V.T.transform t) := .promoted hc
  have hle := hcarrier.bits_le
  refine .bind (.operandWord (hn.operandType rfl) hword.2) fun a ha => ?_
  refine .typeOf_bind ha.2 ?_
  refine .bind (.promoted ha.1 ha.2 hc) ?_
  rintro a' ⟨x, ha', hx⟩
  refine .typeOf_bind ha' ?_
  refine .bind (.bit (by omega)) ?_
  rintro _ rfl
  refine .bind (.constant hwide _) fun stop hstop => ?_
  rw [Nat.mod_eq_of_lt (Nat.pow_lt_pow_right (by decide) hlt)] at hstop
  refine .bind (.int hwide .or ha' hstop (by decide)) fun marked hmarked => ?_
  refine (Meets.count hwide .trailingZeros hmarked).mono fun w hw =>
    hw.carriedWord hword.2 fun hs => ?_
  rw [hn.accepts_iff (by simp), hn.datum_count hs hword, Word.trailingZeros_stop hlt (hx hs),
    Nat.mod_eq_of_lt (Word.count_lt ..)]

/-! ### Comparisons and selections -/

/-- A flag fits every type. -/
theorem flag_mod (b : Bool) (t : ValueType) : b.toNat % 2 ^ t.bits = b.toNat :=
  Nat.mod_eq_of_lt
    (Nat.lt_of_le_of_lt b.toNat_le (Nat.one_lt_two_pow (Nat.ne_of_gt t.bits_pos)))

theorem meets_ofSetcc (hn : V.Shows .setcc [u, u] t) (hu : u.IsWord)
    (hc : V.T.classify t = .promoteInteger) : V.Meets (ofSetcc V.T V.id 0) (V.Carried t) := by
  obtain ⟨hword, _, _, _⟩ := V.regular.promoted hc
  have hpos := Target.weight_pos (T := V.T) (t := t) (by rw [hc]; simp)
  obtain ⟨hflag, hlegal⟩ := V.regular.compareType u
  refine .bind (.resultType hn.results) ?_
  rintro _ rfl
  refine .bind (.predicate hn) fun c hattr => ?_
  refine .bind (.operandWord (hn.operandType rfl) hu.2) fun a ha => ?_
  refine .bind (.operandWord (hn.operandType rfl) hu.2) fun b hb => ?_
  refine .typeOf_bind ha.2 ?_
  refine .bind (.setccOf hflag hu (hn.admits (by simp) ?_ ?_ fun _ => ?_) c ha.2 hb.2)
    fun compare hcompare => ?_
  · simp [Target.weight_of_legal hlegal]
  · simp [Target.weight_of_legal hlegal, hpos]
  · exact ⟨rfl, by simp [hflag, hu], by simp, by simp [hlegal]⟩
  refine (Meets.resizeFlag (.compareType u) (.promoted hc) _ hcompare).mono fun w hw =>
    hw.carriedWord hword.2 fun hs => ?_
  rw [hn.accepts_iff (by simp), hn.datum_setcc hs hu hword hattr, flag_mod]

theorem meets_ofSelect {c : ValueType} (hn : V.Shows .select [c, t, t] t) (hcond : c.IsWord)
    (hc : V.T.classify t = .promoteInteger) : V.Meets (ofSelect V.id) (V.Carried t) := by
  obtain ⟨hword, hwide, _, hlegal⟩ := V.regular.promoted hc
  have hpos := Target.weight_pos (T := V.T) (t := t) (by rw [hc]; simp)
  refine .bind (.operandWord (hn.operandType rfl) hcond.2) fun cond hk => ?_
  refine .bind (.operandWord (hn.operandType rfl) hword.2) fun a ha => ?_
  refine .bind (.operandWord (hn.operandType rfl) hword.2) fun b hb => ?_
  refine .bind (.promoted ha.1 ha.2 hc) ?_
  rintro a' ⟨x, ha', hx⟩
  refine .bind (.promoted hb.1 hb.2 hc) ?_
  rintro b' ⟨y, hb', hy⟩
  refine (Meets.selectOf hcond (hn.admits (by simp) ?_ ?_ fun _ => ?_) hk.2 ha' hb').mono
    fun w hw => hw.carried fun hs => ?_
  · simp [Target.weight_of_legal hlegal]
  · simp [Target.weight_of_legal hlegal]
    omega
  · exact ⟨rfl, by simp [hwide, hcond], by simp, by simp⟩
  · have h₁ := V.data_scalar hs (hn.operandType (i := 1) rfl) hword.2
    have h₂ := V.data_scalar hs (hn.operandType (i := 2) rfl) hword.2
    rw [hn.accepts_iff (by simp), hn.datum_select hs hcond, h₁, h₂]
    split
    · rw [Datum.number_scalar, Datum.ofNumber_word hword.2, hx hs]
    · rw [Datum.number_scalar, Datum.ofNumber_word hword.2, hy hs]

/-! ### Other widths -/

theorem meets_ofTruncate (hn : V.Shows .truncate [u] t) (hu : u.IsWord) (htu : t.bits < u.bits)
    (hc : V.T.classify t = .promoteInteger) : V.Meets (ofTruncate V.T V.id 0) (V.Carried t) := by
  obtain ⟨hword, _, hlt, _⟩ := V.regular.promoted hc
  refine .bind (.resultType hn.results) ?_
  rintro _ rfl
  refine .bind (.operandWord (hn.operandType rfl) hu.2) fun v hv => ?_
  refine .typeOf_bind hv.2 ?_
  -- the source is lighter than the operand and holds its low bits
  have hnext (source : Value) (s : ValueType) (y : Nat) (hs : V.Word 1 s) (hle : t.bits ≤ s.bits)
      (hsource : V.Is source s (.scalar y))
      (hy : V.sem → y % 2 ^ t.bits = V.bitsOf 0 % 2 ^ t.bits) :
      V.Meets (Edit.resize .any source (V.T.transform t)) (V.Carried t) := by
    refine (Meets.resize (n := t.bits) (x := V.bitsOf 0 % 2 ^ t.bits) .any hs (.promoted hc)
      t.bits_pos hle (Nat.le_of_lt hlt) hsource fun hs =>
        ⟨Nat.mod_lt _ (Nat.two_pow_pos _), hy hs⟩).mono ?_
    rintro w ⟨z, hw, hz⟩
    refine hw.carriedWord hword.2 fun hs => ?_
    rw [hn.accepts_iff (by simp), hn.datum_cut hs (.inl rfl) hu hword,
      show z % 2 ^ t.bits = _ from hz hs]
  rcases V.regular.word_cases hu with hcu | hcu | hcu <;> rw [hcu]
  · exact hnext v u _ (.legal hu hcu) (Nat.le_of_lt htu) hv.2 fun _ => rfl
  · refine .bind (.promoted hv.1 hv.2 hcu) ?_
    rintro w ⟨y, hw, hy⟩
    have hle := Nat.le_of_lt (V.regular.promoted hcu).2.2.1
    refine hnext w _ y (.promoted hcu) (by omega) hw fun hs => ?_
    rw [← hy hs, Nat.mod_mod_of_dvd _ (Nat.pow_dvd_pow 2 (Nat.le_of_lt htu))]
  · obtain ⟨_, hhalf, hbits, _⟩ := V.regular.expanded hcu
    have hle : t.bits ≤ (V.T.transform u).bits := hword.bits_le_of_lt_double hhalf (by omega)
    refine .bind (.halves hv.1 hv.2 hcu) ?_
    rintro ⟨lo, hi⟩ ⟨x, y, hlo, _, hx⟩
    refine hnext lo _ x ((Word.half (hn.mem_operand (by simp)) hcu).mono (by decide)) hle hlo
      fun hs => ?_
    obtain ⟨k, hk⟩ : 2 ^ t.bits ∣ 2 ^ (V.T.transform u).bits := Nat.pow_dvd_pow 2 hle
    rw [hx hs, hk, Nat.mul_assoc, Nat.add_mul_mod_self_left]

theorem meets_extended {v : Value} {x : Nat} (fill : Fill) (hv : V.Source v)
    (h : V.Is v u (.scalar x)) (hu : u.IsWord) (hcu : V.T.classify u ≠ .expandInteger)
    (ht : V.Word 1 t) (hut : u.bits ≤ t.bits) : V.Meets (extended V.T fill v t) fun w =>
      ∃ z, V.Is w t (.scalar z) ∧ (V.sem → fill.Fills u.bits t.bits x z ∧
        (fill = .any → ¬ V.T.Loose V.limit u → z = x)) := by
  refine .typeOf_bind h ?_
  rcases V.regular.word_cases hu with hcu' | hcu' | hcu'
  · rw [hcu']
    have hword : V.Word 1 u := .legal hu hcu'
    cases fill with
    | any =>
      refine (Meets.resizeAny hword ht hut h).mono fun w => Exists.imp fun z hz => ?_
      exact ⟨hz.1, fun hs => ⟨(hz.2 hs).1, fun _ => (hz.2 hs).2⟩⟩
    | zero | sign =>
      refine (Meets.resize _ hword ht u.bits_pos (Nat.le_refl _) hut h fun hs =>
        ⟨h.lt hs, Fill.fills_self (h.lt hs)⟩).mono fun w => Exists.imp fun z hz => ?_
      exact ⟨hz.1, fun hs => ⟨hz.2 hs, fun h => by cases h⟩⟩
  · rw [hcu']
    refine .bind (.filled hv h hcu' fill) ?_
    rintro w ⟨y, hw, hy⟩
    refine (Meets.resize fill (.promoted hcu') ht u.bits_pos
      (Nat.le_of_lt (V.regular.promoted hcu').2.2.1) hut hw fun hs => ⟨h.lt hs, hy hs⟩).mono
        fun w => Exists.imp fun z hz => ?_
    exact ⟨hz.1, fun hs => ⟨hz.2 hs, fun _ htight =>
      absurd (Target.loose_of_promoted V.regular hcu') htight⟩⟩
  · exact absurd hcu' hcu

/-- The data of extensions that fill in a given way. -/
theorem accepts_extension {fill : Fill} {x y : Nat} (hn : V.Shows fill.opcode [u] t)
    (hu : u.IsWord) (ht : t.IsWord) (hut : u.bits < t.bits) (hs : V.sem)
    (hx : V.bitsOf 0 = x) (hy : fill.Fills u.bits t.bits x y) (hlt : y < 2 ^ t.bits)
    (htight : fill = .any → ¬ V.T.Loose V.limit u → y = x) : V.Accepts (.scalar y) := by
  have hxlt : x < 2 ^ u.bits := hx ▸ V.bitsOf_lt hs (hn.operandType rfl) hu.2
  have hle : 2 ^ u.bits ≤ 2 ^ t.bits := Nat.pow_le_pow_right (by decide) (Nat.le_of_lt hut)
  cases fill with
  | zero =>
    cases hy
    rw [hn.accepts_iff (by simp [Fill.opcode]), hn.datum_cut hs (.inr (.inl rfl)) hu ht, hx,
      Nat.mod_eq_of_lt hlt]
  | sign =>
    cases hy
    rw [hn.accepts_iff (by simp [Fill.opcode]), hn.datum_signExtend hs hu ht hut, hx]
  | any =>
    have hxt : x % 2 ^ t.bits = x := Nat.mod_eq_of_lt (by omega)
    refine hn.accepts_low (.inl rfl) (hn.datum_cut hs (.inr (.inr rfl)) hu ht) ?_ fun h => ?_
    · rw [hu.laneBits_eq, show y % 2 ^ u.bits = x from hy, hx, hxt, Nat.mod_eq_of_lt hxlt]
    · rw [htight rfl h, hx, hxt]

/-- Fillings can be cut back. -/
theorem fills_mod {fill : Fill} {n m k x y : Nat} (hnk : n ≤ k) (hkm : k ≤ m) (hx : x < 2 ^ n)
    (h : fill.Fills n m x y) : fill.Fills n k x (y % 2 ^ k) := by
  have hle : 2 ^ n ≤ 2 ^ k := Nat.pow_le_pow_right (by decide) hnk
  cases fill with
  | zero =>
    cases h
    exact Nat.mod_eq_of_lt (by omega)
  | sign =>
    cases h
    exact Word.extend_mod hnk hkm hx
  | any =>
    show y % 2 ^ k % 2 ^ n = x
    rw [Nat.mod_mod_of_dvd _ (Nat.pow_dvd_pow 2 hnk)]
    exact h

theorem meets_ofExtension (fill : Fill) (hn : V.Shows fill.opcode [u] t) (hu : u.IsWord)
    (hut : u.bits < t.bits) (hc : V.T.classify t = .promoteInteger) :
    V.Meets (ofExtension V.T fill V.id 0) (V.Carried t) := by
  obtain ⟨hword, _, hlt, _⟩ := V.regular.promoted hc
  refine .bind (.resultType hn.results) ?_
  rintro _ rfl
  refine .bind (.operandWord (hn.operandType rfl) hu.2) fun v hv => ?_
  have hcu : V.T.classify u ≠ .expandInteger := fun hcu => by
    have := V.regular.bits_le_of_expanded hcu hword (by rw [hc]; simp)
    omega
  refine (meets_extended fill hv.1 hv.2 hu hcu (.promoted hc) (by omega)).mono ?_
  rintro w ⟨z, hw, hz⟩
  refine hw.carriedWord hword.2 fun hs => ?_
  refine accepts_extension hn hu hword hut hs rfl
    (fills_mod (Nat.le_of_lt hut) (Nat.le_of_lt hlt) (hv.2.lt hs) (hz hs).1)
    (Nat.mod_lt _ (Nat.two_pow_pos _)) fun hany htight => ?_
  rw [(hz hs).2 hany htight, Nat.mod_eq_of_lt (Nat.lt_of_lt_of_le (hv.2.lt hs)
    (Nat.pow_le_pow_right (by decide) (Nat.le_of_lt hut)))]

/-! ### Lanes and reinterpretation -/

theorem meets_ofExtract {i : ValueType} (hn : V.Shows .extractElement [u, i] t)
    (hu : u.isVector = true) (hreads : V.T.Reads V.limit u t) (hi : i.IsWord)
    (hc : V.T.classify t = .promoteInteger) : V.Meets (ofExtract V.T V.id 0) (V.Carried t) := by
  obtain ⟨hword, hwide, hlt, hlegal⟩ := V.regular.promoted hc
  have hpos := Target.weight_pos (T := V.T) (t := t) (by rw [hc]; simp)
  have hdvd : 2 ^ u.laneBits ∣ 2 ^ t.bits := Nat.pow_dvd_pow 2 hreads.laneBits_le
  refine .bind (.resultType hn.results) ?_
  rintro _ rfl
  refine .bind (.operandLanes (hn.operandType rfl) hu) fun vector hvector => ?_
  refine .bind (.operandWord (hn.operandType rfl) hi.2) fun index hindex => ?_
  have hdatum (hs : V.sem) := hn.datum_extract hs hu hi
  refine (Meets.extractAs (x := ((V.lanesOf 0)[V.bitsOf 1 % 2 ^ 64]?).getD 0) hu
    (hreads.carrier V.regular hc) hi hn.extract_index (hn.names hu hi.2 hindex.1 hindex.2)
    (hn.admits (by simp) ?_ ?_ fun h => absurd h (hn.not_total rfl)) hvector.2 hindex.2
    fun hs => ?_).mono ?_
  · simp [Target.weight_of_legal hlegal]
  · simp [Target.weight_of_legal hlegal, hpos]
  · obtain ⟨x, hx, _⟩ := hdatum hs
    rw [hx]
    rfl
  · rintro w ⟨y, hw, hy⟩
    refine hw.carriedWord hword.2 fun hs => ?_
    obtain ⟨x, hx, hd⟩ := hdatum hs
    obtain ⟨hlow, htight⟩ := hy hs
    rw [hx, Option.getD_some] at hlow htight
    have hlt := (Datum.fits_vector.1 (hvector.2.fits hs)).2.2 x (List.mem_of_getElem? hx)
    refine hn.accepts_low (.inr rfl) hd ?_ fun h => ?_
    · rw [Nat.mod_mod_of_dvd _ hdvd, hlow, Nat.mod_eq_of_lt hlt]
    · rw [htight (.inr h), Nat.mod_eq_of_lt (Nat.lt_of_lt_of_le hlt
        (Nat.le_of_dvd (Nat.two_pow_pos _) hdvd))]

theorem meets_ofBitcast (hn : V.Shows .bitcast [u] t) (hbits : u.bits = t.bits)
    (hc : V.T.classify t = .promoteInteger) : V.Meets (ofBitcast V.T V.id 0) (V.Carried t) := by
  obtain ⟨hword, _, hlt, _⟩ := V.regular.promoted hc
  have htotal := hn.not_total rfl
  have hillegal : V.T.classify t ≠ .legal := by rw [hc]; simp
  refine .bind (.resultType hn.results) ?_
  rintro _ rfl
  refine .bind (.operand (hn.operandType rfl)) fun v hv => ?_
  refine .typeOf_bind hv.2 ?_
  split
  · next hcu =>
    obtain ⟨hlanes, _⟩ := V.regular.scalarized hcu
    have hvector : u.isVector = true := by simp [ValueType.isVector, hlanes]
    have hlight := Target.weight_scalar_lt (T := V.T) hvector (by rw [hcu]; simp)
    obtain ⟨l, hl, hdata⟩ := hv.2.vector hvector
    refine .bind (.soleLane hv.1 hl hcu) ?_
    rintro e ⟨y, he, hy⟩
    refine .bind (.bitcastScalar hword.2 (by rw [ValueType.bits_scalar hlanes, hbits])
      (fun _ => hn.admits (by simp) ?_ ?_ fun h => absurd h htotal) he) fun element helement => ?_
    · simp [Nat.le_of_lt hlight]
    · simp [hlight]
    have htword : V.Word 1 t := ⟨hword, hn.small List.mem_cons_self (by decide)⟩
    refine (Meets.resize (n := t.bits) (x := y) .any htword (.promoted hc) t.bits_pos
      (Nat.le_refl _) (Nat.le_of_lt hlt) helement fun hs =>
        ⟨helement.lt hs, Nat.mod_eq_of_lt (helement.lt hs)⟩).mono ?_
    rintro w ⟨z, hw, hz⟩
    refine hw.carriedWord hword.2 fun hs => ?_
    rw [hn.accepts_iff (by simp), hn.datum_bitcast hs hbits, hdata hs, hy hs, Datum.number,
      Datum.lanes, Nat.ofDigits_singleton, Datum.ofNumber_word hword.2,
      Nat.mod_eq_of_lt (helement.lt hs), show z % 2 ^ t.bits = y from hz hs]
  · next hcu =>
    have hhalf := V.regular.halved hcu
    obtain ⟨hvector, _, _, _⟩ := ValueType.half?_eq_some hhalf
    obtain ⟨l, hl, hdata⟩ := hv.2.vector hvector
    have hubits := (ValueType.bits_half hhalf).2
    have hupos := (V.T.transform u).bits_pos
    refine .bind (.vectorHalves hv.1 hl hcu) ?_
    rintro ⟨lo, hi⟩ ⟨m, m', hlo, hhi, hm⟩
    dsimp only
    split
    · next half hint =>
      obtain ⟨hhword, hhbits⟩ := ValueType.int?_eq_some hint
      have hsmall (s : ValueType) (hs : s.bits = half.bits) : V.Small 5 s :=
        hn.small_narrower List.mem_cons_self hillegal (by omega)
      have hadmits : V.Admits .bitcast [half, V.T.transform u] :=
        .of_small (by simp) (by
          simpa using ⟨(hsmall half rfl).mono (Opcode.stage_le _),
            (hsmall _ (by omega)).mono (Opcode.stage_le _)⟩) fun h => absurd h htotal
      have hcast := Datum.ofNumber_word hhword.2
      refine .bind (.bitcast (by omega) (fun _ => hadmits) hlo) fun lo' hlo' => ?_
      refine .bind (.bitcast (by omega) (fun _ => hadmits) hhi) fun hi' hhi' => ?_
      rw [hcast] at hlo' hhi'
      refine (Meets.joinHalves ⟨hhword, (hsmall half rfl).mono (by decide)⟩ (.promoted hc)
        (by omega) hlo' hhi').mono ?_
      rintro w ⟨z, hw, hz⟩
      refine hw.carriedWord hword.2 fun hs => ?_
      have hmlt := (hlo.fits hs).number_lt
      have hmlt' := (hhi.fits hs).number_lt
      have hlen := (Datum.fits_vector.1 (hlo.fits hs)).2.1
      have hz := hz hs
      rw [show 2 * half.bits = t.bits by omega, show half.bits = (V.T.transform u).bits by omega,
        Nat.mod_eq_of_lt hmlt, Nat.mod_eq_of_lt hmlt', ← Datum.number_append hhalf hlen] at hz
      rw [hn.accepts_iff (by simp), hn.datum_bitcast hs hbits, hdata hs, hm hs, hz,
        Datum.ofNumber_word hword.2, ← hz, Nat.mod_mod]
    · exact .obstacle _ htotal
  · exact .obstacle _ htotal

/-! ### Pairs -/

/-- The halves of a pair, joined at a wider type. -/
theorem meets_joinWords (hn : V.Shows .buildPair [u, u] t) (hu : u.IsWord) {s : ValueType}
    (hs : V.Word 1 s) (hus : 2 * u.bits ≤ s.bits) : V.Meets (joinPair V.T V.id s) fun w =>
      ∃ z, V.Is w s (.scalar z) ∧
        (V.sem → z % 2 ^ (2 * u.bits) = V.bitsOf 0 + 2 ^ u.bits * V.bitsOf 1) := by
  have huword : V.Word 1 u := ⟨hu, hn.small (by simp) (by decide)⟩
  refine .bind (.operandWord (hn.operandType rfl) hu.2) fun lo hlo => ?_
  refine .bind (.operandWord (hn.operandType rfl) hu.2) fun hi hhi => ?_
  refine .typeOf_bind hlo.2 (.typeOf_bind hlo.2 ?_)
  have hnext (lo' hi' : Value) (s' : ValueType) (y : Nat) (hs' : V.Word 1 s')
      (hle : u.bits ≤ s'.bits) (hlo' : V.Is lo' s' (.scalar (V.bitsOf 0)))
      (hhi' : V.Is hi' s' (.scalar y)) (hy : V.sem → y % 2 ^ u.bits = V.bitsOf 1) :
      V.Meets (Edit.joinAt u.bits lo' hi' s) fun w => ∃ z, V.Is w s (.scalar z) ∧
        (V.sem → z % 2 ^ (2 * u.bits) = V.bitsOf 0 + 2 ^ u.bits * V.bitsOf 1) := by
    refine (Meets.joinAt hs' hs' hs u.bits_pos hle hle hus hlo' hhi' hlo.2.lt).mono ?_
    rintro w ⟨z, hw, hz⟩
    exact ⟨z, hw, fun hsem => by rw [hz hsem, hy hsem]⟩
  by_cases hcu : V.T.classify u = .promoteInteger
  · rw [if_pos hcu]
    refine .bind (.zeroExtended hlo.1 hlo.2 hcu) fun lo' hlo' => ?_
    refine .typeOf_bind hhi.2 ?_
    rw [if_pos hcu]
    refine .bind (.promoted hhi.1 hhi.2 hcu) ?_
    rintro hi' ⟨y, hhi', hy⟩
    exact hnext lo' hi' _ y (.promoted hcu) (Nat.le_of_lt (V.regular.promoted hcu).2.2.1) hlo' hhi'
      hy
  · rw [if_neg hcu]
    refine .bind (P := (lo = ·)) (.pure rfl) ?_
    rintro _ rfl
    refine .typeOf_bind hhi.2 ?_
    rw [if_neg hcu]
    exact hnext lo hi u _ huword (Nat.le_refl _) hlo.2 hhi.2 fun hs => Nat.mod_eq_of_lt (hhi.2.lt hs)

/-- Halves that are no words are extended as they are, which keeps a single lane of each. -/
theorem meets_joinPair (hn : V.Shows .buildPair [u, u] t) {s : ValueType} (hs : V.Word 1 s)
    (hu : u.IsWord ∨ V.limit.liberal ∧ u.laneCount = 1 ∧ V.T.classify s = .legal)
    (hus : 2 * u.bits ≤ s.bits) : V.Meets (joinPair V.T V.id s) fun w =>
      ∃ z, V.Is w s (.scalar z) ∧ (V.sem → z % 2 ^ (2 * u.bits) =
        (V.data 0).number u + 2 ^ u.bits * (V.data 1).number u) := by
  by_cases hword : u.IsWord
  · refine (meets_joinWords hn hword hs hus).mono ?_
    rintro w ⟨z, hw, hz⟩
    refine ⟨z, hw, fun hsem => ?_⟩
    rw [hz hsem, V.data_scalar hsem (hn.operandType (i := 0) rfl) hword.2,
      V.data_scalar hsem (hn.operandType (i := 1) rfl) hword.2, Datum.number_scalar,
      Datum.number_scalar]
  · obtain ⟨hl, hone, hlegal⟩ := hu.resolve_left hword
    have hcu : V.T.classify u ≠ .promoteInteger := fun hc => hword (V.regular.promoted hc).1
    have htotal : ¬ V.total := fun h => hword ((hn.plain h).words u (by simp))
    refine .bind (.operand (hn.operandType rfl)) fun lo hlo => ?_
    refine .bind (.operand (hn.operandType rfl)) fun hi hhi => ?_
    refine .typeOf_bind hlo.2 (.typeOf_bind hlo.2 ?_)
    rw [if_neg hcu]
    refine .bind (P := (lo = ·)) (.pure rfl) ?_
    rintro _ rfl
    refine .typeOf_bind hhi.2 ?_
    rw [if_neg hcu]
    exact Meets.joinLanes hl hone hword hs.1 hlegal hus ⟨.liberal hl htotal, .liberal hl htotal⟩
      hlo.2 hhi.2

theorem meets_ofPair (hn : V.Shows .buildPair [u, u] t)
    (hu : u.IsWord ∨ V.limit.liberal ∧ u.laneCount = 1)
    (hbits : t.bits = 2 * u.bits) (hc : V.T.classify t = .promoteInteger) :
    V.Meets (ofPair V.T V.id 0) (V.Carried t) := by
  obtain ⟨hword, _, hlt, hlegal⟩ := V.regular.promoted hc
  refine .bind (.resultType hn.results) ?_
  rintro _ rfl
  refine (meets_joinPair hn (.promoted hc) (hu.imp_right fun h => ⟨h.1, h.2, hlegal⟩)
    (by omega)).mono ?_
  rintro w ⟨z, hw, hz⟩
  refine hw.carriedWord hword.2 fun hs => ?_
  rw [hn.accepts_iff (by simp), hn.datum_pair hs hbits, Datum.ofNumber_word hword.2, ← hz hs,
    ← hbits, Nat.mod_mod]

/-! ### Operands -/

/-- Comparisons read operands that are filled as the predicate asks. -/
theorem test_filled {c : Condition} {n m x y x' y' : Nat} (hn : 0 < n) (hnm : n ≤ m) (hm : m ≤ 128)
    (hx : x < 2 ^ n) (hy : y < 2 ^ n)
    (hx' : (if c.isSigned then Fill.sign else .zero).Fills n m x x')
    (hy' : (if c.isSigned then Fill.sign else .zero).Fills n m y y') :
    c.test m x' y' = c.test n x y := by
  cases hc : c.isSigned with
  | true =>
    rw [hc, if_pos rfl] at hx' hy'
    cases hx'
    cases hy'
    exact Condition.test_extend hc hn hnm hm hx hy
  | false =>
    rw [hc, if_neg (by simp)] at hx' hy'
    cases hx'
    cases hy'
    exact Condition.test_unsigned hc

theorem meets_inSetcc (hn : V.Shows .setcc [u, u] t) (ht : t.IsWord)
    (hlegal : V.T.classify t = .legal) (hc : V.T.classify u = .promoteInteger) :
    V.Meets (inSetcc V.id) (V.Stands t) := by
  obtain ⟨hword, hwide, hlt, _⟩ := V.regular.promoted hc
  refine .bind (.resultType hn.results) ?_
  rintro _ rfl
  refine .bind (.predicate hn) fun c hattr => ?_
  refine .bind (.operandWord (hn.operandType rfl) hword.2) fun a ha => ?_
  refine .bind (.operandWord (hn.operandType rfl) hword.2) fun b hb => ?_
  refine .bind (.filled ha.1 ha.2 hc _) ?_
  rintro a' ⟨x, ha', hx⟩
  refine .bind (.filled hb.1 hb.2 hc _) ?_
  rintro b' ⟨y, hb', hy⟩
  refine (Meets.setcc (s := 0) ht hlegal (.promoted hc) c ha' hb').mono fun w hw =>
    hw.stands fun hs => ?_
  rw [hn.accepts_iff (by simp), hn.datum_setcc hs hword ht hattr,
    test_filled u.bits_pos (Nat.le_of_lt hlt) hwide.bits_le (ha.2.lt hs) (hb.2.lt hs) (hx hs) (hy hs)]

theorem meets_inSelect (hn : V.Shows .select [u, t, t] t)
    (hc : V.T.classify u = .promoteInteger) : V.Meets (inSelect V.id 0) (V.Stands t) := by
  obtain ⟨hword, hwide, _, hcarrier⟩ := V.regular.promoted hc
  have hpos := Target.weight_pos (T := V.T) (t := u) (by rw [hc]; simp)
  refine .bind (.operandWord (hn.operandType rfl) hword.2) fun cond hk => ?_
  refine .bind (.zeroExtended hk.1 hk.2 hc) fun cond' hk' => ?_
  refine .bind (.operand (hn.operandType rfl)) fun a ha => ?_
  refine .bind (.operand (hn.operandType rfl)) fun b hb => ?_
  refine (Meets.selectOf hwide (hn.admits (by simp) ?_ ?_ fun htotal => ?_) hk' ha.2 hb.2).mono
    fun w hw => hw.stands fun hs => ?_
  · simp [Target.weight_of_legal hcarrier]
  · simp [Target.weight_of_legal hcarrier, hpos]
  · have := (hn.plain htotal).words t List.mem_cons_self
    exact ⟨rfl, by simp [hwide, this], by simp, by simp⟩
  · rw [hn.accepts_iff (by simp), hn.datum_select hs hword]

theorem meets_inExtension (fill : Fill) (hn : V.Shows fill.opcode [u] t) (ht : t.IsWord)
    (hlegal : V.T.classify t = .legal) (hut : u.bits < t.bits)
    (hc : V.T.classify u = .promoteInteger) : V.Meets (inExtension V.T fill V.id) (V.Stands t) := by
  have hword := (V.regular.promoted hc).1
  refine .bind (.resultType hn.results) ?_
  rintro _ rfl
  refine .bind (.operandWord (hn.operandType rfl) hword.2) fun v hv => ?_
  refine (meets_extended fill hv.1 hv.2 hword (by rw [hc]; simp) (.legal ht hlegal)
    (Nat.le_of_lt hut)).mono ?_
  rintro w ⟨z, hw, hz⟩
  exact hw.stands fun hs => accepts_extension hn hword ht hut hs rfl (hz hs).1 (hw.lt hs) (hz hs).2

theorem meets_inPair (hn : V.Shows .buildPair [u, u] t) (hlegal : V.T.classify t = .legal)
    (hbits : t.bits = 2 * u.bits) (hc : V.T.classify u = .promoteInteger) :
    V.Meets (inPair V.T V.id) (V.Stands t) := by
  have hword := (V.regular.promoted hc).1
  refine .bind (.resultType hn.results) ?_
  rintro _ rfl
  split
  · next wide hint =>
    obtain ⟨hwide, hwbits⟩ := ValueType.int?_eq_some hint
    -- promoted halves charge the pair with an integer of the width of the result
    have hsmall : V.Small 3 wide := fun _ => by
      have hjoint : V.T.jointWeight V.node.opcode (V.node.results ++ V.types) = 4 * t.bits ^ 2 := by
        rw [hn.append_eq, hn.opcode]
        exact if_pos hc
      have hle : charge V.node.opcode.stage (4 * t.bits ^ 2) ≤ V.height :=
        V.height_eq ▸ hjoint ▸ Target.charge_joint_le_height
      have hpos := Nat.pow_pos (n := 2) t.bits_pos
      rw [hn.opcode] at hle
      refine Nat.lt_of_lt_of_le (charge_lt_of_stage (by decide) ?_ (by omega)) hle
      rw [← hwbits]
      exact Target.weight_word hwide
    refine .bind (meets_joinPair hn ⟨hwide, hsmall.mono (by decide)⟩ (.inl hword) (by omega)) ?_
    rintro w ⟨z, hw, hz⟩
    refine (Meets.bitcast hwbits (fun hne => .of_small (by simp) ?_ fun htotal => ?_) hw).mono
      fun w' hw' => hw'.stands fun hs => ?_
    · simpa using ⟨.legal hlegal, hsmall⟩
    · have ht := (hn.plain htotal).words t List.mem_cons_self
      exact absurd (hwide.eq_of_bits_eq ht hwbits) hne
    · have hz := hz hs
      rw [← hbits, ← hwbits, Nat.mod_eq_of_lt (hw.lt hs)] at hz
      rw [hn.accepts_iff (by simp), hn.datum_pair hs hbits, Datum.number_scalar, hz]
  · next hint =>
    refine .obstacle _ fun htotal => ?_
    have ht := (hn.plain htotal).words t List.mem_cons_self
    exact hint t ht.int?_bits

/-! ### Vectors -/

/-- The type at which an element is handed on. -/
def carrier (T : Target) (e : ValueType) : ValueType :=
  if T.classify e = .promoteInteger then T.transform e else e

theorem weight_carrier_le (e : ValueType) : V.T.weight (carrier V.T e) ≤ V.T.weight e := by
  unfold carrier
  split
  · next hc => exact Nat.le_of_lt (Target.weight_transform_lt V.regular (by rw [hc]; simp))
  · exact Nat.le_refl _

/-- Elements of legal vectors may be handed on in carriers. -/
theorem carries_transform {e : ValueType} (hlegal : V.T.classify t = .legal)
    (h : t.Carries (V.T.Wide t t.scalar) e) (hc : V.T.classify e = .promoteInteger) :
    t.Carries (V.T.Wide t t.scalar) (V.T.transform e) := by
  obtain ⟨hword, hwide, hlt, _⟩ := V.regular.promoted hc
  rcases h with rfl | ⟨hw, hint, _, hbits⟩
  · refine .inr ⟨⟨hlegal, hc⟩, t.isWord_scalar.1 hword, hwide, ?_⟩
    rw [← t.laneBits_scalar, hword.laneBits_eq]
    exact hlt
  · exact .inr ⟨hw, hint, hwide, by omega⟩

theorem writes_transform {e : ValueType} (hlegal : V.T.classify t = .legal)
    (h : V.T.Writes V.limit t e) (hc : V.T.classify e = .promoteInteger) :
    V.T.Writes V.limit t (V.T.transform e) := by
  rcases h with hcarries | ⟨hl, hkeeps, _, hbits⟩
  · exact .inl (carries_transform hlegal hcarries hc)
  · obtain ⟨_, hwide, hlt, _⟩ := V.regular.promoted hc
    exact .inr ⟨hl, hkeeps, hwide, by omega⟩

theorem meets_inBuildVector {es : List ValueType} {i : Nat} {e : ValueType}
    (hn : V.Shows .buildVector es t) (ht : t.isVector = true) (hlen : es.length = t.lanes)
    (hes : ∀ e ∈ es, V.T.Writes V.limit t e) (hlegal : V.T.classify t = .legal)
    (hi : es[i]? = some e) (hc : V.T.classify e = .promoteInteger) :
    V.Meets (inBuildVector V.T V.id) (V.Stands t) := by
  refine .bind (.resultType hn.results) ?_
  rintro _ rfl
  refine .bind (.operands V) fun vs hvs => ?_
  rw [hn.types] at hvs
  -- each element is handed on at its carrier, with the same low bits
  refine .bind (.mapM (S := fun w j => ∃ e x, es[j]? = some e ∧
    V.Is w (carrier V.T e) (.scalar x) ∧ V.T.Writes V.limit t (carrier V.T e) ∧
      (V.sem → x % 2 ^ t.laneBits = V.bitsOf j % 2 ^ t.laneBits)) fun j v hv => ?_) ?_
  · obtain ⟨hsource, e, he, hv⟩ := hvs.2 j v hv
    have hwrites := hes e (List.mem_of_getElem? he)
    have hv := hv.congr fun hs => V.data_scalar hs (hn.operandType he) hwrites.isVector
    refine .typeOf_bind hv ?_
    split
    · next hce =>
      refine (Meets.promoted hsource hv hce).mono ?_
      rintro w ⟨x, hw, hx⟩
      refine ⟨e, x, he, by rwa [carrier, if_pos hce],
        by rw [carrier, if_pos hce]; exact writes_transform hlegal hwrites hce, fun hs => ?_⟩
      rw [← hx hs, Nat.mod_mod_of_dvd _ (Nat.pow_dvd_pow 2 hwrites.laneBits_le)]
    · next hce =>
      exact .pure ⟨e, _, he, by rwa [carrier, if_neg hce], by rwa [carrier, if_neg hce],
        fun _ => rfl⟩
  rintro ws ⟨hwslen, hws⟩
  rw [hvs.1] at hwslen
  have htypes : ws.map V.final.typeOf? = (es.map (carrier V.T)).map some := by
    refine List.ext_getElem? fun j => ?_
    by_cases hj : j < ws.length
    · have hget := List.getElem?_eq_getElem hj
      obtain ⟨e, x, he, his, _⟩ := hws j _ hget
      simp [hget, he, his.type]
    · rw [List.getElem?_eq_none (by simpa using hj), List.getElem?_eq_none (by simp; omega)]
  refine (Meets.buildVector ht (fun w hw => ?_) (hwslen.trans hlen) fun es' hes' _ => ?_).mono
    fun w hw => hw.stands fun hs => ?_
  · obtain ⟨j, hj⟩ := List.mem_iff_getElem?.1 hw
    obtain ⟨e, x, _, his, hwrites, _⟩ := hws j w hj
    exact ⟨_, x, his, hwrites⟩
  · obtain rfl : es' = es.map (carrier V.T) :=
      List.map_injective_iff.2 (Option.some_injective _) (hes'.symm.trans htypes)
    refine hn.admits (by simp) ?_ ?_ fun h => absurd h (hn.not_total rfl)
    · refine .cons (Nat.le_refl _) ?_
      rw [List.forall₂_map_left_iff]
      exact List.forall₂_same.2 fun e _ => weight_carrier_le e
    · rw [Target.load_cons, Target.load_cons]
      refine Nat.add_lt_add_left (Target.load_map_lt (fun e _ => weight_carrier_le e)
        (List.mem_of_getElem? hi) ?_) _
      rw [carrier, if_pos hc]
      exact Target.weight_transform_lt V.regular (by rw [hc]; simp)
  · rw [hn.accepts_iff (by simp), hn.datum_buildVector hs fun e he => (hes e he).isVector]
    congr 1
    refine List.ext_getElem? fun j => ?_
    by_cases hj : j < ws.length
    · have hget := List.getElem?_eq_getElem hj
      obtain ⟨e, x, he, his, _, hx⟩ := hws j _ hget
      rw [List.getElem?_map, List.getElem?_map, hget, List.getElem?_range (by omega),
        Option.map_some, Option.map_some, his.wordAt hs, hx hs]
    · rw [List.getElem?_eq_none (by simpa using hj), List.getElem?_eq_none (by simp; omega)]

/-! ### Lane indices -/

/-- A promoted index at the index type, where it names a lane. -/
theorem meets_laneIndex {v : Value} {k : Nat} (hv : V.Source v) (h : V.Is v u (.scalar k))
    (hc : V.T.classify u = .promoteInteger) (hk : V.sem → k < 2 ^ 8) :
    V.Meets (laneIndex V.T v) fun w => V.Is w V.T.indexType (.scalar k) := by
  obtain ⟨hword, hwide, hlt, _⟩ := V.regular.promoted hc
  have hbits : 8 ≤ (V.T.transform u).bits := by
    have := u.bits_pos
    rcases hwide.bits_cases with h | h | h | h | h | h <;> omega
  refine .bind (.zeroExtended hv h hc) fun w hw => ?_
  refine (Meets.resize (n := 8) (x := k) .zero (.promoted hc) .indexType (by decide) hbits
    V.regular.indexType.2.2 hw fun hs => ⟨hk hs, rfl⟩).mono ?_
  rintro w ⟨z, hw, hz⟩
  exact hw.congr fun hs => by rw [hz hs]

/-- An index that names a lane is small. -/
theorem index_lt {k : Nat} (hk : k < 2 ^ u.bits) (hc : V.T.classify u = .promoteInteger)
    (h : k % 2 ^ 64 < t.lanes) : k % 2 ^ 64 = k ∧ k < 2 ^ 8 := by
  obtain ⟨hword, hwide, hlt, _⟩ := V.regular.promoted hc
  have hle := hwide.bits_le
  have hu : u.bits ≤ 64 := by
    rcases hword.bits_cases with h | h | h | h | h | h <;> omega
  have hpow : 2 ^ u.bits ≤ 2 ^ 64 := Nat.pow_le_pow_right (by decide) hu
  have hlanes : t.lanes ≤ 16 := by cases t <;> decide
  rw [Nat.mod_eq_of_lt (Nat.lt_of_lt_of_le hk hpow)] at h ⊢
  exact ⟨rfl, by omega⟩

theorem meets_inInsert {e i : ValueType} (hn : V.Shows .insertElement [t, e, i] t)
    (ht : t.isVector = true) (he : V.T.Writes V.limit t e) (hi : i.IsWord)
    (hlegal : V.T.classify t = .legal) (k : Nat)
    (hc : ∀ u, [t, e, i][k]? = some u → V.T.classify u = .promoteInteger) :
    V.Meets (inInsert V.T V.id k) (V.Stands t) := by
  have htotal := hn.not_total rfl
  have hindexType := Target.weight_of_legal (T := V.T) V.regular.indexType.2.1
  refine .bind (.operandLanes (hn.operandType rfl) ht) fun vector hvector => ?_
  refine .bind (.operandWord (hn.operandType rfl) he.isVector) fun element helement => ?_
  refine .bind (.operandWord (hn.operandType rfl) hi.2) fun index hindex => ?_
  have hlanes (hs : V.sem) : (V.lanesOf 0).length = t.lanes :=
    (Datum.fits_vector.1 (hvector.2.fits hs)).2.1
  have hdatum (hs : V.sem) := hn.datum_insert hs ht he.isVector hi
  split
  · have hce := hc e rfl
    have hlight := Target.weight_transform_lt V.regular (t := e) (by rw [hce]; simp)
    refine .bind (.promoted helement.1 helement.2 hce) ?_
    rintro element' ⟨x, helement', hx⟩
    refine (Meets.insert ht (writes_transform hlegal he hce) hi hn.insert_index
      (hn.admits (by simp) ?_ ?_ fun h => absurd h htotal) hvector.2 helement' hindex.2
      fun hs => by rw [hlanes hs]; exact (hdatum hs).1).mono fun w hw => hw.stands fun hs => ?_
    · simp [Nat.le_of_lt hlight]
    · simp [hlight]
    · rw [hn.accepts_iff (by simp), (hdatum hs).2, ← hx hs,
        Nat.mod_mod_of_dvd _ (Nat.pow_dvd_pow 2 he.laneBits_le)]
  · have hci := hc i rfl
    have hpos := Target.weight_pos (T := V.T) (t := i) (by rw [hci]; simp)
    have hlt (hs : V.sem) := index_lt (hindex.2.lt hs) hci (hdatum hs).1
    refine .bind (meets_laneIndex hindex.1 hindex.2 hci fun hs => (hlt hs).2) fun index' hindex' => ?_
    refine (Meets.insert ht he V.regular.indexType.1 (fun _ _ => V.regular.indexType.2.2)
      (hn.admits (by simp) ?_ ?_ fun h => absurd h htotal) hvector.2 helement.2 hindex'
      fun hs => by rw [hlanes hs]; exact (hdatum hs).1).mono fun w hw => hw.stands fun hs => ?_
    · simp [hindexType]
    · simp [hindexType, hpos]
    · rw [hn.accepts_iff (by simp), (hdatum hs).2]
  · exact .obstacle _ htotal

theorem meets_inExtract {i : ValueType} (hn : V.Shows .extractElement [u, i] t)
    (hu : u.isVector = true) (ht : V.T.Reads V.limit u t) (hi : i.IsWord) (k : Nat)
    (hc : ∀ s, [u, i][k]? = some s → V.T.classify s = .promoteInteger) :
    V.Meets (inExtract V.T V.id k) fun w =>
      V.Stands t w ∧ (V.sem → V.exact → V.val w.node = V.datum) := by
  have htotal := hn.not_total rfl
  have hindexType := Target.weight_of_legal (T := V.T) V.regular.indexType.2.1
  by_cases hk : k = 1
  · subst hk
    have hci := hc i rfl
    have hpos := Target.weight_pos (T := V.T) (t := i) (by rw [hci]; simp)
    refine .bind (.resultType hn.results) ?_
    rintro _ rfl
    refine .bind (.operandLanes (hn.operandType rfl) hu) fun vector hvector => ?_
    refine .bind (.operandWord (hn.operandType rfl) hi.2) fun index hindex => ?_
    have hdatum (hs : V.sem) := hn.datum_extract hs hu hi
    have hlt (hs : V.sem) : V.bitsOf 1 % 2 ^ 64 = V.bitsOf 1 ∧ V.bitsOf 1 < 2 ^ 8 := by
      obtain ⟨x, hx, _⟩ := hdatum hs
      refine index_lt (t := u) (hindex.2.lt hs) hci ?_
      rw [← (Datum.fits_vector.1 (hvector.2.fits hs)).2.1]
      exact (List.getElem?_eq_some_iff.1 hx).1
    refine .bind (meets_laneIndex hindex.1 hindex.2 hci fun hs => (hlt hs).2) fun index' hindex' => ?_
    refine (Meets.extractAs (x := ((V.lanesOf 0)[V.bitsOf 1 % 2 ^ 64]?).getD 0) hu ht
      V.regular.indexType.1 (fun _ _ => V.regular.indexType.2.2)
      (fun _ => Target.names_of_legal V.regular.indexType.2.1)
      (hn.admits (by simp) ?_ ?_ fun h => absurd h htotal) hvector.2 hindex' fun hs => ?_).mono ?_
    · simp [hindexType]
    · simp [hindexType, hpos]
    · obtain ⟨x, hx, _⟩ := hdatum hs
      rw [hx]
      rfl
    · rintro w ⟨y, hw, hy⟩
      refine ⟨hw.stands fun hs => ?_, fun hs hexact => ?_⟩
      · obtain ⟨x, hx, hd⟩ := hdatum hs
        have hy := hy hs
        rw [hx, Option.getD_some] at hy
        refine hn.accepts_low (.inr rfl) hd ?_ fun h => hy.2 (.inr h)
        rw [← hy.1, Nat.mod_mod]
      · obtain ⟨x, hx, hd⟩ := hdatum hs
        rw [hw.val hs, (hy hs).2 (.inl hexact), hd, hx]
        rfl
  · unfold inExtract
    rw [if_pos hk]
    exact .bind (P := fun _ => False) (.obstacle _ htotal) fun _ h => h.elim

end Dataflow.Legal.Widen
