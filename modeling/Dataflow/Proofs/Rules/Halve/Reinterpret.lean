import Dataflow.Legal.Halve.Reinterpret
import Dataflow.Proofs.Rules.Halve.Division

/-!
# Integers in two halves: reinterpretation and use

The halves of an integer whose bits are those of another value, and nodes of legal types that read
the halves.
-/

namespace Dataflow

theorem Datum.number_pair (t : ValueType) (a b : Nat) :
    (Datum.vector [a, b]).number t = a + 2 ^ t.laneBits * b := by
  simp [Datum.number, Datum.lanes, Nat.ofDigits_cons]

/-- A lane in two lanes of half the width. -/
theorem Word.getElem?_limbs_double {w a n k : Nat} (hk : k < n) : ∃ x,
    (limbs (2 * w) n a)[k]? = some x ∧ (limbs w (2 * n) a)[2 * k]? = some (x % 2 ^ w) ∧
      (limbs w (2 * n) a)[2 * k + 1]? = some (x / 2 ^ w % 2 ^ w) := by
  refine ⟨_, getElem?_limbs (2 * w) n a hk, ?_, ?_⟩
  · rw [getElem?_limbs w (2 * n) a (by omega), Nat.mod_mod_of_dvd _ (Nat.pow_dvd_pow 2 (by omega)),
      Nat.mul_left_comm, ← Nat.mul_assoc]
  · rw [getElem?_limbs w (2 * n) a (by omega), two_pow_double w, Nat.mod_mul_right_div_self,
      Nat.mod_mod, Nat.div_div_eq_div_mul, ← Nat.pow_add, Nat.mul_add, Nat.mul_one,
      Nat.mul_left_comm, ← Nat.mul_assoc]

/-- Twice an index that names a lane, at a type of at least a byte. -/
theorem Word.double_index {m k : Nat} (hm : 8 ≤ m) (hk : k < 2 ^ m) (h : 2 * (k % 2 ^ 64) + 1 < 2 ^ 8) :
    2 * k % 2 ^ m % 2 ^ 64 = 2 * (k % 2 ^ 64) ∧ (2 * k + 1) % 2 ^ m % 2 ^ 64 = 2 * (k % 2 ^ 64) + 1 := by
  rcases Nat.lt_or_ge m 64 with hlt | hge
  · have hpow : 2 ^ m ≤ 2 ^ 64 := Nat.pow_le_pow_right (by decide) (Nat.le_of_lt hlt)
    have hpow' : 2 ^ 8 ≤ 2 ^ m := Nat.pow_le_pow_right (by decide) hm
    rw [Nat.mod_eq_of_lt (Nat.lt_of_lt_of_le hk hpow)] at h ⊢
    rw [Nat.mod_eq_of_lt (a := 2 * k) (b := 2 ^ m) (by omega),
      Nat.mod_eq_of_lt (a := 2 * k) (by omega), Nat.mod_eq_of_lt (a := 2 * k + 1) (b := 2 ^ m) (by omega),
      Nat.mod_eq_of_lt (a := 2 * k + 1) (by omega)]
    exact ⟨rfl, rfl⟩
  · rw [Nat.mod_mod_of_dvd _ (Nat.pow_dvd_pow 2 hge), Nat.mod_mod_of_dvd _ (Nat.pow_dvd_pow 2 hge)]
    omega

namespace Legal.Halve

open RuleSpec RewriteSpec

variable {V : RewriteSpec} {t u : ValueType} {lo hi : Value} {d e : Datum} {x a b : Nat}

/-! ### Reinterpretation -/

/-- An integer is made of the bits of its operand. -/
theorem pairedBits {p : Value × Value} (hn : V.Shows .bitcast [u] t) (hbits : u.bits = t.bits)
    (hlo : V.Is p.1 (V.T.transform t) (.scalar a)) (hhi : V.Is p.2 (V.T.transform t) (.scalar b))
    (h : V.sem → (V.data 0).number u = a + 2 ^ (V.T.transform t).bits * b) : V.Paired t p :=
  Is.paired hlo hhi fun hs => by
    rw [hn.accepts_iff (by simp), hn.datum_bitcast hs hbits, h hs, Datum.number_scalar,
      Datum.number_scalar]

section
variable (hn : V.Shows .bitcast [u] t) (hbits : u.bits = t.bits)
  (hc : V.T.classify t = .expandInteger)
include hn hbits hc

/-- An integer of the whole width, cut. -/
theorem meets_cutBits {v : Value} {w : ValueType} (hw : V.Word 1 w) (hwbits : w.bits = t.bits)
    (h : V.Is v w (.scalar x)) (hx : V.sem → (V.data 0).number u = x) :
    V.Meets (Edit.cutInteger v (V.T.transform t)) (V.Paired t) := by
  obtain ⟨_, hhalf, htbits, hle, _⟩ := expanded hc
  have hadmits : V.Admits .truncate [V.T.transform t, w] :=
    .words rfl (by simp) (by
      simpa [Opcode.stage] using ⟨(Word.half hn.mem hc).mono (by decide), hw⟩) (by simp) (by simp)
  refine (Meets.cutInteger (hw.mono (by decide)) hhalf (by omega) hadmits h).mono fun p hp =>
    pairedBits hn hbits hp.1 hp.2 fun hs => ?_
  rw [hx hs, ← Word.mod_double, ← htbits, ← hwbits, Nat.mod_eq_of_lt (h.lt hs)]

/-- Parts of half the width, each cast on its own. -/
theorem meets_castParts {s : ValueType} (hsbits : s.bits = (V.T.transform t).bits)
    (hlo : V.Is lo s d) (hhi : V.Is hi s e)
    (h : V.sem → (V.data 0).number u = d.number s + 2 ^ s.bits * e.number s) : V.Meets (do
      if (← Edit.typeOf lo).bits ≠ (V.T.transform t).bits then
        Edit.obstacle V.id .bitcastPartsDiffer
      let lo ← Edit.cast .bitcast lo (V.T.transform t)
      let hi ← Edit.cast .bitcast hi (V.T.transform t)
      return (lo, hi)) (V.Paired t) := by
  obtain ⟨_, hhalf, htbits, hle, _⟩ := expanded hc
  have hadmits : V.Admits .bitcast [V.T.transform t, s] := by
    refine .of_small (by simp) ?_ fun h => absurd h (hn.not_total rfl)
    have hsmall (w : ValueType) (hw : w.bits = (V.T.transform t).bits) : V.Small 3 w :=
      (hn.small_narrower List.mem_cons_self (by rw [hc]; simp) (by omega)).mono (by decide)
    simpa using ⟨hsmall _ rfl, hsmall s hsbits⟩
  refine .typeOf_bind hlo ?_
  rw [if_neg (not_not.2 hsbits)]
  refine .bind (.castBits hsbits hadmits hlo) fun lo' hlo' => ?_
  refine .bind (.castBits hsbits hadmits hhi) fun hi' hhi' => .pure ?_
  rw [Datum.ofNumber_word hhalf.2] at hlo' hhi'
  refine pairedBits hn hbits hlo' hhi' fun hs => ?_
  rw [← hsbits, Nat.mod_eq_of_lt (hlo.fits hs).number_lt, Nat.mod_eq_of_lt (hhi.fits hs).number_lt,
    h hs]

/-- Two legal lanes of half the width, each cast on its own. -/
theorem meets_castLanes {v : Value} {l : List Nat} (hcu : V.T.classify u = .legal)
    (hlanes : u.lanes = 2) (hlane : u.laneBits = (V.T.transform t).bits)
    (hl : V.Is v u (.vector l)) (hdata : V.sem → V.data 0 = .vector l) : V.Meets (do
      let lo ← Edit.extractLane V.T v 0
      let hi ← Edit.extractLane V.T v 1
      let lo ← Edit.bitcast lo (V.T.transform t)
      let hi ← Edit.bitcast hi (V.T.transform t)
      return (lo, hi)) (V.Paired t) := by
  obtain ⟨_, hhalf, _, _, _⟩ := expanded hc
  have htotal := hn.not_total rfl
  have hvector : u.isVector = true := by simp [ValueType.isVector, hlanes]
  -- legal vectors have legal lanes, where that counts
  have hsmall (s : Nat) : V.Small s u.scalar := fun hm =>
    Small.legal (V.laned hm u (hn.mem_operand (by simp)) hcu) hm
  have hscalar : u.scalar.bits = (V.T.transform t).bits := by
    rw [ValueType.bits_eq_laneBits u.isVector_scalar, u.laneBits_scalar, hlane]
  have hextract : V.Admits .extractElement [u.scalar, u, V.T.indexType] := by
    refine .of_small (by simp) ?_ fun h => absurd h htotal
    simpa using ⟨hsmall _, .legal hcu, .legal V.regular.indexType.2.1⟩
  have hcast : V.Admits .bitcast [V.T.transform t, u.scalar] := by
    refine .of_small (by simp) ?_ fun h => absurd h htotal
    simpa using ⟨(Word.half hn.mem hc).2.mono (Opcode.stage_le _), hsmall _⟩
  have hpair (hs : V.sem) : ∃ a b, l = [a, b] := by
    have hlen := (Datum.fits_vector.1 (hl.fits hs)).2.1
    rw [hlanes] at hlen
    exact List.length_eq_two.1 hlen
  refine .bind (.extractLane (x := l[0]?.getD 0) hvector hextract hl (fun _ => by omega) fun hs => ?_)
    fun lo hlo => .bind (.extractLane (x := l[1]?.getD 0) hvector hextract hl (fun _ => by omega)
      fun hs => ?_) fun hi hhi => ?_
  · obtain ⟨a, b, rfl⟩ := hpair hs
    rfl
  · obtain ⟨a, b, rfl⟩ := hpair hs
    rfl
  refine .bind (.bitcastScalar hhalf.2 hscalar (fun _ => hcast) hlo) fun lo' hlo' => ?_
  refine .bind (.bitcastScalar hhalf.2 hscalar (fun _ => hcast) hhi) fun hi' hhi' =>
    .pure (pairedBits hn hbits hlo' hhi' fun hs => ?_)
  obtain ⟨a, b, rfl⟩ := hpair hs
  rw [hdata hs, Datum.number_pair, hlane]
  rfl

theorem meets_ofBitcast : V.Meets (ofBitcast V.T V.id 0) (V.Paired t) := by
  obtain ⟨hword, hhalf, htbits, _, _⟩ := expanded hc
  have htotal := hn.not_total rfl
  refine .bind (.transformed hn) ?_
  rintro _ rfl
  refine .bind (.operand (hn.operandType rfl)) fun v hv => ?_
  refine .typeOf_bind hv.2 ?_
  dsimp only
  split
  · next hcu =>
    obtain ⟨_, hvector, hcarrier, hcbits, _⟩ := V.regular.softened hcu
    have hlight := Target.weight_transform_lt V.regular (t := u) (by rw [hcu]; simp)
    obtain ⟨y, hy, hdata⟩ := hv.2.scalar hvector
    refine .bind (.softened hv.1 hy hcu) fun w hw => ?_
    refine meets_cutBits hn hbits hc
      ⟨hcarrier, .lighter (hn.mem_operand (by simp)) hlight (by decide)⟩ (by omega) hw fun hs => ?_
    rw [hdata hs, Datum.number_scalar]
  · next hcu =>
    obtain ⟨hlanes, _⟩ := V.regular.scalarized hcu
    have hvector : u.isVector = true := by simp [ValueType.isVector, hlanes]
    have hlight := Target.weight_scalar_lt (T := V.T) hvector (by rw [hcu]; simp)
    obtain ⟨l, hl, hdata⟩ := hv.2.vector hvector
    refine .bind (.resultType hn.results) ?_
    rintro _ rfl
    refine .bind (.soleLane hv.1 hl hcu) ?_
    rintro w ⟨y, hw, hy⟩
    refine .bind (.bitcastScalar hword.2 (by rw [ValueType.bits_scalar hlanes, hbits])
      (fun _ => hn.admits (by simp) ?_ ?_ fun h => absurd h htotal) hw) fun w' hw' => ?_
    · simp [Nat.le_of_lt hlight]
    · simp [hlight]
    refine meets_cutBits hn hbits hc ⟨hword, hn.small List.mem_cons_self (by decide)⟩ rfl hw'
      fun hs => ?_
    rw [hdata hs, hy hs, Datum.number, Datum.lanes, Nat.ofDigits_singleton]
  · next hcu =>
    split
    · next hlanes =>
      have hvector : u.isVector = true := by simp [ValueType.isVector, hlanes.1]
      obtain ⟨l, hl, hdata⟩ := hv.2.vector hvector
      exact meets_castLanes hn hbits hc hcu hlanes.1 hlanes.2 hl hdata
    · exact .obstacle _ htotal
  · next hcu =>
    obtain ⟨rfl, _⟩ := V.regular.paired hcu
    have hbits' : ValueType.ppcf128.bits = 128 := rfl
    obtain ⟨y, hy, hdata⟩ := hv.2.scalar rfl
    refine .bind (.floatParts hv.1 hy hcu) ?_
    rintro ⟨lo, hi⟩ ⟨y₀, y₁, hlo, hhi, hsum⟩
    have hpart : ValueType.f64.bits = (V.T.transform t).bits := by
      have : ValueType.f64.bits = 64 := rfl
      omega
    refine meets_castParts hn hbits hc hpart hlo hhi fun hs => ?_
    rw [hdata hs, Datum.number_scalar, Datum.number_scalar, Datum.number_scalar, hsum hs]
    rfl
  · next hcu =>
    have hhalved := V.regular.halved hcu
    obtain ⟨hvector, _, _, _⟩ := ValueType.half?_eq_some hhalved
    obtain ⟨l, hl, hdata⟩ := hv.2.vector hvector
    have hubits := (ValueType.bits_half hhalved).2
    refine .bind (.vectorHalves hv.1 hl hcu) ?_
    rintro ⟨lo, hi⟩ ⟨m, m', hlo, hhi, hm⟩
    refine meets_castParts hn hbits hc (by omega) hlo hhi fun hs => ?_
    rw [hdata hs, hm hs, Datum.number_append hhalved (Datum.fits_vector.1 (hlo.fits hs)).2.1]
  · exact .obstacle _ htotal

end

/-! ### Lanes -/

/-- The index of type `i` of the lane of `u` that is read leads to its halves: a constant stands for
itself, and there is room in the type for the indices of both halves. -/
structure Locates (V : RewriteSpec) (u i : ValueType) : Prop where
  constant : ∀ w n k, V.node.operands[1]? = some w →
    V.final.nodes[(V.base.replaced.canon w).node]? = some n → n.opcode = .constant →
    n.attr = .imm k → V.bitsOf 1 ≡ k [MOD 2 ^ i.bits]
  room : V.bitsOf 1 % 2 ^ 64 < u.lanes →
    2 * V.bitsOf 1 % 2 ^ i.bits % 2 ^ 64 = 2 * (V.bitsOf 1 % 2 ^ 64) ∧
      (2 * V.bitsOf 1 + 1) % 2 ^ i.bits % 2 ^ 64 = 2 * (V.bitsOf 1 % 2 ^ 64) + 1

/-- Where data are numbered, indices have at least a byte. -/
theorem locates_of_numbered {i : ValueType} (hn : V.Shows .extractElement [u, i] t)
    (hi : i.isVector = false) (hlanes : 2 * u.lanes ≤ 16) (hs : V.sem) (hnumbered : V.numbered) :
    Locates V u i := by
  obtain ⟨w, hw, hindex⟩ := V.operand_at (hn.operandType (i := 1) rfl)
  rw [V.data_scalar hs (hn.operandType rfl) hi] at hindex
  constructor
  · intro w' n k hw' hnode hop hattr
    cases hw.symm.trans hw'
    have hval := V.constants hs hnumbered _ n i k hnode hop hattr hindex.type hi
    rw [hindex.val hs] at hval
    rw [Datum.scalar.inj hval]
  · intro hk
    exact Word.double_index (hn.extract_index (V.strict_of_sem hs) hnumbered) (hindex.lt hs)
      (by omega)

/-- The indices of two adjacent lanes of half the width. -/
theorem meets_halfLaneIndices {v : Value} {i narrow : ValueType} {k : Nat} (htotal : ¬ V.total)
    (hconstant : V.sem → ∀ n c, V.final.nodes[v.node]? = some n → n.opcode = .constant →
      n.attr = .imm c → k ≡ c [MOD 2 ^ i.bits])
    (hi : V.Word 0 i) (h : V.Is v i (.scalar k))
    (hover : ∀ n c, V.final.nodes[v.node]? = some n → n.opcode = .constant → n.attr = .imm c →
      2 ^ 128 ≤ 2 * c → V.base.replaced.Overflows V.T V.final V.node)
    (hlane : u.laneBits = 2 * narrow.laneBits) (hnames : V.limit.moderate → V.T.Names V.final u i v) :
    V.Meets (halfLaneIndices v) fun p =>
      V.Is p.1 i (.scalar (2 * k % 2 ^ i.bits)) ∧ V.Is p.2 i (.scalar ((2 * k + 1) % 2 ^ i.bits)) ∧
      (V.limit.moderate → V.T.Names V.final narrow i p.1 ∧ V.T.Names V.final narrow i p.2) := by
  refine .typeOf_bind h (.bind (.constant? h hi.1.2) fun r hr => ?_)
  cases r with
  | some c =>
    obtain ⟨_, n, hn, hop, hattr⟩ := hr c rfl
    have hc (hs : V.sem) : 2 * k ≡ 2 * c [MOD 2 ^ i.bits] :=
      (hconstant hs n c hn hop hattr).mul_left 2
    -- the halves of a lane end where the lane ends
    have hdouble {w : Value} {b : Nat} (hw : V.final.nodes[w.node]? = some (literal i b))
        (hb : b ≤ 2 * c + 1) (hl : V.limit.moderate) : V.T.Names V.final narrow i w := by
      refine Target.names_of_attr hw rfl fun hi128 hillegal => ?_
      have hend := hnames hl n c hi128 hillegal hn hop hattr
      calc (b + 1) * narrow.laneBits ≤ (c + 1) * (2 * narrow.laneBits) := by
            rw [← Nat.mul_assoc]
            exact Nat.mul_le_mul_right _ (by omega)
        _ ≤ 2 ^ 128 := hlane ▸ hend
    dsimp only
    split
    · next hle =>
      exact .bind (P := fun _ => False) (.overflow (hover n c hn hop hattr hle) htotal)
        fun _ h => h.elim
    · refine .bind (Meets.withLiteral (.constant hi _) hi.1.2) fun lo hlo =>
        .bind (Meets.withLiteral (.constant hi _) hi.1.2) fun hi' hhi => .pure ⟨?_, ?_, fun hl => ?_⟩
      · exact hlo.1.congr fun hs => congrArg Datum.scalar (hc hs).symm
      · exact hhi.1.congr fun hs => congrArg Datum.scalar ((hc hs).add_right 1).symm
      · exact ⟨hdouble hlo.2 (Nat.le_succ_of_le (Nat.mod_le _ _)) hl,
          hdouble hhi.2 (Nat.mod_le _ _) hl⟩
  | none =>
    refine .bind (.constant hi 1) fun one hone => ?_
    rw [ValueType.width_mod i.bits_pos] at hone
    refine .bind (Meets.withInt (.int hi .shl h hone (by decide)) h hone) ?_
    rintro doubled ⟨hdoubled, n, hn, hop⟩
    refine .bind (Meets.withInt (.int hi .add hdoubled hone (by decide)) hdoubled hone) ?_
    rintro next ⟨hnext, m, hm, hop'⟩
    have heq : Word.value .shl i.bits k 1 = 2 * k % 2 ^ i.bits := by
      rw [Word.value, Nat.pow_one, Nat.mul_comm]
    rw [heq] at hdoubled hnext
    exact .pure ⟨hdoubled, hnext.congr fun _ => by rw [Word.value, Nat.mod_add_mod],
      fun _ => ⟨Target.names_of_opcode hn hop, Target.names_of_opcode hm hop'⟩⟩

/-- The halves of the lane that is read are adjacent lanes of half the width `w`. -/
theorem halves_of_lane {i : ValueType} {vector : Value} {w : Nat}
    (hn : V.Shows .extractElement [u, i] t) (hlocates : Locates V u i)
    (hu : u.isVector = true) (hi : i.IsWord) (hlane : u.laneBits = 2 * w)
    (hv : V.Is vector u (.vector (V.lanesOf 0))) (hs : V.sem) : ∃ y, V.datum = .scalar y ∧
      (Word.limbs w (2 * u.lanes) (Datum.number u (.vector (V.lanesOf 0))))[
        2 * V.bitsOf 1 % 2 ^ i.bits % 2 ^ 64]? = some (y % 2 ^ w) ∧
      (Word.limbs w (2 * u.lanes) (Datum.number u (.vector (V.lanesOf 0))))[
        (2 * V.bitsOf 1 + 1) % 2 ^ i.bits % 2 ^ 64]? = some (y / 2 ^ w % 2 ^ w) := by
  obtain ⟨y, hy, hd⟩ := hn.datum_extract hs hu hi
  obtain ⟨_, hlen, hlt⟩ := Datum.fits_vector.1 (hv.fits hs)
  have hk : V.bitsOf 1 % 2 ^ 64 < u.lanes := hlen ▸ (List.getElem?_eq_some_iff.1 hy).1
  obtain ⟨h₀, h₁⟩ := hlocates.room hk
  obtain ⟨x, hx, hx₀, hx₁⟩ := Word.getElem?_limbs_double (w := w)
    (a := Datum.number u (.vector (V.lanesOf 0))) hk
  rw [← hlane, Datum.number, Datum.lanes, ← hlen, Word.limbs_ofDigits hlt, hy] at hx
  cases hx
  exact ⟨y, hd, h₀ ▸ hx₀, h₁ ▸ hx₁⟩

theorem meets_ofExtract {i : ValueType} (hn : V.Shows .extractElement [u, i] t)
    (hlocates : V.sem → 2 * u.lanes ≤ 16 → Locates V u i) (hu : u.isVector = true)
    (hreads : V.T.Reads V.limit u t) (hi : i.IsWord)
    (hc : V.T.classify t = .expandInteger) : V.Meets (ofExtract V.T V.id 0) (V.Paired t) := by
  obtain ⟨hword, hhalf, htbits, _, hlight⟩ := expanded hc
  have hillegal : V.T.classify t ≠ .legal := by rw [hc]; simp
  have htotal := hn.not_total rfl
  have ht : t = u.scalar := hreads.scalar_of_expanded hc
  have hlane : u.laneBits = 2 * (V.T.transform t).bits := by
    rw [← u.laneBits_scalar, ← ht, ← htbits, ValueType.bits_eq_laneBits hword.2]
  refine .bind (.transformed hn) ?_
  rintro _ rfl
  refine .bind (.operandLanes (hn.operandType rfl) hu) fun vector hv => ?_
  refine .bind (.operandWord (hn.operandType rfl) hi.2) fun index hindex => ?_
  refine .typeOf_bind hv.2 ?_
  split
  · next narrow hnarrow =>
    have hpos : 0 < u.lanes := by
      rw [← ValueType.laneCount_eq_lanes hu]
      exact u.laneCount_pos
    obtain ⟨hnvector, hnscalar, hnlanes⟩ := ValueType.vector?_eq_some hnarrow (by omega)
    have hnbits : narrow.laneBits = (V.T.transform t).bits := by
      rw [← narrow.laneBits_scalar, hnscalar, hhalf.laneBits_eq]
    have hlanesLe : narrow.lanes ≤ 16 := by cases narrow <;> decide
    have hbits : u.bits = narrow.bits := by
      rw [ValueType.bits_eq_mul, ValueType.bits_eq_mul, ValueType.laneCount_eq_lanes hnvector,
        ValueType.laneCount_eq_lanes hu, hlane, hnbits, hnlanes, Nat.mul_left_comm, Nat.mul_assoc]
    have hweight (hm : V.measured) : V.T.classify u ≠ .legal ∧ V.T.weight narrow ≤ V.T.weight u := by
      have huillegal := illegal_of_lane hm (hn.mem_operand (by simp)) (ht ▸ hillegal)
      refine ⟨huillegal, Target.weight_relaned hnvector ?_ hu huillegal hbits.symm⟩
      rw [← narrow.isFloat_scalar, hnscalar]
      exact Target.isFloat_of_isWord hhalf
    have hcast : V.Admits .bitcast [narrow, u] := by
      refine .of_small (by simp) ?_ fun h => absurd h htotal
      simpa using ⟨hn.small_of_weight_le (s := 3) (u := u) (by simp) (by decide) hweight,
        hn.small (s := 3) (by simp) (by decide)⟩
    have hextract : V.Admits .extractElement [narrow.scalar, narrow, i] := by
      refine ⟨fun hm => ?_, fun h => absurd h htotal⟩
      have hle := (hweight hm).2
      rw [hnscalar]
      exact (hn.admits (by simp) (by simp [Nat.le_of_lt hlight, hle]) (by simp; omega)
        fun h => absurd h htotal).lighter hm
    refine .bind (.castBits hbits hcast hv.2) fun lanes hlanes => ?_
    rw [Datum.ofNumber, if_pos hnvector, hnbits, hnlanes] at hlanes
    have hlocates (hs : V.sem) : Locates V u i := hlocates hs (hnlanes ▸ hlanesLe)
    obtain ⟨v, w, hops, _, rfl⟩ := hn.index_operand hu hi.2 hindex.1 hindex.2
    refine .bind (meets_halfLaneIndices htotal
      (fun hs n c => (hlocates hs).constant w n c (by rw [hops]; rfl))
      ⟨hi, hn.small (by simp) (by decide)⟩ hindex.2 (fun m c hm hop hattr hle => ?_)
      (hnbits ▸ hlane) (hn.names hu hi.2 hindex.1 hindex.2)) ?_
    · exact ⟨t, hn.results, .inr ⟨hn.opcode, hc, w, m, c, by rw [hops]; rfl, hm, hop, hattr, hle⟩⟩
    rintro ⟨loIndex, hiIndex⟩ ⟨hlo, hhi, hnames⟩
    have hget (hs : V.sem) := halves_of_lane hn (hlocates hs) hu hi hlane hv.2 hs
    refine .bind (.extract (x := (V.datum.number t) % 2 ^ (V.T.transform t).bits) hnvector hi
      hn.extract_index (fun hl => (hnames hl).1) hextract hlanes hlo fun hs => ?_) fun lo' hlo' =>
        .bind (.extract (x := (V.datum.number t) / 2 ^ (V.T.transform t).bits %
          2 ^ (V.T.transform t).bits) hnvector hi hn.extract_index (fun hl => (hnames hl).2) hextract
          hlanes hhi fun hs => ?_)
          fun hi' hhi' => .pure ?_
    · obtain ⟨y, hd, h₀, _⟩ := hget hs
      rw [h₀, hd, Datum.number_scalar]
    · obtain ⟨y, hd, _, h₁⟩ := hget hs
      rw [h₁, hd, Datum.number_scalar]
    rw [hnscalar] at hlo' hhi'
    refine paired hc hlo' hhi' fun hs => ?_
    obtain ⟨y, hd, _, _⟩ := hget hs
    have hlt : y < 2 ^ (2 * (V.T.transform t).bits) := by
      obtain ⟨x, hx, hx'⟩ := hn.datum_extract hs hu hi
      cases hd.symm.trans hx'
      exact hlane ▸ (Datum.fits_vector.1 (hv.2.fits hs)).2.2 y (List.mem_of_getElem? hx)
    rw [hd, Datum.number_scalar, ← Word.mod_double, Nat.mod_eq_of_lt hlt]
    exact hn.accepts_self (.inr rfl) hd
  · exact .obstacle _ htotal

/-! ### Operands -/

theorem meets_inTruncate (hn : V.Shows .truncate [u] t) (ht : t.IsWord) (htu : t.bits < u.bits)
    (hlegal : V.T.classify t = .legal) (hc : V.T.classify u = .expandInteger) :
    V.Meets (inTruncate V.id) (V.Stands t) := by
  obtain ⟨hword, hhalf, hbits, _, _⟩ := expanded hc
  have hle := ht.bits_le_of_lt_double hhalf (hbits ▸ htu)
  refine .bind (.resultType hn.results) ?_
  rintro _ rfl
  refine meets_operandHalf (hn.operandType rfl) hc ?_
  rintro ⟨lo, hi⟩ a b ha _ hx
  refine (Meets.resize (n := t.bits) (x := a % 2 ^ t.bits) .any
    ((Word.half (hn.mem_operand (by simp)) hc).mono (by decide)) (.legal ht hlegal) t.bits_pos hle
    (Nat.le_refl _) ha fun _ => ⟨Nat.mod_lt _ (Nat.two_pow_pos _), rfl⟩).mono ?_
  rintro w ⟨z, hw, hz⟩
  refine hw.stands fun hs => ?_
  have hz : z % 2 ^ t.bits = a % 2 ^ t.bits := hz hs
  rw [Nat.mod_eq_of_lt (hw.lt hs)] at hz
  have hdvd : 2 ^ t.bits ∣ 2 ^ (V.T.transform u).bits * b :=
    Nat.dvd_mul_right_of_dvd (Nat.pow_dvd_pow 2 hle) b
  rw [hn.accepts_iff (by simp), hn.datum_cut hs (.inl rfl) hword ht, hx hs, hz, Nat.add_mod,
    Nat.mod_eq_zero_of_dvd hdvd, Nat.add_zero, Nat.mod_mod]

theorem meets_inSetcc (hn : V.Shows .setcc [u, u] t) (ht : t.IsWord)
    (hlegal : V.T.classify t = .legal) (hc : V.T.classify u = .expandInteger) :
    V.Meets (inSetcc V.T V.id) (V.Stands t) := by
  obtain ⟨hword, _, hbits, _, _⟩ := expanded hc
  have hle := hword.bits_le
  refine (WordLogic.meets_inSetcc (L := V.words) (Word.half (hn.mem_operand (by simp)) hc)
    (by omega) (V.regular.compareType _) ⟨ht, hlegal⟩ (.resultType hn.results) (.predicate hn)
    (holds_operands (hn.operandType rfl) (hn.operandType rfl) hc)).mono ?_
  rintro w ⟨p, hattr, hw⟩
  refine hw.stands fun hs => ?_
  rw [hn.accepts_iff (by simp), hn.datum_setcc hs hword ht hattr, hbits]

theorem meets_inSelect (hn : V.Shows .select [u, t, t] t)
    (hc : V.T.classify u = .expandInteger) : V.Meets (inSelect V.T V.id 0) (V.Stands t) := by
  obtain ⟨hword, _, _, _, _⟩ := expanded hc
  have hhalf := Word.half (hn.mem_operand (u := u) (by simp)) hc
  obtain ⟨hflag, hflegal⟩ := V.regular.compareType (V.T.transform u)
  have hpos := Target.weight_pos (T := V.T) (t := u) (by rw [hc]; simp)
  refine meets_operandHalf (hn.operandType rfl) hc ?_
  rintro ⟨lo, hi⟩ a b ha hb hx
  refine .typeOf_bind ha ?_
  refine .bind (.int hhalf .or ha hb (by decide)) fun any hany => ?_
  refine .bind (.constant hhalf 0) fun zero hzero => ?_
  rw [Nat.zero_mod] at hzero
  refine .bind (.setcc hflag hflegal hhalf .ne hany hzero) fun cond hcond => ?_
  refine .bind (.operand (hn.operandType rfl)) fun v hv => ?_
  refine .bind (.operand (hn.operandType rfl)) fun w hw => ?_
  refine (Meets.selectOf hflag (hn.admits (by simp) ?_ ?_ fun htotal => ?_) hcond hv.2 hw.2).mono
    fun w' hw' => hw'.stands fun hs => ?_
  · simp [Target.weight_of_legal hflegal]
  · simp [Target.weight_of_legal hflegal, hpos]
  · have ht := (hn.plain htotal).words t List.mem_cons_self
    exact ⟨rfl, by simp [hflag, ht], by simp, by simp⟩
  · have hzero : V.bitsOf 0 ≠ 0 ↔
        (Condition.test .ne (V.T.transform u).bits
          (Word.value .or (V.T.transform u).bits a b) 0).toNat ≠ 0 := by
      have hpow := Nat.two_pow_pos (V.T.transform u).bits
      rw [hx hs, Condition.test, Word.value]
      simp [Nat.or_eq_zero_iff, Nat.add_eq_zero_iff]
    rw [hn.accepts_iff (by simp), hn.datum_select hs hword]
    simp only [hzero]

/-- Halves of an expanded integer may be paired. -/
theorem admits_pair {op : Opcode} {ts : List ValueType} (hn : V.Shows op ts t)
    (hlegal : V.T.classify t = .legal) (hu : u ∈ t :: ts) (hc : V.T.classify u = .expandInteger)
    (htotal : ¬ V.total) : V.Admits .buildPair [t, V.T.transform u, V.T.transform u] := by
  obtain ⟨_, _, _, _, hlight⟩ := expanded hc
  have hjoint : V.T.jointWeight .buildPair [t, V.T.transform u, V.T.transform u] = 0 :=
    if_neg (V.regular.half_ne_promoted hc)
  refine .of_height_lt (fun hm => (Target.height_lt_iff (V.ceiling_pos hm)).2 ⟨?_, ?_⟩)
    fun h => absurd h htotal
  · rw [hjoint, charge_zero]
    exact V.ceiling_pos hm
  · have hhalf : V.Small 4 (V.T.transform u) :=
      .lighter (hn.append_eq ▸ hu) hlight (by decide)
    simpa [Opcode.stage] using ⟨Small.legal hlegal hm, hhalf hm⟩

theorem meets_inBitcast (hn : V.Shows .bitcast [u] t) (hbits : u.bits = t.bits)
    (hlegal : V.T.classify t = .legal) (hc : V.T.classify u = .expandInteger) :
    V.Meets (inBitcast V.id) (V.Stands t) := by
  obtain ⟨hword, hhalf, hubits, _, _⟩ := expanded hc
  have htotal := hn.not_total rfl
  refine .bind (.resultType hn.results) ?_
  rintro _ rfl
  refine meets_operandHalf (hn.operandType rfl) hc ?_
  rintro ⟨lo, hi⟩ a b ha hb hx
  refine .typeOf_bind ha ?_
  have hdatum (hs : V.sem) : V.datum = .ofNumber t (a + 2 ^ (V.T.transform u).bits * b) := by
    rw [hn.datum_bitcast hs hbits, V.data_scalar hs (hn.operandType rfl) hword.2,
      Datum.number_scalar, hx hs]
  split
  · have htbits : t.bits = 2 * (V.T.transform u).bits := by omega
    refine (Meets.buildPair (.inl (.buildPair hhalf htbits)) htbits
      (admits_pair hn hlegal (by simp) hc htotal) ha hb).mono fun w hw => hw.stands fun hs => ?_
    rw [hn.accepts_iff (by simp), hdatum hs, Datum.number_scalar, Datum.number_scalar]
  split
  · next hlanes =>
    have hvector : t.isVector = true := by simp [ValueType.isVector, hlanes.1]
    have hsmall (s : Nat) : V.Small s t.scalar := fun hm => Small.legal (V.laned hm t hn.mem hlegal) hm
    have hscalar : (V.T.transform u).bits = t.scalar.bits := by
      rw [ValueType.bits_eq_laneBits t.isVector_scalar, t.laneBits_scalar, hlanes.2]
    have hcast : V.Admits .bitcast [t.scalar, V.T.transform u] := by
      refine .of_small (by simp) ?_ fun h => absurd h htotal
      simpa using ⟨hsmall _, (Word.half (hn.mem_operand (u := u) (by simp)) hc).2.mono
        (Opcode.stage_le _)⟩
    refine .bind (.bitcastScalar t.isVector_scalar hscalar (fun _ => hcast) ha) fun lo' hlo' => ?_
    refine .bind (.bitcastScalar t.isVector_scalar hscalar (fun _ => hcast) hb) fun hi' hhi' => ?_
    refine (Meets.buildElements hvector (.cons hlo' (.cons hhi' .nil)) hlanes.1.symm htotal
      ⟨.legal hlegal, hsmall 0⟩).mono fun w hw => hw.stands fun hs => ?_
    have hfits : (Datum.vector [a, b]).Fits t :=
      Datum.fits_vector.2 ⟨hvector, hlanes.1.symm, by
        simpa [hlanes.2] using ⟨ha.lt hs, hb.lt hs⟩⟩
    rw [hn.accepts_iff (by simp), hdatum hs, ← hlanes.2, ← Datum.number_pair,
      hfits.ofNumber_number]
  · exact .obstacle _ htotal

end Legal.Halve

end Dataflow
