import Dataflow.Legal.Halve.Shift
import Dataflow.Proofs.Halves
import Dataflow.Proofs.WordLogic

/-!
# Arithmetic of two halves

The halves of sums, products and shifts, in any logic. A shift by a constant picks its case at
once. An amount that is known at run time is below the half width, between it and the whole width,
or above that; each case gives both halves, and flags select among them.
-/

namespace Dataflow.Legal.WordLogic

open Halve

variable {L : WordLogic} {T : Target} {id : NodeId} {half : ValueType} {op : IntOp}
  {lo hi zero amount : Value} {a b c d k x y : Nat}

/-- Two values that are the halves of a number. -/
def IsPair (L : WordLogic) (half : ValueType) (p : Value × Value) (z : Nat) : Prop :=
  ∃ x y, L.Is p.1 half x ∧ L.Is p.2 half y ∧ (L.sem → z = x + 2 ^ half.bits * y)

/-- The halves of the first two operands of a node. -/
def Operands (L : WordLogic) (half : ValueType) (id : NodeId) (x y : Nat) : Prop :=
  L.Meets (operandHalves id) fun p => L.IsPair half p.1 x ∧ L.IsPair half p.2 y

/-! ### Sums -/

theorem meets_less {u v : Value} (ht : L.Works 1 half) (hflag : L.Flag (T.compareType half))
    (hu : L.Is u half x) (hv : L.Is v half y) : L.Meets (less T u v) fun w =>
      L.Is w half (Condition.test .ult half.bits x y).toNat :=
  .typeOf_bind hu (.bind (L.setcc hflag ht .ult hu hv) fun _ h =>
    resizeFlag (L.works_flag hflag) ht _ h)

section
variable (hhalf : L.Works 5 half)
include hhalf

theorem meets_ofAdd (hflag : L.Flag (T.compareType half)) (hxy : L.Operands half id x y) :
    L.Meets (ofAdd T id) fun p => L.IsPair half p (Word.value .add (2 * half.bits) x y) := by
  refine .bind hxy ?_
  rintro ⟨⟨aLo, aHi⟩, bLo, bHi⟩ ⟨⟨a, b, ha, hb, hx⟩, c, d, hc, hd, hy⟩
  refine .bind (int hhalf .add ha hc (by decide)) fun lo hlo => ?_
  refine .bind (meets_less (L.works_mono hhalf (by decide)) hflag hlo ha) fun carry hcarry => ?_
  refine .bind (int hhalf .add hb hd (by decide)) fun hi hhi => ?_
  refine .bind (int hhalf .add hhi hcarry (by decide)) fun hi' hhi' =>
    .pure ⟨_, _, hlo, hhi', fun hs => ?_⟩
  rw [hx hs, hy hs, Word.add_halves (L.lt ha hs) (L.lt hc hs)]

theorem meets_ofSub (hflag : L.Flag (T.compareType half)) (hxy : L.Operands half id x y) :
    L.Meets (ofSub T id) fun p => L.IsPair half p (Word.value .sub (2 * half.bits) x y) := by
  refine .bind hxy ?_
  rintro ⟨⟨aLo, aHi⟩, bLo, bHi⟩ ⟨⟨a, b, ha, hb, hx⟩, c, d, hc, hd, hy⟩
  refine .bind (int hhalf .sub ha hc (by decide)) fun lo hlo => ?_
  refine .bind (meets_less (L.works_mono hhalf (by decide)) hflag ha hc) fun borrow hborrow => ?_
  refine .bind (int hhalf .sub hb hd (by decide)) fun hi hhi => ?_
  refine .bind (int hhalf .sub hhi hborrow (by decide)) fun hi' hhi' =>
    .pure ⟨_, _, hlo, hhi', fun hs => ?_⟩
  rw [hx hs, hy hs, Word.sub_halves (L.lt ha hs) (L.lt hc hs) (L.lt hd hs)]

/-! ### Products -/

theorem meets_mulHigh {u v : Value} (hproduct : L.Product half) (hu : L.Is u half x)
    (hv : L.Is v half y) : L.Meets (Edit.int .mulhu u v) fun w =>
      L.Is w half (Word.value .mulhu half.bits x y) :=
  L.intOf hhalf (by decide) (fun _ => hproduct) hu hv

theorem meets_ofMul (hproduct : L.Product half) (hxy : L.Operands half id x y) :
    L.Meets (ofMul id) fun p => L.IsPair half p (Word.value .mul (2 * half.bits) x y) := by
  refine .bind hxy ?_
  rintro ⟨⟨aLo, aHi⟩, bLo, bHi⟩ ⟨⟨a, b, ha, hb, hx⟩, c, d, hc, hd, hy⟩
  refine .bind (int hhalf .mul ha hc (by decide)) fun lo hlo => ?_
  refine .bind (meets_mulHigh hhalf hproduct ha hc) fun carry hcarry => ?_
  refine .bind (int hhalf .mul ha hd (by decide)) fun crossLo hcrossLo => ?_
  refine .bind (int hhalf .mul hb hc (by decide)) fun crossHi hcrossHi => ?_
  refine .bind (int hhalf .add hcarry hcrossLo (by decide)) fun hi hhi => ?_
  refine .bind (int hhalf .add hhi hcrossHi (by decide)) fun hi' hhi' =>
    .pure ⟨_, _, hlo, hhi', fun hs => ?_⟩
  rw [hx hs, hy hs, Word.mulLow_halves]

omit hhalf in
theorem meets_sumAndCarry {u v : Value} (ht : L.Works 1 half) (hflag : L.Flag (T.compareType half))
    (hu : L.Is u half x) (hv : L.Is v half y) : L.Meets (sumAndCarry T u v) fun p =>
      ∃ s k, L.Is p.1 half s ∧ L.Is p.2 half k ∧ k ≤ 1 ∧
        (L.sem → x + y = s + 2 ^ half.bits * k) := by
  refine .bind (int ht .add hu hv (by decide)) fun sum hsum => ?_
  refine .bind (meets_less ht hflag hsum hu) fun carry hcarry => ?_
  exact .pure ⟨_, _, hsum, hcarry, Bool.toNat_le _, fun hs => Word.add_carry (L.lt hu hs) (L.lt hv hs)⟩

/-- A sum that does not wrap. -/
theorem meets_sum {u v : Value} (hu : L.Is u half x) (hv : L.Is v half y)
    (h : L.sem → x + y < 2 ^ half.bits) :
    L.Meets (Edit.int .add u v) fun w => L.Is w half (x + y) :=
  (int hhalf .add hu hv (by decide)).mono fun _ hw =>
    L.congr hw fun hs => by rw [Word.value, Nat.mod_eq_of_lt (h hs)]

theorem meets_ofMulHigh (hflag : L.Flag (T.compareType half)) (hproduct : L.Product half)
    (hle : 8 ≤ half.bits) (hxy : L.Operands half id x y) :
    L.Meets (ofMulHigh T id) fun p =>
      L.IsPair half p (Word.value .mulhu (2 * half.bits) x y) := by
  have hhalf₁ := L.works_mono hhalf (show 1 ≤ _ by decide)
  have hpow : 2 ^ 8 ≤ 2 ^ half.bits := Nat.pow_le_pow_right (by decide) hle
  refine .bind hxy ?_
  rintro ⟨⟨aLo, aHi⟩, bLo, bHi⟩ ⟨⟨a, b, ha, hb, hx⟩, c, d, hc, hd, hy⟩
  -- the limbs of the four products
  refine .bind (meets_mulHigh hhalf hproduct ha hc) fun llHi hllHi => ?_
  refine .bind (int hhalf .mul ha hd (by decide)) fun lhLo hlhLo => ?_
  refine .bind (meets_mulHigh hhalf hproduct ha hd) fun lhHi hlhHi => ?_
  refine .bind (int hhalf .mul hb hc (by decide)) fun hlLo hhlLo => ?_
  refine .bind (meets_mulHigh hhalf hproduct hb hc) fun hlHi hhlHi => ?_
  refine .bind (int hhalf .mul hb hd (by decide)) fun hhLo hhhLo => ?_
  refine .bind (meets_mulHigh hhalf hproduct hb hd) fun hhHi hhhHi => ?_
  -- the second column
  refine .bind (meets_sumAndCarry hhalf₁ hflag hllHi hlhLo) ?_
  rintro ⟨_, c0⟩ ⟨s₀, k₀, hs₀, hk₀, hle₀, h₀⟩
  refine .bind (meets_sumAndCarry hhalf₁ hflag hs₀ hhlLo) ?_
  rintro ⟨_, c1⟩ ⟨s₁, k₁, hs₁, hk₁, hle₁, h₁⟩
  refine .bind (meets_sum hhalf hk₀ hk₁ fun _ => by omega) fun carryIn hcarryIn => ?_
  -- the third column
  refine .bind (meets_sumAndCarry hhalf₁ hflag hlhHi hhlHi) ?_
  rintro ⟨_, c2⟩ ⟨s₂, k₂, hs₂, hk₂, hle₂, h₂⟩
  refine .bind (meets_sumAndCarry hhalf₁ hflag hs₂ hhhLo) ?_
  rintro ⟨_, c3⟩ ⟨s₃, k₃, hs₃, hk₃, hle₃, h₃⟩
  refine .bind (meets_sumAndCarry hhalf₁ hflag hs₃ hcarryIn) ?_
  rintro ⟨_, c4⟩ ⟨s₄, k₄, hs₄, hk₄, hle₄, h₄⟩
  -- the carries of the third column, into the fourth
  refine .bind (meets_sum hhalf hk₂ hk₃ fun _ => by omega) fun carryOut hcarryOut => ?_
  refine .bind (meets_sum hhalf hcarryOut hk₄ fun _ => by omega) fun carryOut' hcarryOut' => ?_
  have hvalue (hs : L.sem) := Word.mulHigh_halves s₄ k₃ k₄ (L.lt ha hs) (L.lt hb hs) (L.lt hc hs)
    (L.lt hd hs) (L.lt hs₁ hs) (h₀ hs) (h₁ hs) (h₂ hs) (by
      have h₃ := h₃ hs
      have h₄ := h₄ hs
      simp only [Word.value, Nat.mul_add] at h₃ h₄ ⊢
      omega)
  refine .bind (meets_sum hhalf hhhHi hcarryOut' fun hs => (hvalue hs).2) fun hi hhi =>
    .pure ⟨_, _, hs₄, hhi, fun hs => ?_⟩
  rw [hx hs, hy hs, (hvalue hs).1]
  rfl

end

/-! ### Constant amounts -/

section
variable (hhalf : L.Works 0 half) (ha : L.Is lo half a) (hb : L.Is hi half b)
include hhalf ha hb

theorem meets_lowOfRightShift (hk : k ≤ half.bits) : L.Meets (lowOfRightShift lo hi k) fun w =>
    L.Is w half (Word.value .or half.bits (Word.value .srl half.bits a k)
      (Word.value .shl half.bits b (half.bits - k))) := by
  refine .typeOf_bind ha ?_
  refine .bind (L.constant hhalf k) fun shift hshift => ?_
  refine .bind (L.constant hhalf _) fun back hback => ?_
  rw [ValueType.width_mod hk] at hshift
  rw [ValueType.width_mod (Nat.sub_le ..)] at hback
  refine .bind (int hhalf .srl ha hshift (by decide)) fun low hlow => ?_
  exact .bind (int hhalf .shl hb hback (by decide)) fun carried hcarried =>
    int hhalf .or hlow hcarried (by decide)

theorem meets_arithmeticByConstant (k : Nat) :
    L.Meets (arithmeticByConstant lo hi half k) fun p =>
      L.IsPair half p (Word.value .sra (2 * half.bits) (a + 2 ^ half.bits * b) k) := by
  have hpos := half.bits_pos
  refine .bind (L.constant hhalf _) fun signAmount hsignAmount => ?_
  rw [ValueType.width_mod (Nat.sub_le ..)] at hsignAmount
  refine .bind (int hhalf .sra hb hsignAmount (by decide)) fun sign hsign => ?_
  split
  · next hout =>
    refine .pure ⟨_, _, hsign, hsign, fun hs => ?_⟩
    rw [Word.sra_halves_past hpos (L.lt ha hs) (L.lt hb hs) (by omega),
      Word.sra_fill hpos (L.lt hb hs) (k := k - half.bits) (by omega),
      Word.sra_fill hpos (L.lt hb hs) (Nat.le_refl _)]
  split
  · next hpast =>
    refine .bind (L.constant hhalf _) fun shift hshift => ?_
    rw [ValueType.width_mod (by omega)] at hshift
    refine .bind (int hhalf .sra hb hshift (by decide)) fun low hlow =>
      .pure ⟨_, _, hlow, hsign, fun hs => ?_⟩
    rw [Word.sra_halves_past hpos (L.lt ha hs) (L.lt hb hs) (Nat.le_of_lt hpast)]
  split
  · next hwhole =>
    refine .pure ⟨_, _, hb, hsign, fun hs => ?_⟩
    rw [Word.sra_halves_past hpos (L.lt ha hs) (L.lt hb hs) (Nat.le_of_eq hwhole.symm), hwhole,
      Nat.sub_self, Word.sra_eq_add (L.lt hb hs) (Nat.zero_le _)]
    simp [Word.value]
  · refine .bind (meets_lowOfRightShift hhalf ha hb (k := k) (by omega)) fun low hlow => ?_
    refine .bind (L.constant hhalf _) fun shift hshift => ?_
    rw [ValueType.width_mod (by omega)] at hshift
    refine .bind (int hhalf .sra hb hshift (by decide)) fun high hhigh =>
      .pure ⟨_, _, hlow, hhigh, fun hs => ?_⟩
    rw [Word.sra_halves hpos (L.lt ha hs) (L.lt hb hs) (by omega)]

theorem meets_leftByConstant (hzero : L.Is zero half 0) (hk : k < 2 * half.bits) :
    L.Meets (leftByConstant lo hi zero half k) fun p =>
      L.IsPair half p (Word.value .shl (2 * half.bits) (a + 2 ^ half.bits * b) k) := by
  unfold leftByConstant
  split
  · next hpast =>
    refine .bind (L.constant hhalf _) fun shift hshift => ?_
    rw [ValueType.width_mod (by omega)] at hshift
    refine .bind (int hhalf .shl ha hshift (by decide)) fun high hhigh =>
      .pure ⟨_, _, hzero, hhigh, fun hs => ?_⟩
    rw [Word.shl_halves_past (L.lt ha hs) (Nat.le_of_lt hpast)]
  split
  · next hwhole =>
    refine .pure ⟨_, _, hzero, ha, fun hs => ?_⟩
    rw [Word.shl_halves_past (L.lt ha hs) (Nat.le_of_eq hwhole.symm), hwhole, Nat.sub_self]
    simp only [Word.value, Nat.pow_zero, Nat.mul_one, Nat.mod_eq_of_lt (L.lt ha hs)]
  · refine .bind (L.constant hhalf _) fun shift hshift => ?_
    refine .bind (L.constant hhalf _) fun back hback => ?_
    rw [ValueType.width_mod (by omega)] at hshift
    rw [ValueType.width_mod (Nat.sub_le ..)] at hback
    refine .bind (int hhalf .shl ha hshift (by decide)) fun low hlow => ?_
    refine .bind (int hhalf .srl ha hback (by decide)) fun carried hcarried => ?_
    refine .bind (int hhalf .shl hb hshift (by decide)) fun high hhigh => ?_
    refine .bind (int hhalf .or hhigh hcarried (by decide)) fun high' hhigh' =>
      .pure ⟨_, _, hlow, hhigh', fun hs => ?_⟩
    rw [Word.shl_halves (L.lt ha hs) (by omega)]

theorem meets_rightByConstant (hzero : L.Is zero half 0) (hk : k < 2 * half.bits) :
    L.Meets (rightByConstant lo hi zero half k) fun p =>
      L.IsPair half p (Word.value .srl (2 * half.bits) (a + 2 ^ half.bits * b) k) := by
  unfold rightByConstant
  split
  · next hpast =>
    refine .bind (L.constant hhalf _) fun shift hshift => ?_
    rw [ValueType.width_mod (by omega)] at hshift
    refine .bind (int hhalf .srl hb hshift (by decide)) fun low hlow =>
      .pure ⟨_, _, hlow, hzero, fun hs => ?_⟩
    rw [Word.srl_halves_past (L.lt ha hs) (Nat.le_of_lt hpast)]
  split
  · next hwhole =>
    refine .pure ⟨_, _, hb, hzero, fun hs => ?_⟩
    rw [Word.srl_halves_past (L.lt ha hs) (Nat.le_of_eq hwhole.symm), hwhole, Nat.sub_self]
    simp only [Word.value, Nat.pow_zero, Nat.div_one]
  · refine .bind (meets_lowOfRightShift hhalf ha hb (k := k) (by omega)) fun low hlow => ?_
    refine .bind (L.constant hhalf _) fun shift hshift => ?_
    rw [ValueType.width_mod (by omega)] at hshift
    refine .bind (int hhalf .srl hb hshift (by decide)) fun high hhigh =>
      .pure ⟨_, _, hlow, hhigh, fun hs => ?_⟩
    rw [Word.srl_halves (L.lt ha hs) (by omega)]

theorem meets_constantShift (hop : op = .shl ∨ op = .srl ∨ op = .sra) (k : Nat) :
    L.Meets (constantShift (.int op) lo hi k) fun p =>
      L.IsPair half p (Word.value op (2 * half.bits) (a + 2 ^ half.bits * b) k) := by
  refine .typeOf_bind ha (.bind (L.constant hhalf 0) fun zero hzero => ?_)
  rw [Nat.zero_mod] at hzero
  split
  · next hk =>
    refine .pure ⟨_, _, ha, hb, fun hs => ?_⟩
    have hlt := Word.halves_lt (L.lt ha hs) (L.lt hb hs)
    rw [hk]
    rcases hop with rfl | rfl | rfl
    · simp only [Word.value, Nat.pow_zero, Nat.mul_one, Nat.mod_eq_of_lt hlt]
    · simp only [Word.value, Nat.pow_zero, Nat.div_one]
    · rw [Word.sra_eq_add hlt (Nat.zero_le _)]
      simp [Word.value]
  split
  · next hsra =>
    cases hsra
    exact meets_arithmeticByConstant hhalf ha hb k
  next hsra =>
  have hop : op = .shl ∨ op = .srl := by
    rcases hop with h | h | h
    · exact .inl h
    · exact .inr h
    · exact absurd (congrArg Opcode.int h) hsra
  split
  · next hout =>
    refine .pure ⟨_, _, hzero, hzero, fun hs => ?_⟩
    rcases hop with rfl | rfl
    · rw [Word.shl_out hout, Nat.mul_zero]
    · rw [Word.srl_out (Word.halves_lt (L.lt ha hs) (L.lt hb hs)) hout, Nat.mul_zero]
  split
  · next hshl =>
    cases hshl
    exact meets_leftByConstant hhalf ha hb hzero (by omega)
  · next hshl =>
    rcases hop with rfl | rfl
    · exact absurd rfl hshl
    · exact meets_rightByConstant hhalf ha hb hzero (by omega)

end

/-! ### Amounts known at run time -/

/-- The halves of the results of a shift of `x` by the amount `c`, for amounts in each range. -/
structure Covers (L : WordLogic) (half : ValueType) (op : IntOp) (x c : Nat)
    (s : ShiftCases) : Prop where
  small : ∃ y z, L.Is s.small.1 half y ∧ L.Is s.small.2 half z ∧
    (L.sem → c < half.bits → Word.value op (2 * half.bits) x c = y + 2 ^ half.bits * z)
  big : ∃ y z, L.Is s.big.1 half y ∧ L.Is s.big.2 half z ∧
    (L.sem → half.bits ≤ c → Word.value op (2 * half.bits) x c = y + 2 ^ half.bits * z)
  out : ∃ y z, L.Is s.out.1 half y ∧ L.Is s.out.2 half z ∧
    (L.sem → ∀ k, 2 * half.bits ≤ k →
      Word.value op (2 * half.bits) x k = y + 2 ^ half.bits * z)

section
variable {inverse past : Value} (hhalf : L.Works 0 half) (ha : L.Is lo half a)
  (hb : L.Is hi half b) (hzero : L.Is zero half 0)
  (hc : L.Is amount half c)
  (hinverse : L.Is inverse half (Word.value .sub half.bits half.bits c))
  (hpast : L.Is past half (Word.value .sub half.bits c half.bits))
include hhalf ha hb hzero hc hinverse hpast

theorem meets_leftCases : L.Meets (leftCases lo hi zero amount inverse past)
    (Covers L half .shl (a + 2 ^ half.bits * b) c) := by
  refine .bind (int hhalf .shl ha hc (by decide)) fun smallLo hsmallLo => ?_
  refine .bind (int hhalf .shl hb hc (by decide)) fun shifted hshifted => ?_
  refine .bind (int hhalf .srl ha hinverse (by decide)) fun carried hcarried => ?_
  refine .bind (int hhalf .or hshifted hcarried (by decide)) fun smallHi hsmallHi => ?_
  refine .bind (int hhalf .shl ha hpast (by decide)) fun bigHi hbigHi => .pure ⟨?_, ?_, ?_⟩
  · refine ⟨_, _, hsmallLo, hsmallHi, fun hs hsmall => ?_⟩
    rw [Word.shl_halves (L.lt ha hs) (Nat.le_of_lt hsmall),
      Word.sub_of_le (Nat.le_of_lt hsmall) Nat.lt_two_pow_self]
  · refine ⟨_, _, hzero, hbigHi, fun hs hbig => ?_⟩
    rw [Word.shl_halves_past (L.lt ha hs) hbig, Word.sub_of_le hbig (L.lt hc hs)]
  · exact ⟨_, _, hzero, hzero, fun _ k hk => by rw [Word.shl_out hk, Nat.mul_zero]⟩

theorem meets_rightCases (hop : op = .srl ∨ op = .sra) :
    L.Meets (rightCases op lo hi zero amount inverse past)
      (Covers L half op (a + 2 ^ half.bits * b) c) := by
  have hpos := half.bits_pos
  have hstage : (Opcode.int op).stage ≤ 0 := by rcases hop with rfl | rfl <;> decide
  have hmulhu : op ≠ .mulhu := by rcases hop with rfl | rfl <;> simp
  refine .typeOf_bind ha ?_
  refine .bind (int hhalf .srl ha hc (by decide)) fun shifted hshifted => ?_
  refine .bind (int hhalf .shl hb hinverse (by decide)) fun carried hcarried => ?_
  refine .bind (int hhalf .or hshifted hcarried (by decide)) fun smallLo hsmallLo => ?_
  refine .bind (int hhalf op hb hc ⟨hstage, hmulhu⟩) fun smallHi hsmallHi => ?_
  refine .bind (int hhalf op hb hpast ⟨hstage, hmulhu⟩) fun bigLo hbigLo => ?_
  rcases hop with rfl | rfl
  · refine .bind (P := (zero = ·)) (.pure rfl) ?_
    rintro _ rfl
    refine .pure ⟨⟨_, _, hsmallLo, hsmallHi, fun hs hsmall => ?_⟩,
      ⟨_, _, hbigLo, hzero, fun hs hbig => ?_⟩, ⟨_, _, hzero, hzero, fun hs k hk => ?_⟩⟩
    · rw [Word.srl_halves (L.lt ha hs) (Nat.le_of_lt hsmall),
        Word.sub_of_le (Nat.le_of_lt hsmall) Nat.lt_two_pow_self]
    · rw [Word.srl_halves_past (L.lt ha hs) hbig, Word.sub_of_le hbig (L.lt hc hs)]
    · rw [Word.srl_out (Word.halves_lt (L.lt ha hs) (L.lt hb hs)) hk, Nat.mul_zero]
  · rw [if_pos rfl]
    refine .bind (L.constant hhalf _) fun signAmount hsignAmount => ?_
    rw [ValueType.width_mod (Nat.sub_le ..)] at hsignAmount
    refine .bind (int hhalf .sra hb hsignAmount (by decide)) fun fill hfill => ?_
    refine .pure ⟨⟨_, _, hsmallLo, hsmallHi, fun hs hsmall => ?_⟩,
      ⟨_, _, hbigLo, hfill, fun hs hbig => ?_⟩, ⟨_, _, hfill, hfill, fun hs k hk => ?_⟩⟩
    · rw [Word.sra_halves hpos (L.lt ha hs) (L.lt hb hs) (Nat.le_of_lt hsmall),
        Word.sub_of_le (Nat.le_of_lt hsmall) Nat.lt_two_pow_self]
    · rw [Word.sra_halves_past hpos (L.lt ha hs) (L.lt hb hs) hbig, Word.sub_of_le hbig (L.lt hc hs)]
    · rw [Word.sra_halves_past hpos (L.lt ha hs) (L.lt hb hs) (by omega),
        Word.sra_fill hpos (L.lt hb hs) (k := k - half.bits) (by omega),
        Word.sra_fill hpos (L.lt hb hs) (Nat.le_refl _)]

end

/-- The flags select the halves of the result: `small` tells the amounts below the half width, and
`overflow` those that move every bit out. Only those may differ from the low part of the amount. -/
theorem meets_selectCases {flag : ValueType} {small overflow width : Value}
    (hop : op = .shl ∨ op = .srl ∨ op = .sra) (hhalf : L.Works 0 half) (hflag : L.Works 0 flag)
    (ha : L.Is lo half a) (hb : L.Is hi half b) (hzero : L.Is zero half 0)
    (hwidth : L.Is width half half.bits) (hc : L.Is amount half c)
    (hsmall : L.Is small flag (decide (c < half.bits)).toNat)
    (hoverflow : L.Is overflow flag (decide (2 * half.bits ≤ k)).toNat)
    (hk : L.sem → k < 2 * half.bits → c = k) :
    L.Meets (do
      let inverse ← Edit.int .sub width amount
      let past ← Edit.int .sub amount width
      let cases ← (if op = .shl then leftCases lo hi zero amount inverse past
        else rightCases op lo hi zero amount inverse past : Edit ShiftCases)
      let lo ← Edit.select small cases.small.1 cases.big.1
      let lo ← Edit.select overflow cases.out.1 lo
      let hi ← Edit.select small cases.small.2 cases.big.2
      let hi ← Edit.select overflow cases.out.2 hi
      return (lo, hi)) fun p =>
        L.IsPair half p (Word.value op (2 * half.bits) (a + 2 ^ half.bits * b) k) := by
  refine .bind (int hhalf .sub hwidth hc (by decide)) fun inverse hinverse => ?_
  refine .bind (int hhalf .sub hc hwidth (by decide)) fun past hpast => ?_
  have hcases : L.Meets (if op = .shl then leftCases lo hi zero amount inverse past
      else rightCases op lo hi zero amount inverse past)
        (Covers L half op (a + 2 ^ half.bits * b) c) := by
    rcases hop with rfl | hop
    · exact meets_leftCases hhalf ha hb hzero hc hinverse hpast
    · rw [if_neg (by rcases hop with rfl | rfl <;> simp)]
      exact meets_rightCases hhalf ha hb hzero hc hinverse hpast hop
  refine .bind hcases ?_
  rintro cases ⟨⟨sl, sh, hsl, hsh, hsmallCase⟩, ⟨bl, bh, hbl, hbh, hbigCase⟩, ol, oh, hol, hoh,
    houtCase⟩
  refine .bind (L.select hflag hhalf hsmall hsl hbl) fun lo₁ hlo₁ => ?_
  refine .bind (L.select hflag hhalf hoverflow hol hlo₁) fun lo₂ hlo₂ => ?_
  refine .bind (L.select hflag hhalf hsmall hsh hbh) fun hi₁ hhi₁ => ?_
  refine .bind (L.select hflag hhalf hoverflow hoh hhi₁) fun hi₂ hhi₂ => ?_
  refine .pure ⟨_, _, hlo₂, hhi₂, fun hs => ?_⟩
  by_cases hlarge : 2 * half.bits ≤ k
  · simpa [hlarge] using houtCase hs k hlarge
  · obtain rfl := hk hs (by omega)
    by_cases hlow : c < half.bits
    · simpa [hlarge, hlow] using hsmallCase hs hlow
    · simpa [hlarge, hlow] using hbigCase hs (by omega)

/-- What an amount `k` is at the type of the halves: its low part and, when it is in halves itself,
its high part. -/
def IsAmount (L : WordLogic) (half : ValueType) (k : Nat) (p : Value × Option Value) : Prop :=
  ∃ c d, L.Is p.1 half c ∧ (∀ high ∈ p.2, L.Is high half d) ∧ (p.2 = none → d = 0) ∧
    (L.sem → k = c + 2 ^ half.bits * d)

theorem meets_variableShift (hhalf : L.Works 0 half) (hflag : L.Flag (T.compareType half))
    (hle : 8 ≤ half.bits) (hop : op = .shl ∨ op = .srl ∨ op = .sra) (ha : L.Is lo half a)
    (hb : L.Is hi half b)
    (hamount : L.Meets (amountParts T id amount half) (L.IsAmount half k)) :
    L.Meets (variableShift T id (.int op) lo hi amount) fun p =>
      L.IsPair half p (Word.value op (2 * half.bits) (a + 2 ^ half.bits * b) k) := by
  have hdouble := Word.double_lt_two_pow (n := half.bits) (by omega)
  have hflag₀ : L.Works 0 (T.compareType half) := L.works_flag hflag
  refine .typeOf_bind ha ?_
  refine .bind hamount ?_
  rintro ⟨amount, high?⟩ ⟨c, d, hc, hhigh, hnone, hk⟩
  refine .bind (L.constant hhalf 0) fun zero hzero => ?_
  refine .bind (L.constant hhalf _) fun width hwidth => ?_
  refine .bind (L.constant hhalf _) fun doubleWidth hdoubleWidth => ?_
  rw [Nat.zero_mod] at hzero
  rw [ValueType.width_mod (Nat.le_refl _)] at hwidth
  rw [Nat.mod_eq_of_lt hdouble] at hdoubleWidth
  refine .bind (L.setcc hflag hhalf .ult hc hwidth) fun small hsmall => ?_
  refine .bind (L.setcc hflag hhalf .uge hc hdoubleWidth) fun beyond hbeyond => ?_
  have hlarge (hs : L.sem) :
      decide (2 * half.bits ≤ k) = (decide (2 * half.bits ≤ c) || d != 0) := by
    rw [hk hs]
    by_cases hd : d = 0
    · simp [hd]
    · have := Nat.le_mul_of_pos_right (2 ^ half.bits) (Nat.pos_of_ne_zero hd)
      simp only [bne_iff_ne.2 hd, Bool.or_true, decide_eq_true_eq]
      omega
  have hselect (overflow : Value)
      (hoverflow : L.Is overflow (T.compareType half) (decide (2 * half.bits ≤ k)).toNat) :=
    meets_selectCases hop hhalf hflag₀ ha hb hzero hwidth hc hsmall hoverflow fun hs hlt => by
      have hd : d = 0 := by
        have := hlarge hs
        rw [decide_eq_false (by omega)] at this
        simpa using (Bool.or_eq_false_iff.1 this.symm).2
      rw [hk hs, hd, Nat.mul_zero, Nat.add_zero]
  cases high? with
  | none =>
    have hoverflow := L.congr (y := (decide (2 * half.bits ≤ k)).toNat) hbeyond fun hs => by
      simp [hlarge hs, hnone rfl, Condition.test]
    have hselect := hselect beyond hoverflow
    rcases hop with rfl | rfl | rfl <;> exact hselect
  | some high =>
    refine .bind (L.setcc hflag hhalf .ne (hhigh high rfl) hzero) fun set hset => ?_
    refine .bind (int hflag₀ .or hbeyond hset (by decide)) fun overflow hor => ?_
    have hoverflow := L.congr (y := (decide (2 * half.bits ≤ k)).toNat) hor fun hs => by
      rw [Word.or_flags, hlarge hs]
      rfl
    have hselect := hselect overflow hoverflow
    rcases hop with rfl | rfl | rfl <;> exact hselect

end Dataflow.Legal.WordLogic
