import Dataflow.Legal.Halve.Division
import Dataflow.Proofs.Rules.Halve.Limbs

/-!
# Long division

Long division takes the bits of the quotient from the top. After bit `k` the remainder is that of
the dividend without its low `k` bits, and the bits of the quotient from `k` on are right. The
quotient by zero has all its bits, whatever the remainder. All of it works at the wide type; only
the result is cut in halves.
-/

namespace Dataflow

namespace Word

variable {n k x y r : Nat}

/-- The remainder with the next bit of the dividend below it, cut to the width. -/
theorem shifted_in (hn : 0 < n) (x r k : Nat) :
    value .or n (value .shl n r 1) (value .and n (value .srl n x k) 1) =
      (2 * r + x / 2 ^ k % 2) % 2 ^ n := by
  have hpow := two_pow_pred hn
  have hbit : value .and n (value .srl n x k) 1 = x / 2 ^ k % 2 := Nat.and_one_is_mod _
  have hdouble : value .shl n r 1 = 2 * (r % 2 ^ (n - 1)) := by
    rw [shl_eq hn, Nat.pow_one]
  have hor : value .or n (value .shl n r 1) (x / 2 ^ k % 2) = value .shl n r 1 + x / 2 ^ k % 2 :=
    or_eq_add (k := 1) (by rw [hdouble, Nat.pow_one, Nat.mul_mod_right])
      (by rw [Nat.pow_one]; exact Nat.mod_lt _ (by decide))
  rw [hbit, hor, hdouble, hpow, Nat.mod_mul, Nat.mul_add_mod, Nat.mod_mod,
    Nat.mul_add_div (by decide), Nat.div_eq_of_lt (Nat.mod_lt _ (by decide)), Nat.add_zero,
    Nat.add_comm]

/-- One more bit of the dividend: the next remainder, and the bit of the quotient. -/
theorem divide_bit (hy : y ≠ 0) (hr : r = x / 2 ^ (k + 1) % y) :
    ((x / y).testBit k = decide (y ≤ 2 * r + x / 2 ^ k % 2)) ∧ 2 * r + x / 2 ^ k % 2 < 2 * y ∧
      x / 2 ^ k % y = if y ≤ 2 * r + x / 2 ^ k % 2 then 2 * r + x / 2 ^ k % 2 - y
        else 2 * r + x / 2 ^ k % 2 := by
  have hlt : r < y := hr ▸ Nat.mod_lt _ (Nat.pos_of_ne_zero hy)
  have hdiv : x / 2 ^ (k + 1) = x / 2 ^ k / 2 := by
    rw [Nat.pow_succ, Nat.div_div_eq_div_mul]
  have hbit : x / 2 ^ k % 2 < 2 := Nat.mod_lt _ (by decide)
  have hstep : x / 2 ^ k = y * (2 * (x / 2 ^ (k + 1) / y)) + (2 * r + x / 2 ^ k % 2) := by
    have h₁ := Nat.div_add_mod (x / 2 ^ k) 2
    have h₂ := Nat.div_add_mod (x / 2 ^ (k + 1)) y
    rw [← hr] at h₂
    rw [← hdiv, ← h₂] at h₁
    rw [Nat.mul_left_comm]
    omega
  have hswap : x / y / 2 ^ k = x / 2 ^ k / y := by
    rw [Nat.div_div_eq_div_mul, Nat.div_div_eq_div_mul, Nat.mul_comm]
  rw [Nat.testBit_eq_decide_div_mod_eq, hswap]
  generalize x / 2 ^ k % 2 = β at hbit hstep ⊢
  rw [hstep, Nat.mul_add_div (Nat.pos_of_ne_zero hy), Nat.mul_add_mod y]
  by_cases hle : y ≤ 2 * r + β
  · have hone : (2 * r + β) / y = 1 :=
      Nat.div_eq_of_lt_le (by omega) (by omega)
    refine ⟨?_, by omega, ?_⟩
    · rw [hone, decide_eq_true hle, decide_eq_true (by omega)]
    · rw [if_pos hle, Nat.mod_eq_sub_mod hle, Nat.mod_eq_of_lt (by omega)]
  · refine ⟨?_, by omega, ?_⟩
    · rw [Nat.div_eq_of_lt (Nat.lt_of_not_le hle), decide_eq_false hle, decide_eq_false (by omega)]
    · rw [if_neg hle, Nat.mod_eq_of_lt (Nat.lt_of_not_le hle)]

/-- Whether the divisor fits: a remainder whose top bit falls out is above every divisor. -/
def fits (n r rem y : Nat) : Bool :=
  value .srl n r (n - 1) != 0 || decide (y ≤ rem)

/-- One step of the division, on words. -/
theorem divide_step (hk : k < n) (hy : y < 2 ^ n)
    (hr : y ≠ 0 → r = x / 2 ^ (k + 1) % y) :
    fits n r ((2 * r + x / 2 ^ k % 2) % 2 ^ n) y = (quotient n x y).testBit k ∧
      (y ≠ 0 → (if (quotient n x y).testBit k then
        value .sub n ((2 * r + x / 2 ^ k % 2) % 2 ^ n) y else (2 * r + x / 2 ^ k % 2) % 2 ^ n) =
          x / 2 ^ k % y) := by
  by_cases hzero : y = 0
  · subst hzero
    simp [fits, quotient, Nat.testBit_two_pow_sub_one, hk]
  obtain ⟨htest, hbound, hrem⟩ := divide_bit hzero (hr hzero)
  have hpow := two_pow_pred (n := n) (by omega)
  have htop : value .srl n r (n - 1) ≠ 0 ↔ 2 ^ (n - 1) ≤ r := by
    rw [value, ← Nat.pos_iff_ne_zero, Nat.div_pos_iff]
    exact ⟨fun h => h.2, fun h => ⟨Nat.two_pow_pos _, h⟩⟩
  have hbit : x / 2 ^ k % 2 < 2 := Nat.mod_lt _ (by decide)
  rw [quotient, if_neg hzero, htest]
  generalize x / 2 ^ k % 2 = β at hbit hbound hrem ⊢
  -- the doubled remainder is below twice the width
  have hcut : (2 * r + β) % 2 ^ n =
      if 2 ^ n ≤ 2 * r + β then 2 * r + β - 2 ^ n else 2 * r + β := by
    split
    · next h => rw [Nat.mod_eq_sub_mod h, Nat.mod_eq_of_lt (by omega)]
    · next h => exact Nat.mod_eq_of_lt (by omega)
  have hfits : fits n r ((2 * r + β) % 2 ^ n) y = decide (y ≤ 2 * r + β) := by
    rw [fits, hcut, Bool.eq_iff_iff]
    simp only [Bool.or_eq_true, bne_iff_ne, htop, decide_eq_true_eq]
    split <;> omega
  refine ⟨hfits, fun _ => ?_⟩
  rw [hrem, hcut]
  by_cases hle : y ≤ 2 * r + β
  · rw [if_pos (decide_eq_true hle), if_pos hle]
    split
    · rw [sub_of_lt (by omega) (Nat.le_of_lt hy)]
      omega
    · rw [sub_of_le hle (by omega)]
  · rw [if_neg (by simpa using hle), if_neg hle, if_neg (by omega)]

/-- The bits of a number from `k` on. -/
theorem bits_from (q k : Nat) : 2 ^ k * (q / 2 ^ k) =
    value .or n (2 ^ (k + 1) * (q / 2 ^ (k + 1))) (if q.testBit k then 2 ^ k else 0) := by
  have hsplit := Nat.div_add_mod (q / 2 ^ k) 2
  rw [Nat.div_div_eq_div_mul, ← Nat.pow_succ] at hsplit
  rw [value, or_eq_add (k := k + 1) (Nat.mul_mod_right ..)
    (by split <;> simp [Nat.pow_lt_pow_succ]),
    Nat.testBit_eq_decide_div_mod_eq, ← hsplit, Nat.mul_add, ← Nat.mul_assoc, ← Nat.pow_succ, hsplit]
  have hbit := Nat.mod_lt (q / 2 ^ k) (show 0 < 2 by decide)
  congr 1
  simp only [decide_eq_true_eq]
  split
  · next h => rw [h, Nat.mul_one]
  · next h => rw [show q / 2 ^ k % 2 = 0 by omega, Nat.mul_zero]

end Word

namespace Legal

variable {L : WordLogic} {T : Target} {t half flag : ValueType} {x y k slot : Nat}
  {dividend divisor v zero : Value} {id : NodeId}

open Halve

/-- A division of `x` by `y` that can go on. -/
structure Halve.Division.Ready (L : WordLogic) (x y : Nat) (d : Division) : Prop where
  word : L.Works 0 d.type
  flag : L.Flag d.flag
  dividend : L.Is d.dividend d.type x
  divisor : L.Is d.divisor d.type y
  zero : L.Is d.zero d.type 0
  one : L.Is d.one d.type 1
  topShift : L.Is d.topShift d.type (d.type.bits - 1)

/-- The remainder and the quotient when the bits from `k` on are taken. -/
def Halve.Division.At (L : WordLogic) (x y k : Nat) (d : Division) (p : Value × Value) : Prop :=
  (∃ r, L.Is p.1 d.type r ∧ (L.sem → y ≠ 0 → r = x / 2 ^ k % y)) ∧
    L.Is p.2 d.type (2 ^ k * (Word.quotient d.type.bits x y / 2 ^ k))

namespace WordLogic

theorem meets_bit (h : k < 128) : L.Meets (Edit.bit k) (· = 2 ^ k) := by
  rw [Edit.bit, if_pos (show k < Word.maxBits from h)]
  exact .pure (Nat.one_shiftLeft k)

theorem meets_step {d : Division} (hd : d.Ready L x y) (hk : k < d.type.bits) {r q : Value}
    (h : d.At L x y (k + 1) (r, q)) : L.Meets (d.step k r q) (d.At L x y k) := by
  obtain ⟨⟨ρ, hρ, hrem⟩, hq⟩ := h
  have hword := hd.word
  have hflag : L.Works 0 d.flag := L.works_flag hd.flag
  have hle := (L.isWord hword).bits_le
  have hpow : 2 ^ k < 2 ^ d.type.bits := Nat.pow_lt_pow_right (by decide) hk
  refine .bind (int hword .srl hρ hd.topShift (by decide)) fun carriedOut hcarriedOut => ?_
  refine .bind (L.constant hword k) fun position hposition => ?_
  rw [ValueType.width_mod (Nat.le_of_lt hk)] at hposition
  refine .bind (int hword .srl hd.dividend hposition (by decide)) fun next hnext => ?_
  refine .bind (int hword .and hnext hd.one (by decide)) fun next' hnext' => ?_
  refine .bind (int hword .shl hρ hd.one (by decide)) fun doubled hdoubled => ?_
  refine .bind (int hword .or hdoubled hnext' (by decide)) fun rem hrem' => ?_
  rw [Word.shifted_in d.type.bits_pos] at hrem'
  refine .bind (L.setcc hd.flag hword .ne hcarriedOut hd.zero) fun beyond hover => ?_
  refine .bind (L.setcc hd.flag hword .uge hrem' hd.divisor) fun large hlarge => ?_
  refine .bind (int hflag .or hover hlarge (by decide)) fun fits hfits => ?_
  have hstep (hs : L.sem) := Word.divide_step (x := x) hk (L.lt hd.divisor hs) (hrem hs)
  have hfits := L.congr (y := ((Word.quotient d.type.bits x y).testBit k).toNat) hfits fun hs => by
    rw [Word.or_flags, ← (hstep hs).1]
    rfl
  refine .bind (int hword .sub hrem' hd.divisor (by decide)) fun reduced hreduced => ?_
  refine .bind (L.select hflag hword hfits hreduced hrem') fun remainder hremainder => ?_
  refine .bind (meets_bit (by omega)) ?_
  rintro _ rfl
  refine .bind (L.constant hword _) fun place hplace => ?_
  rw [Nat.mod_eq_of_lt hpow] at hplace
  refine .bind (L.select hflag hword hfits hplace hd.zero) fun digit hdigit => ?_
  refine .bind (int hword .or hq hdigit (by decide)) fun quotient hquotient =>
    .pure ⟨⟨_, hremainder, ?_⟩, ?_⟩
  · intro hs hy
    rw [← (hstep hs).2 hy]
    simp only [Bool.toNat_eq_zero, ne_eq, Bool.not_eq_false]
  · rw [Word.bits_from (n := d.type.bits)]
    simpa only [Bool.toNat_eq_zero, ne_eq, Bool.not_eq_false] using hquotient

theorem meets_run {d : Division} (hd : d.Ready L x y) {r q : Value} (hk : k ≤ d.type.bits)
    (h : d.At L x y k (r, q)) : L.Meets (d.run k r q) fun w =>
      L.Is w d.type (Word.quotient d.type.bits x y) := by
  induction k generalizing r q with
  | zero =>
    have hq := h.2
    rw [Nat.pow_zero, Nat.div_one, Nat.one_mul] at hq
    exact .pure hq
  | succ k ih => exact .bind (meets_step hd hk h) fun p hp => ih (Nat.le_of_lt hk) hp

theorem meets_unsignedQuotient (ht : L.Works 0 t) (hflag : L.Flag (T.compareType t))
    (ha : L.Is dividend t x) (hb : L.Is divisor t y) :
    L.Meets (unsignedQuotient T dividend divisor) fun w =>
      L.Is w t (Word.value .udiv t.bits x y) := by
  have hpos := t.bits_pos
  refine .typeOf_bind ha ?_
  refine .bind (L.constant ht 0) fun zero hzero => ?_
  refine .bind (L.constant ht 1) fun one hone => ?_
  refine .bind (L.constant ht _) fun topShift htopShift => ?_
  rw [Nat.zero_mod] at hzero
  rw [ValueType.width_mod hpos] at hone
  rw [ValueType.width_mod (Nat.sub_le ..)] at htopShift
  -- the whole dividend is left, and no bit of the quotient is taken
  refine meets_run (x := x) (y := y) ⟨ht, hflag, ha, hb, hzero, hone, htopShift⟩ (Nat.le_refl _)
    ⟨⟨0, hzero, fun hs hy => ?_⟩, L.congr hzero fun hs => ?_⟩
  · rw [Nat.div_eq_of_lt (L.lt ha hs), Nat.zero_mod]
  · rw [Nat.div_eq_of_lt (Word.quotient_lt (L.lt ha hs) y), Nat.mul_zero]

/-! ### Halves of quotients -/

theorem meets_cut (ht : L.Works 1 t) (hhalf : L.Works 1 half) (hbits : t.bits = 2 * half.bits)
    (h : L.Is v t x) : L.Meets (Edit.cutInteger v half) fun p => L.IsPair half p x := by
  have hpos := half.bits_pos
  have hlt : half.bits < t.bits := by omega
  refine .typeOf_bind h ?_
  refine .bind (L.truncate ht hhalf hlt h (Nat.le_refl 1)) fun lo hlo => ?_
  refine .bind (L.constant ht _) fun amount hamount => ?_
  rw [ValueType.width_mod (Nat.le_of_lt hlt)] at hamount
  refine .bind (int ht .srl h hamount (by decide)) fun shifted hshifted => ?_
  refine .bind (L.truncate ht hhalf hlt hshifted (Nat.le_refl 1)) fun hi hhi =>
    .pure ⟨_, _, hlo, hhi, fun hs => ?_⟩
  have hx := L.lt h hs
  rw [Word.value, ← Word.mod_double, ← hbits, Nat.mod_eq_of_lt hx]

/-- The operands of a division at type `t`, and the type of its halves. -/
structure Divides (L : WordLogic) (T : Target) (id : NodeId) (slot : Nat) (t : ValueType)
    (x y : Nat) : Prop where
  result : L.Meets (Edit.resultType id slot) (t = ·)
  dividend : L.Meets (Edit.operand id 0) fun v => L.Is v t x
  divisor : L.Meets (Edit.operand id 1) fun v => L.Is v t y
  flag : L.Flag (T.compareType t)
  half : L.Works 1 (T.transform t)
  bits : t.bits = 2 * (T.transform t).bits

theorem meets_ofUnsignedDiv (h : L.Divides T id slot t x y) (ht : L.Works 1 t) :
    L.Meets (ofUnsignedDiv T id slot) fun p =>
      L.IsPair (T.transform t) p (Word.value .udiv t.bits x y) := by
  have hhalf : L.Meets (halfType T id slot) (T.transform t = ·) := by
    refine .bind h.result ?_
    rintro _ rfl
    exact .pure rfl
  refine .bind hhalf ?_
  rintro _ rfl
  refine .bind h.dividend fun a ha => .bind h.divisor fun b hb => ?_
  exact .bind (meets_unsignedQuotient (L.works_mono ht (Nat.zero_le 1)) h.flag ha hb) fun q hq =>
    meets_cut ht h.half h.bits hq

theorem meets_magnitude (ht : L.Works 0 t) (hflag : L.Flag flag) (hzero : L.Is zero t 0)
    (h : L.Is v t x) : L.Meets (magnitude flag zero v) fun p =>
      L.Is p.1 flag (decide (2 ^ (t.bits - 1) ≤ x)).toNat ∧
        L.Is p.2 t (Word.magnitude t.bits x) := by
  have hpos := t.bits_pos
  have hle := (L.isWord ht).bits_le
  have hpow := Nat.two_pow_pos (t.bits - 1)
  refine .bind (L.setcc hflag ht .slt h hzero) fun negative hnegative => ?_
  have hnegative := L.congr (y := (decide (2 ^ (t.bits - 1) ≤ x)).toNat) hnegative fun hs => by
    have hlt := L.lt h hs
    rw [Condition.test, Word.signed_eq hpos hle hlt,
      Word.signed_eq hpos hle (Nat.two_pow_pos _), if_neg (show ¬2 ^ (t.bits - 1) ≤ 0 by omega)]
    congr 1
    simp only [decide_eq_decide]
    split <;> omega
  refine .bind (int ht .sub hzero h (by decide)) fun negated hnegated => ?_
  refine .bind (L.select (L.works_flag hflag) ht hnegative hnegated h) fun m hm =>
    .pure ⟨hnegative, L.congr hm fun hs => ?_⟩
  have hlt := L.lt h hs
  rw [Word.magnitude]
  by_cases hneg : 2 ^ (t.bits - 1) ≤ x
  · rw [if_pos hneg, decide_eq_true hneg, Word.sub_of_lt (by omega) (Nat.le_of_lt hlt),
      Nat.zero_add]
    rfl
  · rw [if_neg hneg, decide_eq_false hneg]
    rfl

theorem meets_ofSignedDiv (h : L.Divides T id slot t x y) (ht : L.Works 2 t) :
    L.Meets (ofSignedDiv T id slot) fun p =>
      L.IsPair (T.transform t) p (Word.value .sdiv t.bits x y) := by
  have ht₀ := L.works_mono ht (show 0 ≤ 2 by decide)
  have hflag₀ : L.Works 0 (T.compareType t) := L.works_flag h.flag
  refine .bind h.result ?_
  rintro _ rfl
  refine .bind h.dividend fun a ha => .bind h.divisor fun b hb => ?_
  refine .bind (L.constant ht₀ 0) fun zero hzero => ?_
  rw [Nat.zero_mod] at hzero
  refine .bind (meets_magnitude ht₀ h.flag hzero ha) ?_
  rintro ⟨aNegative, a'⟩ ⟨haNegative, ha'⟩
  refine .bind (meets_magnitude ht₀ h.flag hzero hb) ?_
  rintro ⟨bNegative, b'⟩ ⟨hbNegative, hb'⟩
  refine .bind (int ht .udiv ha' hb' (by decide)) fun q hq => ?_
  refine .bind (int hflag₀ .xor haNegative hbNegative (by decide)) fun flip hflip => ?_
  refine .bind (int ht₀ .sub hzero hq (by decide)) fun negated hnegated => ?_
  refine .bind (L.select hflag₀ ht₀ hflip hnegated hq) fun result hresult => ?_
  refine meets_cut (L.works_mono ht (by decide)) h.half h.bits (L.congr hresult fun _ => ?_)
  simp only [Word.value, Nat.zero_add]
  by_cases hx : 2 ^ (t.bits - 1) ≤ x <;> by_cases hy : 2 ^ (t.bits - 1) ≤ y <;> simp [hx, hy]

end WordLogic

end Legal

end Dataflow
