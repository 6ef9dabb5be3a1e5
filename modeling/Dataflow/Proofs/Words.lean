import Dataflow.Condition
import Dataflow.Eval
import Dataflow.Proofs.Data

/-!
# Operations on words

Closed forms of the operations on words of `n` bits, as arithmetic on numbers below `2 ^ n`.
-/

namespace Dataflow

namespace Word

variable {n x y : Nat}

/-! ### Parts of words -/

theorem low_eq (hn : n ≤ 128) (x : Nat) : low n x = x % 2 ^ n := by
  rw [low, maxBits, Nat.min_eq_left hn, bound_eq]

theorem mask_eq (hn : n ≤ 128) : mask n = 2 ^ n - 1 := by
  rw [mask, maxBits, Nat.min_eq_left hn, bound_eq]

theorem two_pow_pred (hn : 0 < n) : 2 ^ n = 2 * 2 ^ (n - 1) := by
  rw [← Nat.pow_succ', Nat.succ_eq_add_one, Nat.sub_add_cancel hn]

/-- The sign of an `n`-bit word. -/
theorem isNegative_eq (hn : 0 < n) (hx : x < 2 ^ n) : isNegative n x = decide (2 ^ (n - 1) ≤ x) := by
  have hpow := two_pow_pred hn
  have hpos := Nat.two_pow_pos (n - 1)
  have hdiv : x / 2 ^ (n - 1) < 2 := Nat.div_lt_of_lt_mul (by omega)
  have hle : 2 ^ (n - 1) ≤ x ↔ 1 ≤ x / 2 ^ (n - 1) := by rw [Nat.le_div_iff_mul_le hpos, Nat.one_mul]
  rw [isNegative, Nat.testBit_eq_decide_div_mod_eq, Bool.eq_iff_iff]
  simp only [bne_iff_ne, Bool.and_eq_true, decide_eq_true_eq, hle]
  revert hdiv
  generalize x / 2 ^ (n - 1) = q
  omega

theorem negate_eq (hn : n ≤ 128) (hx : x < 2 ^ n) : negate n x = (2 ^ n - x) % 2 ^ n := by
  have hle : 2 ^ n ≤ 2 ^ 128 := Nat.pow_le_pow_right (by decide) hn
  obtain ⟨k, hk⟩ : 2 ^ n ∣ 2 ^ 128 := Nat.pow_dvd_pow 2 hn
  rw [negate, low_eq hn, maxBits, low_eq (Nat.le_refl _), bound_eq,
    Nat.mod_eq_of_lt (Nat.lt_of_lt_of_le hx hle)]
  have hsplit : 2 ^ 128 - x = (2 ^ n - x) + 2 ^ n * (k - 1) := by
    have hk1 : 1 ≤ k := by
      rcases Nat.eq_zero_or_pos k with h | h
      · rw [h, Nat.mul_zero] at hk
        exact absurd hk (by decide)
      · exact h
    obtain ⟨m, rfl⟩ := Nat.exists_eq_add_of_le hk1
    rw [hk, Nat.mul_add, Nat.mul_one, Nat.add_sub_cancel_left]
    omega
  rw [hsplit, Nat.add_mul_mod_self_left]

/-- The two's complement value of an `n`-bit word. -/
theorem signed_eq (hn : 0 < n) (hn' : n ≤ 128) (hx : x < 2 ^ n) :
    signed n x = if 2 ^ (n - 1) ≤ x then (x : Int) - (2 ^ n : Nat) else x := by
  obtain ⟨gap, hgap⟩ := Nat.exists_eq_add_of_le hn'
  have hpos := Nat.two_pow_pos gap
  have htop : 2 ^ 128 = 2 ^ n * 2 ^ gap := by rw [hgap, Nat.pow_add]
  have hlt : x * 2 ^ gap < 2 ^ 128 := htop ▸ Nat.mul_lt_mul_of_pos_right hx hpos
  -- the bits stand at the top of the word, and the sign of the word is theirs
  have hword : signed n x = Int.bmod ((x * 2 ^ gap : Nat) : Int) (2 ^ 128) / (2 ^ gap : Nat) := by
    have hmove : maxBits - n = gap := by rw [maxBits, hgap, Nat.add_sub_cancel_left]
    simp only [signed, hmove, bound_eq, Int.shiftRight_eq_div_pow, Nat.shiftLeft_eq]
    rw [maxBits, low_eq (Nat.le_refl _), Nat.mod_eq_of_lt hlt]
  have hsign : x * 2 ^ gap < 2 ^ 127 ↔ x < 2 ^ (n - 1) := by
    have hpow : 2 ^ 127 = 2 ^ (n - 1) * 2 ^ gap := by
      rw [← Nat.pow_add, show n - 1 + gap = 127 by omega]
    rw [hpow, Nat.mul_lt_mul_right hpos]
  have hcancel (z : Int) : z * (2 ^ gap : Nat) / (2 ^ gap : Nat) = z :=
    Int.mul_ediv_cancel z (by omega)
  rw [hword, Int.bmod_def, Int.emod_eq_of_lt (by omega) (by omega)]
  split
  · next h =>
    have : x < 2 ^ (n - 1) := hsign.1 (by omega)
    rw [if_neg (by omega), Int.natCast_mul, hcancel]
  · next h =>
    have : ¬ x < 2 ^ (n - 1) := fun hx => h (by have := hsign.2 hx; omega)
    rw [if_pos (by omega), Int.natCast_mul, htop, Int.natCast_mul, ← Int.sub_mul, hcancel]

/-- The distance of a word from zero. -/
def magnitude (n x : Nat) : Nat :=
  if 2 ^ (n - 1) ≤ x then 2 ^ n - x else x

theorem magnitude_le (hn : 0 < n) (hx : x < 2 ^ n) : magnitude n x ≤ 2 ^ (n - 1) := by
  have := two_pow_pred hn
  unfold magnitude
  split <;> omega

/-- The unsigned quotient; by zero it is all ones. -/
def quotient (n x y : Nat) : Nat :=
  if y = 0 then 2 ^ n - 1 else x / y

theorem quotient_lt (hx : x < 2 ^ n) (y : Nat) : quotient n x y < 2 ^ n := by
  unfold quotient
  split
  · exact Nat.sub_lt (Nat.two_pow_pos n) Nat.one_pos
  · exact Nat.lt_of_le_of_lt (Nat.div_le_self x y) hx

/-! ### Closed forms -/

/-- The value of an integer operation at width `n`. -/
def value (op : IntOp) (n x y : Nat) : Nat :=
  match op with
  | .add => (x + y) % 2 ^ n
  | .sub => (x + (2 ^ n - y)) % 2 ^ n
  | .mul => x * y % 2 ^ n
  | .mulhu => x * y / 2 ^ n
  | .udiv => quotient n x y
  | .sdiv =>
    let q := quotient n (magnitude n x) (magnitude n y)
    if 2 ^ (n - 1) ≤ x ↔ 2 ^ (n - 1) ≤ y then q else (2 ^ n - q) % 2 ^ n
  | .and => x &&& y
  | .or => x ||| y
  | .xor => x ^^^ y
  | .shl => x * 2 ^ y % 2 ^ n
  | .srl => x / 2 ^ y
  | .sra => if 2 ^ (n - 1) ≤ x then 2 ^ n - 1 - (2 ^ n - 1 - x) / 2 ^ y else x / 2 ^ y

theorem mul_eq_ok {a b : Nat} (h : a * b < 2 ^ 128) : mul a b = .ok (a * b) :=
  if_pos h

theorem add_eq_ok {a b : Nat} (h : a + b < 2 ^ 128) : add a b = .ok (a + b) :=
  if_pos h

/-- Schoolbook multiplication: the quotient of a product of two limbs each by two limbs. -/
theorem mul_div_limbs (B a b c d : Nat) (hB : 0 < B) :
    (a + B * b) * (c + B * d) / (B * B) =
      b * d + b * c / B + a * d / B + (a * c / B + b * c % B + a * d % B) / B := by
  have hsum : (a + B * b) * (c + B * d) = a * c + B * (b * c + a * d + B * (b * d)) := by ring
  have hcross : a * c / B + (b * c + a * d + B * (b * d)) =
      (a * c / B + b * c % B + a * d % B) + B * (b * d + b * c / B + a * d / B) := by
    have h₁ := Nat.mod_add_div (b * c) B
    have h₂ := Nat.mod_add_div (a * d) B
    rw [Nat.mul_add, Nat.mul_add]
    omega
  rw [hsum, ← Nat.div_div_eq_div_mul, Nat.add_mul_div_left _ _ hB, hcross,
    Nat.add_mul_div_left _ _ hB, Nat.add_comm]

theorem mulHigh_eq (hx : x < 2 ^ 128) (hy : y < 2 ^ 128) : mulHigh x y = .ok (x * y / 2 ^ 128) := by
  have hB : (2 : Nat) ^ 128 = 2 ^ 64 * 2 ^ 64 := by rw [← Nat.pow_add]
  have hpos : 0 < (2 : Nat) ^ 64 := Nat.two_pow_pos 64
  rw [hB] at hx hy
  have hxHi : x / 2 ^ 64 < 2 ^ 64 := Nat.div_lt_of_lt_mul hx
  have hyHi : y / 2 ^ 64 < 2 ^ 64 := Nat.div_lt_of_lt_mul hy
  have hxLo := Nat.mod_lt x hpos
  have hyLo := Nat.mod_lt y hpos
  have hxy : x * y / (2 ^ 64 * 2 ^ 64) < 2 ^ 64 * 2 ^ 64 :=
    Nat.div_lt_of_lt_mul (Nat.mul_lt_mul'' hx hy)
  have hproduct := mul_div_limbs (2 ^ 64) (x % 2 ^ 64) (x / 2 ^ 64) (y % 2 ^ 64) (y / 2 ^ 64) hpos
  rw [Nat.mod_add_div, Nat.mod_add_div] at hproduct
  rw [hproduct] at hxy
  have hmul {a b : Nat} (ha : a < 2 ^ 64) (hb : b < 2 ^ 64) : mul a b = .ok (a * b) :=
    mul_eq_ok (hB ▸ Nat.mul_lt_mul'' ha hb)
  simp only [mulHigh, bound_eq, hmul hxLo hyLo, hmul hxHi hyLo, hmul hxLo hyHi, hmul hxHi hyHi,
    ok_bind]
  rw [hB, hproduct, add_eq_ok, ok_bind, add_eq_ok, ok_bind, add_eq_ok, ok_bind, add_eq_ok, ok_bind,
    add_eq_ok]
  -- Partial sums of the high column stay below the quotient, those of the middle one below three.
  all_goals
    have hcarry : x % 2 ^ 64 * (y % 2 ^ 64) / 2 ^ 64 < 2 ^ 64 :=
      Nat.div_lt_of_lt_mul (Nat.mul_lt_mul'' hxLo hyLo)
    have h₁ := Nat.mod_lt (x / 2 ^ 64 * (y % 2 ^ 64)) hpos
    have h₂ := Nat.mod_lt (x % 2 ^ 64 * (y / 2 ^ 64)) hpos
    omega

/-- Zero is caught before anything is divided by it. -/
theorem quotientOf_eq (hn : n ≤ 128) (x y : Nat) : quotientOf n x y = .ok (quotient n x y) := by
  unfold quotientOf quotient div
  split
  · rw [mask_eq hn]
  · rfl

theorem shifted_eq_ok {a k : Nat} (h : k < 128) : shifted k a = .ok a :=
  if_pos h

theorem magnitude_lt (hn : 0 < n) (hx : x < 2 ^ n) : magnitude n x < 2 ^ n := by
  have := two_pow_pred hn
  have := magnitude_le hn hx
  have := Nat.two_pow_pos (n - 1)
  omega

theorem signedDiv_eq (hn : 0 < n) (hn' : n ≤ 128) (hx : x < 2 ^ n) (hy : y < 2 ^ n) :
    signedDiv n x y = .ok (value .sdiv n x y) := by
  have hmagnitude (z : Nat) (hz : z < 2 ^ n) :
      (if isNegative n z then negate n z else z) = magnitude n z := by
    have := two_pow_pred hn
    have := Nat.two_pow_pos (n - 1)
    rw [isNegative_eq hn hz, negate_eq hn' hz, magnitude]
    simp only [decide_eq_true_eq]
    split
    · exact Nat.mod_eq_of_lt (by omega)
    · rfl
  unfold signedDiv value
  simp only [hmagnitude x hx, hmagnitude y hy, quotientOf_eq hn', ok_bind,
    negate_eq hn' (quotient_lt (magnitude_lt hn hx) _)]
  simp only [isNegative_eq hn hx, isNegative_eq hn hy, decide_eq_decide]
  rfl

theorem sra_eq (hn : 0 < n) (hn' : n ≤ 128) (hx : x < 2 ^ n) (y : Nat) :
    (if n ≤ y then .ok (if signed n x < 0 then mask n else 0)
      else shifted y (ofInt n (signed n x >>> y))) = (.ok (value .sra n x y) : Except Fault Nat) := by
  have hshift (z : Nat) : z >>> y = z / 2 ^ y := Nat.shiftRight_eq_div_pow z y
  have hout (z : Nat) (hz : z < 2 ^ n) (hy : n ≤ y) : z / 2 ^ y = 0 :=
    Nat.div_eq_of_lt (Nat.lt_of_lt_of_le hz (Nat.pow_le_pow_right (by decide) hy))
  rw [signed_eq hn hn' hx, value, mask_eq hn', ofInt, maxBits, Nat.min_eq_left hn', bound_eq]
  by_cases hneg : 2 ^ (n - 1) ≤ x
  · -- A negative word is the complement of a number that is shifted in its place.
    have hcomplement : (x : Int) - (2 ^ n : Nat) = Int.negSucc (2 ^ n - 1 - x) := by omega
    have hle : (2 ^ n - 1 - x) / 2 ^ y ≤ 2 ^ n - 1 - x := Nat.div_le_self _ _
    simp only [if_pos hneg, hcomplement, Int.negSucc_lt_zero, if_true]
    split
    · next hy => rw [hout _ (by omega) hy, Nat.sub_zero]
    · rw [shifted_eq_ok (by omega)]
      have hright : Int.negSucc (2 ^ n - 1 - x) >>> y = Int.negSucc ((2 ^ n - 1 - x) / 2 ^ y) := by
        rw [← hshift]
        rfl
      rw [hright]
      revert hle
      generalize (2 ^ n - 1 - x) / 2 ^ y = q
      intro hle
      rw [Int.negSucc_emod_ofNat, Nat.mod_eq_of_lt (by omega), Int.subNatNat_of_le (by omega),
        Int.toNat_natCast]
      exact congrArg Except.ok (by omega)
  · have hnot : ¬(x : Int) < 0 := by omega
    simp only [if_neg hneg, hnot, if_false]
    split
    · next hy => rw [hout x hx hy]
    · rw [shifted_eq_ok (by omega)]
      have hright : (x : Int) >>> y = ((x / 2 ^ y : Nat) : Int) := by
        rw [← hshift]
        rfl
      rw [hright, ← Int.natCast_mod, Int.toNat_natCast,
        Nat.mod_eq_of_lt (Nat.lt_of_le_of_lt (Nat.div_le_self _ _) hx)]

theorem sra_lt (hx : x < 2 ^ n) (y : Nat) : value .sra n x y < 2 ^ n := by
  have hpos := Nat.two_pow_pos n
  rw [value]
  split
  · exact Nat.lt_of_le_of_lt (Nat.sub_le _ _) (Nat.sub_lt hpos Nat.one_pos)
  · exact Nat.lt_of_le_of_lt (Nat.div_le_self _ _) hx

theorem value_lt (op : IntOp) (hn : 0 < n) (hx : x < 2 ^ n) (hy : y < 2 ^ n) :
    value op n x y < 2 ^ n := by
  have hpos := Nat.two_pow_pos n
  cases op with
  | add | sub | mul | shl => exact Nat.mod_lt _ hpos
  | mulhu => exact Nat.div_lt_of_lt_mul (Nat.mul_lt_mul'' hx hy)
  | udiv => exact quotient_lt hx y
  | sdiv =>
    simp only [value]
    split
    · exact quotient_lt (magnitude_lt hn hx) _
    · exact Nat.mod_lt _ hpos
  | and => exact Nat.and_lt_two_pow x hy
  | or => exact Nat.or_lt_two_pow hx hy
  | xor => exact Nat.xor_lt_two_pow hx hy
  | srl => exact Nat.lt_of_le_of_lt (Nat.div_le_self _ _) hx
  | sra => exact sra_lt hx y

theorem binary_of_raw {op : IntOp} {z : Nat} (hn : n ≤ 128) (h : raw op n x y = .ok z) :
    binary op n x y = .ok (z % 2 ^ n) := by
  rw [binary, h, ← low_eq hn]
  rfl

/-- Shifts take any amount. -/
theorem binary_shift {op : IntOp} (hop : op = .shl ∨ op = .srl ∨ op = .sra) (hn : 0 < n)
    (hn' : n ≤ 64 ∨ n = 128) (hx : x < 2 ^ n) (k : Nat) :
    binary op n x k = .ok (value op n x k) := by
  have hle : n ≤ 128 := by omega
  rcases hop with rfl | rfl | rfl
  · by_cases hk : n ≤ k
    · have hraw : raw .shl n x k = .ok 0 := if_pos hk
      obtain ⟨j, hj⟩ : 2 ^ n ∣ 2 ^ k := Nat.pow_dvd_pow 2 hk
      rw [binary_of_raw hle hraw, value, hj, Nat.mul_left_comm, Nat.mul_mod_right, Nat.zero_mod]
    · have hraw : raw .shl n x k = .ok (x <<< k) := (if_neg hk).trans (shifted_eq_ok (by omega))
      rw [binary_of_raw hle hraw, value, Nat.shiftLeft_eq]
  · by_cases hk : n ≤ k
    · have hraw : raw .srl n x k = .ok 0 := if_pos hk
      have hout : x < 2 ^ k := Nat.lt_of_lt_of_le hx (Nat.pow_le_pow_right (by decide) hk)
      rw [binary_of_raw hle hraw, value, Nat.zero_mod, Nat.div_eq_of_lt hout]
    · have hraw : raw .srl n x k = .ok (x >>> k) := (if_neg hk).trans (shifted_eq_ok (by omega))
      rw [binary_of_raw hle hraw, value, Nat.shiftRight_eq_div_pow,
        Nat.mod_eq_of_lt (Nat.lt_of_le_of_lt (Nat.div_le_self ..) hx)]
  · have hraw : raw .sra n x k = .ok (value .sra n x k) := sra_eq hn hle hx k
    rw [binary_of_raw hle hraw, Nat.mod_eq_of_lt (sra_lt hx k)]

/-- The operations on words of the widths that types have. -/
theorem binary_eq (op : IntOp) (hn : 0 < n) (hn' : n ≤ 64 ∨ n = 128) (hx : x < 2 ^ n)
    (hy : y < 2 ^ n) : binary op n x y = .ok (value op n x y) := by
  have hle : n ≤ 128 := by omega
  -- a result in range is not changed when it is cut
  have hexact (h : raw op n x y = .ok (value op n x y)) :
      binary op n x y = .ok (value op n x y) := by
    rw [binary_of_raw hle h, Nat.mod_eq_of_lt (value_lt op hn hx hy)]
  cases op with
  | add | mul => exact binary_of_raw hle rfl
  | sub =>
    have hnegate := negate_eq hle hy
    rw [negate, low_eq hle] at hnegate
    rw [binary_of_raw hle rfl, Nat.add_mod, hnegate, ← Nat.add_mod]
    rfl
  | mulhu =>
    rcases hn' with hsmall | rfl
    · have hprod : x * y < 2 ^ 128 := by
        have h₁ : x * y < 2 ^ n * 2 ^ n := Nat.mul_lt_mul'' hx hy
        rw [← Nat.pow_add] at h₁
        exact Nat.lt_of_lt_of_le h₁ (Nat.pow_le_pow_right (by decide) (by omega))
      refine hexact ?_
      rw [raw, if_pos hsmall, mul_eq_ok hprod]
      rfl
    · exact hexact (mulHigh_eq hx hy)
  | udiv => exact hexact (quotientOf_eq hle x y)
  | sdiv => exact hexact (signedDiv_eq hn hle hx hy)
  | and | or | xor => exact hexact rfl
  | shl => exact binary_shift (.inl rfl) hn hn' hx y
  | srl => exact binary_shift (.inr (.inl rfl)) hn hn' hx y
  | sra => exact binary_shift (.inr (.inr rfl)) hn hn' hx y

/-- The sign extension of an `n`-bit word to `m` bits. -/
def extend (n m x : Nat) : Nat :=
  if 2 ^ (n - 1) ≤ x then x + (2 ^ m - 2 ^ n) else x

theorem ofInt_signed {m : Nat} (hn : 0 < n) (hnm : n ≤ m) (hm : m ≤ 128) (hx : x < 2 ^ n) :
    ofInt m (signed n x) = extend n m x := by
  have hle : 2 ^ n ≤ 2 ^ m := Nat.pow_le_pow_right (by decide) hnm
  rw [signed_eq hn (by omega) hx, ofInt, maxBits, Nat.min_eq_left hm, bound_eq, extend]
  split
  · have hcomplement : (x : Int) - (2 ^ n : Nat) = Int.negSucc (2 ^ n - 1 - x) := by omega
    rw [hcomplement, Int.negSucc_emod_ofNat, Nat.mod_eq_of_lt (by omega),
      Int.subNatNat_of_le (by omega), Int.toNat_natCast]
    omega
  · rw [← Int.natCast_mod, Int.toNat_natCast]
    exact Nat.mod_eq_of_lt (by omega)

section
variable {m k : Nat}

theorem extend_self (n x : Nat) : extend n n x = x := by
  unfold extend
  split <;> omega

/-- Sign extensions can be cut back. -/
theorem extend_mod (hnk : n ≤ k) (hkm : k ≤ m) (hx : x < 2 ^ n) :
    extend n m x % 2 ^ k = extend n k x := by
  have h₁ : 2 ^ n ≤ 2 ^ k := Nat.pow_le_pow_right (by decide) hnk
  have h₂ : 2 ^ k ≤ 2 ^ m := Nat.pow_le_pow_right (by decide) hkm
  obtain ⟨j, hj⟩ : 2 ^ k ∣ 2 ^ m := Nat.pow_dvd_pow 2 hkm
  unfold extend
  split
  · have hsplit : x + (2 ^ m - 2 ^ n) = x + (2 ^ k - 2 ^ n) + 2 ^ k * (j - 1) := by
      obtain ⟨i, rfl⟩ : ∃ i, j = i + 1 := ⟨j - 1, by
        have := Nat.two_pow_pos m
        rcases Nat.eq_zero_or_pos j with rfl | h
        · omega
        · omega⟩
      rw [Nat.mul_add, Nat.mul_one] at hj
      rw [Nat.add_sub_cancel]
      omega
    rw [hsplit, Nat.add_mul_mod_self_left, Nat.mod_eq_of_lt (by omega)]
  · exact Nat.mod_eq_of_lt (by omega)

theorem extend_lt (hnm : n ≤ m) (hx : x < 2 ^ n) : extend n m x < 2 ^ m := by
  have : 2 ^ n ≤ 2 ^ m := Nat.pow_le_pow_right (by decide) hnm
  unfold extend
  split <;> omega

/-- Sign extension in two steps. -/
theorem extend_extend (hn : 0 < n) (hnk : n ≤ k) (hkm : k ≤ m) (hx : x < 2 ^ n) :
    extend k m (extend n k x) = extend n m x := by
  have h₁ : 2 ^ n ≤ 2 ^ k := Nat.pow_le_pow_right (by decide) hnk
  have h₂ : 2 ^ k ≤ 2 ^ m := Nat.pow_le_pow_right (by decide) hkm
  have h₃ := two_pow_pred hn
  have h₄ : 2 ^ k = 2 * 2 ^ (k - 1) := two_pow_pred (by omega)
  have h₅ : 2 ^ (n - 1) ≤ 2 ^ (k - 1) := Nat.pow_le_pow_right (by decide) (by omega)
  unfold extend
  split
  · rw [if_pos (by omega)]
    omega
  · by_cases h : n = k
    · subst h
      rw [if_neg (by omega)]
    · have : 2 ^ n ≤ 2 ^ (k - 1) := Nat.pow_le_pow_right (by decide) (by omega)
      rw [if_neg (by omega)]

/-- A shift to the top and an arithmetic shift back extend the sign. -/
theorem sra_shl (hn : 0 < n) (hnm : n ≤ m) (x : Nat) :
    value .sra m (value .shl m x (m - n)) (m - n) = extend n m (x % 2 ^ n) := by
  obtain ⟨k, rfl⟩ := Nat.exists_eq_add_of_le hnm
  have hx := Nat.mod_lt x (Nat.two_pow_pos n)
  have hpow : 2 ^ (n + k) = 2 ^ n * 2 ^ k := Nat.pow_add ..
  have hpred : 2 ^ (n + k - 1) = 2 ^ (n - 1) * 2 ^ k := by
    rw [← Nat.pow_add]
    congr 1
    omega
  have hk := Nat.two_pow_pos k
  have hshl : value .shl (n + k) x k = x % 2 ^ n * 2 ^ k := by
    rw [value, hpow, Nat.mul_mod_mul_right]
  rw [Nat.add_sub_cancel_left, hshl]
  generalize x % 2 ^ n = y at hx ⊢
  unfold value extend
  simp only [hpow, hpred, Nat.mul_le_mul_right_iff hk, Nat.mul_div_cancel _ hk]
  split
  · have hdiv : (2 ^ n * 2 ^ k - 1 - y * 2 ^ k) / 2 ^ k = 2 ^ n - 1 - y := by
      have : 2 ^ n * 2 ^ k - 1 - y * 2 ^ k = (2 ^ k - 1) + 2 ^ k * (2 ^ n - 1 - y) := by
        obtain ⟨z, hz⟩ := Nat.exists_eq_add_of_lt hx
        have : 2 ^ n * 2 ^ k = y * 2 ^ k + z * 2 ^ k + 2 ^ k := by rw [hz]; ring
        have : 2 ^ n - 1 - y = z := by omega
        rw [this, Nat.mul_comm (2 ^ k) z]
        omega
      rw [this, Nat.add_mul_div_left _ _ hk, Nat.div_eq_of_lt (by omega), Nat.zero_add]
    rw [hdiv]
    have : 2 ^ n ≤ 2 ^ n * 2 ^ k := Nat.le_mul_of_pos_right _ hk
    omega
  · rfl

end

/-! ### Bit counts -/

/-- The value of a bit count at width `n`. -/
def count (op : BitCount) (n x : Nat) : Nat :=
  match op with
  | .ones => countOnes n x
  | .leadingZeros => n - length x
  | .trailingZeros => trailingZeros n x

theorem length_le_iff : length x ≤ n ↔ x < 2 ^ n := by
  unfold length
  split
  · next h =>
    have := Nat.two_pow_pos n
    omega
  · next h => rw [← Nat.log2_lt h]; omega

theorem countOnes_of_le {m : Nat} (hx : x < 2 ^ n) (hnm : n ≤ m) : countOnes m x = countOnes n x := by
  obtain ⟨k, rfl⟩ := Nat.exists_eq_add_of_le hnm
  unfold countOnes
  rw [List.range_add, List.countP_append, List.countP_map]
  have hzero : (List.range k).countP (x.testBit ∘ (n + ·)) = 0 := by
    refine List.countP_eq_zero.2 fun i _ => ?_
    have : x < 2 ^ (n + i) := Nat.lt_of_lt_of_le hx (Nat.pow_le_pow_right (by decide) (by omega))
    simp [Nat.testBit_lt_two_pow this]
  omega

theorem bitCount_eq (op : BitCount) (hn : n ≤ 128) (hx : x < 2 ^ n) :
    Eval.bitCount op n x = .ok (count op n x) := by
  cases op with
  | ones => rw [Eval.bitCount, maxBits, countOnes_of_le hx hn, count]
  | leadingZeros => rw [Eval.bitCount, Eval.leadingZeros, if_pos (length_le_iff.2 hx), count]
  | trailingZeros => rfl

end Word

/-! ### Comparisons -/

namespace Condition

/-- The answer of a comparison of words of `n` bits. -/
def test (c : Condition) (n x y : Nat) : Bool :=
  match c with
  | eq => x == y
  | ne => x != y
  | ult => x < y
  | ule => x ≤ y
  | ugt => y < x
  | uge => y ≤ x
  | slt => Word.signed n x < Word.signed n y
  | sle => Word.signed n x ≤ Word.signed n y
  | sgt => Word.signed n y < Word.signed n x
  | sge => Word.signed n y ≤ Word.signed n x

theorem holds_eq {n : Nat} (hn : 0 < n) (c : Condition) (x y : Nat) :
    c.holds n x y = .ok (c.test n x y) := by
  unfold holds
  rw [if_neg (by omega)]
  rfl

end Condition

end Dataflow
