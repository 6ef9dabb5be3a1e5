import Dataflow.Proofs.Widths
import Mathlib.Data.List.TakeWhile
import Mathlib.Data.Nat.Bitwise

/-!
# Operations in two halves

Operations on words of `2 * n` bits, from the low and the high halves of the operands. The operand
is `a + 2 ^ n * b` throughout, with `a` below `2 ^ n`.
-/

namespace Dataflow

namespace Word

variable {n a b c d x y k : Nat}

theorem two_pow_double (n : Nat) : 2 ^ (2 * n) = 2 ^ n * 2 ^ n := by
  rw [Nat.two_mul, Nat.pow_add]

theorem mod_double (n x : Nat) : x % 2 ^ (2 * n) = x % 2 ^ n + 2 ^ n * (x / 2 ^ n % 2 ^ n) := by
  rw [two_pow_double, Nat.mod_mul]

theorem mod_half (ha : a < 2 ^ n) (b : Nat) : (a + 2 ^ n * b) % 2 ^ n = a := by
  rw [Nat.add_mul_mod_self_left, Nat.mod_eq_of_lt ha]

theorem div_half (ha : a < 2 ^ n) (b : Nat) : (a + 2 ^ n * b) / 2 ^ n = b := by
  rw [Nat.add_mul_div_left _ _ (Nat.two_pow_pos n), Nat.div_eq_of_lt ha, Nat.zero_add]

theorem halves_lt (ha : a < 2 ^ n) (hb : b < 2 ^ n) : a + 2 ^ n * b < 2 ^ (2 * n) := by
  have := Nat.mul_le_mul_left (2 ^ n) (Nat.succ_le_of_lt hb)
  rw [Nat.mul_succ] at this
  rw [two_pow_double]
  omega

/-- Equal words have equal halves. -/
theorem halves_inj (ha : a < 2 ^ n) (hc : c < 2 ^ n) :
    a + 2 ^ n * b = c + 2 ^ n * d ↔ a = c ∧ b = d := by
  refine ⟨fun h => ⟨?_, ?_⟩, fun ⟨h, h'⟩ => by rw [h, h']⟩
  · rw [← mod_half ha b, h, mod_half hc]
  · rw [← div_half ha b, h, div_half hc]

theorem testBit_halves (ha : a < 2 ^ n) (b i : Nat) : (a + 2 ^ n * b).testBit i =
    if i < n then a.testBit i else b.testBit (i - n) := by
  rw [Nat.add_comm, Nat.testBit_two_pow_mul_add b ha]

/-! ### Arithmetic -/

/-- Operations on each bit apart. -/
theorem bitwise_halves {op : IntOp} (hop : op = .and ∨ op = .or ∨ op = .xor) (ha : a < 2 ^ n)
    (hc : c < 2 ^ n) : value op (2 * n) (a + 2 ^ n * b) (c + 2 ^ n * d) =
      value op n a c + 2 ^ n * value op n b d := by
  refine Nat.eq_of_testBit_eq fun i => ?_
  rcases hop with rfl | rfl | rfl <;> simp only [value]
  · rw [testBit_halves (Nat.and_lt_two_pow a hc), Nat.testBit_and, testBit_halves ha,
      testBit_halves hc]
    split <;> rw [Nat.testBit_and]
  · rw [testBit_halves (Nat.or_lt_two_pow ha hc), Nat.testBit_or, testBit_halves ha,
      testBit_halves hc]
    split <;> rw [Nat.testBit_or]
  · rw [testBit_halves (Nat.xor_lt_two_pow ha hc), Nat.testBit_xor, testBit_halves ha,
      testBit_halves hc]
    split <;> rw [Nat.testBit_xor]

theorem or_flags (p q : Bool) : value .or n p.toNat q.toNat = (p || q).toNat := by
  cases p <;> cases q <;> rfl

/-- A sum wraps exactly when it is below an addend. -/
theorem add_carry (ha : a < 2 ^ n) (hc : c < 2 ^ n) :
    a + c = value .add n a c + 2 ^ n * (Condition.test .ult n (value .add n a c) a).toNat := by
  have hsum : value .add n a c = if a + c < 2 ^ n then a + c else a + c - 2 ^ n := by
    rw [value]
    split
    · next h => exact Nat.mod_eq_of_lt h
    · next h => rw [Nat.mod_eq_sub_mod (by omega), Nat.mod_eq_of_lt (by omega)]
  rw [hsum, Condition.test]
  split
  · simp
  · rw [decide_eq_true (by omega), Bool.toNat_true]
    omega

theorem add_halves (ha : a < 2 ^ n) (hc : c < 2 ^ n) :
    value .add (2 * n) (a + 2 ^ n * b) (c + 2 ^ n * d) = value .add n a c +
      2 ^ n * value .add n (value .add n b d)
        (Condition.test .ult n (value .add n a c) a).toNat := by
  have hcarry := add_carry ha hc
  generalize (Condition.test .ult n (value .add n a c) a).toNat = k at hcarry ⊢
  have hsum : a + 2 ^ n * b + (c + 2 ^ n * d) = value .add n a c + 2 ^ n * (b + d + k) := by
    rw [Nat.mul_add, Nat.mul_add]
    omega
  have hlt : value .add n a c < 2 ^ n := Nat.mod_lt _ (Nat.two_pow_pos n)
  have hhigh : value .add n (value .add n b d) k = (b + d + k) % 2 ^ n := by
    rw [value, value, Nat.mod_add_mod]
  rw [hhigh]
  conv_lhs => rw [value, hsum, mod_double, mod_half hlt, div_half hlt]

theorem sub_of_le (hd : c ≤ a) (ha : a < 2 ^ n) : value .sub n a c = a - c := by
  rw [value, show a + (2 ^ n - c) = a - c + 2 ^ n by omega, Nat.add_mod_right,
    Nat.mod_eq_of_lt (by omega)]

theorem sub_of_lt (hd : a < c) (hc : c ≤ 2 ^ n) : value .sub n a c = a + (2 ^ n - c) := by
  rw [value, Nat.mod_eq_of_lt (by omega)]

/-- A difference, a borrow and the number it is taken from. -/
theorem sub_borrow (ha : a < 2 ^ n) (hc : c < 2 ^ n) :
    a + 2 ^ n * (Condition.test .ult n a c).toNat = value .sub n a c + c := by
  rw [Condition.test]
  by_cases h : a < c
  · rw [sub_of_lt h (Nat.le_of_lt hc), decide_eq_true h, Bool.toNat_true]
    omega
  · rw [sub_of_le (by omega) ha, decide_eq_false h, Bool.toNat_false]
    omega

theorem sub_halves (ha : a < 2 ^ n) (hc : c < 2 ^ n) (hd : d < 2 ^ n) :
    value .sub (2 * n) (a + 2 ^ n * b) (c + 2 ^ n * d) = value .sub n a c +
      2 ^ n * value .sub n (value .sub n b d) (Condition.test .ult n a c).toNat := by
  have hle : (Condition.test .ult n a c).toNat ≤ 2 ^ n :=
    Nat.le_trans (Bool.toNat_le _) (Nat.two_pow_pos n)
  have hborrow := sub_borrow ha hc
  have hlt : value .sub n a c < 2 ^ n := Nat.mod_lt _ (Nat.two_pow_pos n)
  generalize (Condition.test .ult n a c).toNat = k at hle hborrow ⊢
  -- the high difference is that of `b` and `d + k`, up to multiples of the width
  have hhigh : value .sub n (value .sub n b d) k = (b + (2 ^ n - d) + (2 ^ n - k)) % 2 ^ n := by
    rw [value, value, Nat.mod_add_mod]
  have hYlt := halves_lt hc hd
  have hsum : a + 2 ^ n * b + (2 ^ (2 * n) - (c + 2 ^ n * d)) + 2 ^ (2 * n) =
      value .sub n a c + 2 ^ n * (b + (2 ^ n - d) + (2 ^ n - k)) := by
    have h₁ : 2 ^ n * (2 ^ n - d) = 2 ^ (2 * n) - 2 ^ n * d := by
      rw [Nat.mul_sub, two_pow_double]
    have h₂ : 2 ^ n * (2 ^ n - k) = 2 ^ (2 * n) - 2 ^ n * k := by
      rw [Nat.mul_sub, two_pow_double]
    have h₃ : 2 ^ n * d ≤ 2 ^ (2 * n) := by omega
    have h₄ : 2 ^ n * k ≤ 2 ^ (2 * n) := by
      rw [two_pow_double]
      exact Nat.mul_le_mul_left _ hle
    rw [Nat.mul_add, Nat.mul_add, h₁, h₂]
    omega
  rw [hhigh]
  conv_lhs => rw [value, ← Nat.add_mod_right, hsum, mod_double, mod_half hlt, div_half hlt]

theorem mul_halves (n a b c d : Nat) : (a + 2 ^ n * b) * (c + 2 ^ n * d) =
    a * c + 2 ^ n * (a * d + b * c + 2 ^ n * (b * d)) := by
  ring

theorem mulLow_halves : value .mul (2 * n) (a + 2 ^ n * b) (c + 2 ^ n * d) = value .mul n a c +
    2 ^ n * value .add n (value .add n (value .mulhu n a c) (value .mul n a d))
      (value .mul n b c) := by
  have hhigh : value .add n (value .add n (value .mulhu n a c) (value .mul n a d))
      (value .mul n b c) = (a * c / 2 ^ n + (a * d + b * c)) % 2 ^ n := by
    simp only [value, Nat.mod_add_mod, Nat.add_mod_mod, Nat.add_assoc]
  rw [hhigh]
  conv_lhs =>
    rw [value, mul_halves, mod_double, Nat.add_mul_mod_self_left,
      Nat.add_mul_div_left _ _ (Nat.two_pow_pos n), ← Nat.add_assoc, Nat.add_mul_mod_self_left]
  rfl

/-- The upper limbs of a product, from its columns and their carries. -/
theorem mulHigh_halves {s s' k₀ k₁ k₂ s₂ : Nat} (lo k₃ k₄ : Nat) (ha : a < 2 ^ n) (hb : b < 2 ^ n)
    (hc : c < 2 ^ n) (hd : d < 2 ^ n) (hs' : s' < 2 ^ n)
    (h₀ : a * c / 2 ^ n + a * d % 2 ^ n = s + 2 ^ n * k₀)
    (h₁ : s + b * c % 2 ^ n = s' + 2 ^ n * k₁)
    (h₂ : a * d / 2 ^ n + b * c / 2 ^ n = s₂ + 2 ^ n * k₂)
    (h₃ : s₂ + b * d % 2 ^ n + (k₀ + k₁) = lo + 2 ^ n * (k₃ + k₄)) :
    value .mulhu (2 * n) (a + 2 ^ n * b) (c + 2 ^ n * d) =
        lo + 2 ^ n * (b * d / 2 ^ n + (k₂ + k₃ + k₄)) ∧
      b * d / 2 ^ n + (k₂ + k₃ + k₄) < 2 ^ n := by
  have hpos := Nat.two_pow_pos n
  have hfirst : (a + 2 ^ n * b) * (c + 2 ^ n * d) / 2 ^ n =
      s' + 2 ^ n * (k₀ + k₁ + (a * d / 2 ^ n + b * c / 2 ^ n + b * d)) := by
    have had := Nat.mod_add_div (a * d) (2 ^ n)
    have hbc := Nat.mod_add_div (b * c) (2 ^ n)
    rw [mul_halves, Nat.add_mul_div_left _ _ hpos]
    simp only [Nat.mul_add] at *
    omega
  have hvalue : value .mulhu (2 * n) (a + 2 ^ n * b) (c + 2 ^ n * d) =
      lo + 2 ^ n * (b * d / 2 ^ n + (k₂ + k₃ + k₄)) := by
    have hbd := Nat.mod_add_div (b * d) (2 ^ n)
    rw [value, two_pow_double, ← Nat.div_div_eq_div_mul, hfirst, div_half hs']
    simp only [Nat.mul_add] at *
    omega
  refine ⟨hvalue, Nat.lt_of_not_le fun hle => ?_⟩
  have hlt : value .mulhu (2 * n) (a + 2 ^ n * b) (c + 2 ^ n * d) < 2 ^ (2 * n) :=
    Nat.div_lt_of_lt_mul (Nat.mul_lt_mul'' (halves_lt ha hb) (halves_lt hc hd))
  have := Nat.mul_le_mul_left (2 ^ n) hle
  rw [hvalue, two_pow_double] at hlt
  omega

/-! ### Counts -/

theorem double_lt_two_pow (hn : 3 ≤ n) : 2 * n < 2 ^ n := by
  obtain ⟨k, rfl⟩ := Nat.exists_eq_add_of_le hn
  induction k with
  | zero => decide
  | succ k ih =>
    have := ih (by omega)
    rw [← Nat.add_assoc, Nat.pow_succ]
    omega

theorem ones_halves (hn : 3 ≤ n) (ha : a < 2 ^ n) : count .ones (2 * n) (a + 2 ^ n * b) =
    value .add n (count .ones n a) (count .ones n b) := by
  have hle := count_le .ones n a
  have hle' := count_le .ones n b
  have hlt := double_lt_two_pow hn
  rw [value, Nat.mod_eq_of_lt (by omega)]
  simp only [count, countOnes]
  rw [Nat.two_mul, List.range_add, List.countP_append, List.countP_map]
  congr 1
  · refine List.countP_congr fun i hi => ?_
    rw [testBit_halves ha, if_pos (List.mem_range.1 hi)]
  · refine List.countP_congr fun i _ => ?_
    rw [Function.comp_apply, testBit_halves ha, if_neg (by omega), Nat.add_sub_cancel_left]

theorem length_halves (ha : a < 2 ^ n) (hb : b ≠ 0) : length (a + 2 ^ n * b) = n + length b := by
  have hne : a + 2 ^ n * b ≠ 0 := by
    have := Nat.mul_pos (Nat.two_pow_pos n) (Nat.pos_of_ne_zero hb)
    omega
  have hlog : (a + 2 ^ n * b).log2 = n + b.log2 := by
    have hself := Nat.log2_self_le hb
    have hlt : b < 2 ^ (b.log2 + 1) := Nat.lt_log2_self
    have h₁ : 2 ^ (n + b.log2) ≤ 2 ^ n * b := by
      rw [Nat.pow_add]
      exact Nat.mul_le_mul_left _ hself
    have h₂ : 2 ^ n * b + 2 ^ n ≤ 2 ^ (n + (b.log2 + 1)) := by
      rw [Nat.pow_add, ← Nat.mul_succ]
      exact Nat.mul_le_mul_left _ hlt
    exact (Nat.log2_eq_iff hne).2 ⟨by omega, by rw [Nat.add_assoc]; omega⟩
  rw [length, if_neg hne, length, if_neg hb, hlog]
  omega

theorem leadingZeros_halves (hn : 3 ≤ n) (ha : a < 2 ^ n) :
    count .leadingZeros (2 * n) (a + 2 ^ n * b) =
      if b = 0 then value .add n (count .leadingZeros n a) n else count .leadingZeros n b := by
  have hlt := double_lt_two_pow hn
  have hlen := length_le_iff.2 ha
  simp only [count]
  split
  · next hb =>
    rw [hb, Nat.mul_zero, Nat.add_zero, value, Nat.mod_eq_of_lt (by omega)]
    omega
  · next hb =>
    rw [length_halves ha hb]
    omega

theorem trailingZeros_halves (hn : 3 ≤ n) (ha : a < 2 ^ n) :
    count .trailingZeros (2 * n) (a + 2 ^ n * b) =
      if a = 0 then value .add n (count .trailingZeros n b) n else count .trailingZeros n a := by
  have hlt := double_lt_two_pow hn
  have hle := count_le .trailingZeros n b
  have hlow : ∀ i ∈ List.range n, (!(a + 2 ^ n * b).testBit i) = !a.testBit i := fun i hi => by
    rw [testBit_halves ha, if_pos (List.mem_range.1 hi)]
  split
  · next hzero =>
    rw [value, Nat.mod_eq_of_lt (by omega)]
    simp only [count, trailingZeros]
    rw [Nat.two_mul, List.range_add,
      List.takeWhile_append_of_pos fun i hi => by rw [hlow i hi, hzero]; simp,
      List.length_append, List.length_range, List.takeWhile_map, List.length_map, Nat.add_comm]
    congr 2
    refine takeWhile_congr fun i _ => ?_
    rw [Function.comp_apply, testBit_halves ha, if_neg (by omega), Nat.add_sub_cancel_left]
  · next hne =>
    -- some low bit stops the count
    have hstop : ∃ i ∈ List.range n, ¬(!a.testBit i) = true := by
      obtain ⟨i, hi⟩ := Nat.exists_testBit_of_ne_zero hne
      refine ⟨i, List.mem_range.2 (Nat.lt_of_not_le fun hle => ?_), by simp [hi]⟩
      rw [Nat.testBit_lt_two_pow (Nat.lt_of_lt_of_le ha (Nat.pow_le_pow_right (by decide) hle))] at hi
      cases hi
    simp only [count, trailingZeros]
    have htake : (List.range n).takeWhile (fun i => !(a + 2 ^ n * b).testBit i) =
        (List.range n).takeWhile fun i => !a.testBit i := takeWhile_congr hlow
    rw [Nat.two_mul, List.range_add, List.takeWhile_append, htake, if_neg]
    intro hall
    obtain ⟨i, hi, hbit⟩ := hstop
    exact hbit (List.takeWhile_eq_self_iff.1 ((List.takeWhile_prefix _).eq_of_length hall) i hi)

/-! ### Shifts -/

theorem or_eq_add (h : x % 2 ^ k = 0) (hy : y < 2 ^ k) : x ||| y = x + y := by
  have hx : x = 2 ^ k * (x / 2 ^ k) := by rw [Nat.mul_div_cancel' (Nat.dvd_of_mod_eq_zero h)]
  rw [hx, ← Nat.two_pow_add_eq_or_of_lt hy]

/-- The low bits of a word move up within it, the others out of it. -/
theorem shl_eq (hk : k ≤ n) (x : Nat) : value .shl n x k = 2 ^ k * (x % 2 ^ (n - k)) := by
  obtain ⟨m, rfl⟩ := Nat.exists_eq_add_of_le hk
  rw [value, Nat.add_sub_cancel_left, Nat.pow_add, Nat.mul_comm x, Nat.mul_mod_mul_left]

theorem shl_out (hk : n ≤ k) (x : Nat) : value .shl n x k = 0 := by
  obtain ⟨m, hm⟩ : 2 ^ n ∣ 2 ^ k := Nat.pow_dvd_pow 2 hk
  rw [value, hm, Nat.mul_left_comm, Nat.mul_mod_right]

theorem srl_out (hx : x < 2 ^ n) (hk : n ≤ k) : value .srl n x k = 0 :=
  Nat.div_eq_of_lt (Nat.lt_of_lt_of_le hx (Nat.pow_le_pow_right (by decide) hk))

/-- What moves from one half into the other, by an amount and by the rest of the width. -/
theorem carried_lt (ha : a < 2 ^ n) (hk : k ≤ n) : value .srl n a (n - k) < 2 ^ k := by
  refine Nat.div_lt_of_lt_mul ?_
  rwa [← Nat.pow_add, Nat.sub_add_cancel hk]

theorem shl_halves (ha : a < 2 ^ n) (hk : k ≤ n) :
    value .shl (2 * n) (a + 2 ^ n * b) k = value .shl n a k +
      2 ^ n * value .or n (value .shl n b k) (value .srl n a (n - k)) := by
  have hcarried := carried_lt ha hk
  have hor : value .or n (value .shl n b k) (value .srl n a (n - k)) =
      value .shl n b k + value .srl n a (n - k) :=
    or_eq_add (by rw [shl_eq hk, Nat.mul_mod_right]) hcarried
  obtain ⟨m, rfl⟩ := Nat.exists_eq_add_of_le hk
  have hpow : 2 ^ (k + m) = 2 ^ k * 2 ^ m := Nat.pow_add ..
  have hsplit := Nat.mod_add_div a (2 ^ m)
  rw [hor, shl_eq hk, shl_eq hk, shl_eq (by omega), value, Nat.add_sub_cancel_left]
  -- the whole word, cut above bit `m` of its high half
  have hcut : (a + 2 ^ (k + m) * b) % 2 ^ (2 * (k + m) - k) = a + 2 ^ (k + m) * (b % 2 ^ m) := by
    rw [show 2 * (k + m) - k = k + m + m by omega, Nat.pow_add 2 (k + m) m, Nat.mod_mul,
      mod_half ha, div_half ha]
  rw [hcut]
  calc 2 ^ k * (a + 2 ^ (k + m) * (b % 2 ^ m))
      = 2 ^ k * (a % 2 ^ m + 2 ^ m * (a / 2 ^ m) + 2 ^ (k + m) * (b % 2 ^ m)) := by rw [hsplit]
    _ = 2 ^ k * (a % 2 ^ m) + 2 ^ (k + m) * (2 ^ k * (b % 2 ^ m) + a / 2 ^ m) := by
      rw [hpow]
      ring

theorem shl_halves_past (ha : a < 2 ^ n) (hk : n ≤ k) :
    value .shl (2 * n) (a + 2 ^ n * b) k = 0 + 2 ^ n * value .shl n a (k - n) := by
  obtain ⟨m, rfl⟩ := Nat.exists_eq_add_of_le hk
  rw [Nat.add_sub_cancel_left, Nat.zero_add]
  simp only [value]
  rw [Nat.pow_add, two_pow_double, Nat.mul_left_comm, Nat.mul_mod_mul_left, ← Nat.mod_mul_mod,
    mod_half ha]

theorem srl_halves (ha : a < 2 ^ n) (hk : k ≤ n) : value .srl (2 * n) (a + 2 ^ n * b) k =
    value .or n (value .srl n a k) (value .shl n b (n - k)) + 2 ^ n * value .srl n b k := by
  have hlow : value .srl n a k < 2 ^ (n - k) := by
    have := carried_lt (k := n - k) ha (Nat.sub_le ..)
    rwa [Nat.sub_sub_self hk] at this
  have hor : value .or n (value .srl n a k) (value .shl n b (n - k)) =
      value .shl n b (n - k) + value .srl n a k := by
    have hshl : value .shl n b (n - k) % 2 ^ (n - k) = 0 := by
      rw [shl_eq (Nat.sub_le ..), Nat.mul_mod_right]
    rw [← or_eq_add hshl hlow, value, Nat.or_comm]
  rw [hor, shl_eq (Nat.sub_le ..), Nat.sub_sub_self hk]
  simp only [value]
  obtain ⟨m, rfl⟩ := Nat.exists_eq_add_of_le hk
  have hsplit := Nat.mod_add_div b (2 ^ k)
  rw [Nat.add_sub_cancel_left, Nat.pow_add, Nat.mul_assoc, Nat.add_mul_div_left _ _
    (Nat.two_pow_pos k)]
  calc a / 2 ^ k + 2 ^ m * b = a / 2 ^ k + 2 ^ m * (b % 2 ^ k + 2 ^ k * (b / 2 ^ k)) := by rw [hsplit]
    _ = 2 ^ m * (b % 2 ^ k) + a / 2 ^ k + 2 ^ k * 2 ^ m * (b / 2 ^ k) := by ring

theorem srl_halves_past (ha : a < 2 ^ n) (hk : n ≤ k) :
    value .srl (2 * n) (a + 2 ^ n * b) k = value .srl n b (k - n) + 2 ^ n * 0 := by
  obtain ⟨m, rfl⟩ := Nat.exists_eq_add_of_le hk
  rw [Nat.add_sub_cancel_left]
  simp only [value]
  rw [Nat.pow_add, ← Nat.div_div_eq_div_mul, div_half ha, Nat.mul_zero, Nat.add_zero]

/-- The sign of a word is that of its high half. -/
theorem sign_halves (hn : 0 < n) (ha : a < 2 ^ n) :
    2 ^ (2 * n - 1) ≤ a + 2 ^ n * b ↔ 2 ^ (n - 1) ≤ b := by
  have hpow : 2 ^ (2 * n - 1) = 2 ^ (n - 1) * 2 ^ n := by
    rw [← Nat.pow_add]
    congr 1
    omega
  rw [hpow, ← Nat.le_div_iff_mul_le (Nat.two_pow_pos n), div_half ha]

/-- An arithmetic shift is a logical one with copies of the sign above. -/
theorem sra_eq_add (hx : x < 2 ^ n) (hk : k ≤ n) : value .sra n x k =
    value .srl n x k + if 2 ^ (n - 1) ≤ x then 2 ^ n - 2 ^ (n - k) else 0 := by
  simp only [value]
  split
  · obtain ⟨m, rfl⟩ := Nat.exists_eq_add_of_le hk
    have hpow : 2 ^ (k + m) = 2 ^ k * 2 ^ m := Nat.pow_add ..
    have hquotient : x / 2 ^ k < 2 ^ m := Nat.div_lt_of_lt_mul (hpow ▸ hx)
    have hcomplement : (2 ^ (k + m) - 1 - x) / 2 ^ k = 2 ^ m - (x / 2 ^ k + 1) := by
      rw [Nat.sub_sub, Nat.add_comm 1 x, hpow]
      exact Nat.mul_sub_div x (2 ^ k) (2 ^ m) (hpow ▸ hx)
    have hle : 2 ^ m ≤ 2 ^ (k + m) := Nat.pow_le_pow_right (by decide) (by omega)
    rw [hcomplement, Nat.add_sub_cancel_left]
    revert hquotient
    generalize x / 2 ^ k = q
    omega
  · rw [Nat.add_zero]

/-- The sign in every bit. -/
theorem sra_fill (hn : 0 < n) (hx : x < 2 ^ n) (hk : n - 1 ≤ k) :
    value .sra n x k = if 2 ^ (n - 1) ≤ x then 2 ^ n - 1 else 0 := by
  have hpow := two_pow_pred hn
  have hle : 2 ^ (n - 1) ≤ 2 ^ k := Nat.pow_le_pow_right (by decide) hk
  simp only [value]
  split
  · rw [Nat.div_eq_of_lt (by omega), Nat.sub_zero]
  · exact Nat.div_eq_of_lt (by omega)

theorem sra_halves (hn : 0 < n) (ha : a < 2 ^ n) (hb : b < 2 ^ n) (hk : k ≤ n) :
    value .sra (2 * n) (a + 2 ^ n * b) k =
      value .or n (value .srl n a k) (value .shl n b (n - k)) + 2 ^ n * value .sra n b k := by
  rw [sra_eq_add (halves_lt ha hb) (by omega), srl_halves ha hk, sra_eq_add hb hk, Nat.add_assoc]
  simp only [sign_halves hn ha]
  congr 1
  split
  · rw [Nat.mul_add, Nat.mul_sub, two_pow_double, show 2 * n - k = n + (n - k) by omega,
      Nat.pow_add 2 n (n - k)]
  · rfl

theorem sra_halves_past (hn : 0 < n) (ha : a < 2 ^ n) (hb : b < 2 ^ n) (hk : n ≤ k) :
    value .sra (2 * n) (a + 2 ^ n * b) k =
      value .sra n b (k - n) + 2 ^ n * value .sra n b (n - 1) := by
  have hpos := Nat.two_pow_pos n
  rw [sra_fill (k := n - 1) hn hb (Nat.le_refl _)]
  rcases Nat.lt_or_ge (2 * n) k with hout | hin
  · rw [sra_fill (by omega) (halves_lt ha hb) (by omega), sra_fill hn hb (by omega)]
    simp only [sign_halves hn ha]
    split
    · rw [Nat.mul_sub, Nat.mul_one, ← two_pow_double]
      have : 2 ^ n ≤ 2 ^ (2 * n) := Nat.pow_le_pow_right (by decide) (by omega)
      omega
    · rfl
  · rw [sra_eq_add (halves_lt ha hb) hin, srl_halves_past ha hk, sra_eq_add hb (by omega)]
    simp only [sign_halves hn ha]
    split
    · have h₁ : 2 ^ (2 * n - k) ≤ 2 ^ n := Nat.pow_le_pow_right (by decide) (by omega)
      have h₂ : 2 ^ n ≤ 2 ^ (2 * n) := Nat.pow_le_pow_right (by decide) (by omega)
      rw [show n - (k - n) = 2 * n - k by omega, Nat.mul_sub, Nat.mul_one, ← two_pow_double]
      omega
    · rfl

/-- An extension repeats the sign in the high half. -/
theorem extend_halves {m : Nat} (hm : 0 < m) (hmn : m ≤ n) (hx : x < 2 ^ m) :
    extend m (2 * n) x = extend m n x + 2 ^ n * value .sra n (extend m n x) (n - 1) := by
  rw [sra_fill (by omega) (extend_lt hmn hx) (Nat.le_refl _),
    ← extend_extend hm hmn (show n ≤ 2 * n by omega) hx]
  conv_lhs => rw [extend]
  split
  · rw [Nat.mul_sub, Nat.mul_one, two_pow_double]
  · rfl

end Word

/-! ### Comparisons -/

namespace Condition

open Word

variable {n a b c d : Nat}

/-- Words are equal when no bit of either half differs. -/
theorem test_equality {p : Condition} (hp : p.isEquality = true) (ha : a < 2 ^ n) (hc : c < 2 ^ n) :
    p.test (2 * n) (a + 2 ^ n * b) (c + 2 ^ n * d) =
      p.test n (value .or n (value .xor n a c) (value .xor n b d)) 0 := by
  have hiff : a + 2 ^ n * b = c + 2 ^ n * d ↔
      value .or n (value .xor n a c) (value .xor n b d) = 0 := by
    rw [halves_inj ha hc, value, Nat.or_eq_zero_iff, value, value, Nat.xor_eq_zero_iff,
      Nat.xor_eq_zero_iff]
  cases p with
  | eq | ne => simp only [test, bne, Bool.beq_eq_decide_eq, hiff]
  | _ => cases hp

theorem halves_lt_iff (ha : a < 2 ^ n) (hc : c < 2 ^ n) (x y : Int) :
    (a : Int) + (2 ^ n : Nat) * x < c + (2 ^ n : Nat) * y ↔ x < y ∨ x = y ∧ a < c := by
  rcases lt_trichotomy x y with h | rfl | h
  · have := Int.mul_le_mul_of_nonneg_left (show x + 1 ≤ y from h)
      (show (0 : Int) ≤ (2 ^ n : Nat) from Int.natCast_nonneg _)
    rw [Int.mul_add, Int.mul_one] at this
    exact ⟨fun _ => .inl h, fun _ => by omega⟩
  · simp
  · have := Int.mul_le_mul_of_nonneg_left (show y + 1 ≤ x from h)
      (show (0 : Int) ≤ (2 ^ n : Nat) from Int.natCast_nonneg _)
    rw [Int.mul_add, Int.mul_one] at this
    refine ⟨fun _ => ?_, fun h' => ?_⟩ <;> omega

/-- Two's complement reads the sign off the high half. -/
theorem signed_halves (hn : 0 < n) (hn' : 2 * n ≤ 128) (ha : a < 2 ^ n) (hb : b < 2 ^ n) :
    signed (2 * n) (a + 2 ^ n * b) = a + (2 ^ n : Nat) * signed n b := by
  rw [signed_eq (by omega) hn' (halves_lt ha hb), signed_eq hn (by omega) hb]
  simp only [sign_halves hn ha]
  split
  · rw [two_pow_double, Int.mul_sub, Int.natCast_add, Int.natCast_mul, Int.natCast_mul]
    omega
  · rw [Int.natCast_add, Int.natCast_mul]

/-- The high halves decide and, when they are equal, the low ones. -/
theorem test_ordering {p : Condition} (hp : p.isEquality = false) (hn : 0 < n) (hn' : 2 * n ≤ 128)
    (ha : a < 2 ^ n) (hb : b < 2 ^ n) (hc : c < 2 ^ n) (hd : d < 2 ^ n) :
    p.test (2 * n) (a + 2 ^ n * b) (c + 2 ^ n * d) =
      if b = d then p.toUnsigned.test n a c else p.test n b d := by
  have hinj : signed n b = signed n d ↔ b = d := by
    rw [signed_eq hn (by omega) hb, signed_eq hn (by omega) hd]
    split <;> split <;> omega
  have hunsigned (a b : Nat) : ((a + 2 ^ n * b : Nat) : Int) = a + (2 ^ n : Nat) * (b : Int) := by
    rw [Int.natCast_add, Int.natCast_mul]
  have hlt := halves_lt_iff ha hc
  have hlt' := halves_lt_iff hc ha
  by_cases h : b = d
  · subst h
    cases p with
    | eq | ne => cases hp
    | ult | ule | ugt | uge => simp [test, toUnsigned]
    | slt | sle | sgt | sge =>
      simp [test, toUnsigned, signed_halves hn hn' ha hb, signed_halves hn hn' hc hb]
  · have hne : signed n b ≠ signed n d := fun heq => h (hinj.1 heq)
    rw [if_neg h]
    cases p with
    | eq | ne => cases hp
    | ult | ule | ugt | uge =>
      have h₁ := hlt b d
      have h₂ := hlt' d b
      rw [← hunsigned, ← hunsigned] at h₁ h₂
      simp only [test, decide_eq_decide]
      omega
    | slt | sle | sgt | sge =>
      have h₁ := hlt (signed n b) (signed n d)
      have h₂ := hlt' (signed n d) (signed n b)
      simp only [test, decide_eq_decide, signed_halves hn hn' ha hb, signed_halves hn hn' hc hd]
      omega

end Condition

end Dataflow
