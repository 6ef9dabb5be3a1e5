import Dataflow.Proofs.Words
import Mathlib.Data.Nat.ModEq

/-!
# Operations at a wider width

What an operation on words of `n` bits has to do with the same operation on words of `m` bits that
extend them.
-/

namespace Dataflow

namespace Word

variable {n m x y x' y' : Nat}

/-- Operations whose low bits depend on the low bits of the operands only. -/
theorem value_mod {op : IntOp} (hop : op ∈ [IntOp.add, .sub, .mul, .and, .or, .xor]) (hnm : n ≤ m)
    (hy : y < 2 ^ m) : value op m x y % 2 ^ n = value op n (x % 2 ^ n) (y % 2 ^ n) := by
  have hdvd : 2 ^ n ∣ 2 ^ m := Nat.pow_dvd_pow 2 hnm
  have hmod := Nat.mod_lt y (Nat.two_pow_pos n)
  simp only [List.mem_cons, List.not_mem_nil, or_false] at hop
  rcases hop with rfl | rfl | rfl | rfl | rfl | rfl
  · rw [value, value, Nat.mod_mod_of_dvd _ hdvd, ← Nat.add_mod]
  · rw [value, value, Nat.mod_mod_of_dvd _ hdvd]
    -- both sides plus `y` are `x`
    have hleft : (x + (2 ^ m - y)) + y ≡ x [MOD 2 ^ n] := by
      rw [Nat.add_assoc, Nat.sub_add_cancel (Nat.le_of_lt hy)]
      obtain ⟨k, hk⟩ := hdvd
      rw [hk]
      exact Nat.add_mul_mod_self_left x (2 ^ n) k
    have hright : (x % 2 ^ n + (2 ^ n - y % 2 ^ n)) + y ≡ x [MOD 2 ^ n] := by
      have hy' : (x % 2 ^ n + (2 ^ n - y % 2 ^ n)) + y ≡
          (x % 2 ^ n + (2 ^ n - y % 2 ^ n)) + y % 2 ^ n [MOD 2 ^ n] :=
        Nat.ModEq.add_left _ (Nat.mod_modEq y _).symm
      refine hy'.trans ?_
      rw [Nat.add_assoc, Nat.sub_add_cancel (Nat.le_of_lt hmod)]
      exact (Nat.add_mod_right _ _).trans (Nat.mod_mod _ _)
    exact Nat.ModEq.add_right_cancel' y (hleft.trans hright.symm)
  · rw [value, value, Nat.mod_mod_of_dvd _ hdvd, ← Nat.mul_mod]
  · rw [value, value, Nat.and_mod_two_pow]
  · rw [value, value, Nat.or_mod_two_pow]
  · rw [value, value, Nat.xor_mod_two_pow]

/-! ### Shifts -/

theorem shl_mod (hnm : n ≤ m) (x y : Nat) :
    value .shl m x y % 2 ^ n = value .shl n (x % 2 ^ n) y := by
  rw [value, value, Nat.mod_mod_of_dvd _ (Nat.pow_dvd_pow 2 hnm), Nat.mod_mul_mod]

theorem srl_mod (hx : x < 2 ^ n) (y : Nat) : value .srl m x y % 2 ^ n = value .srl n x y := by
  rw [value, value, Nat.mod_eq_of_lt (Nat.lt_of_le_of_lt (Nat.div_le_self ..) hx)]

/-- The sign of a sign extension. -/
theorem le_extend_iff (hn : 0 < n) (hnm : n ≤ m) :
    2 ^ (m - 1) ≤ extend n m x ↔ 2 ^ (n - 1) ≤ x := by
  have hle : 2 ^ n ≤ 2 ^ m := Nat.pow_le_pow_right (by decide) hnm
  have h₁ := two_pow_pred hn
  have h₂ : 2 ^ m = 2 * 2 ^ (m - 1) := two_pow_pred (by omega)
  unfold extend
  split <;> omega

theorem sra_mod (hn : 0 < n) (hnm : n ≤ m) (hx : x < 2 ^ n) (y : Nat) :
    value .sra m (extend n m x) y % 2 ^ n = value .sra n x y := by
  have hle : 2 ^ n ≤ 2 ^ m := Nat.pow_le_pow_right (by decide) hnm
  have hsign := le_extend_iff (x := x) hn hnm
  obtain ⟨k, hk⟩ : 2 ^ n ∣ 2 ^ m := Nat.pow_dvd_pow 2 hnm
  have hk₁ : 1 ≤ k := by
    rcases Nat.eq_zero_or_pos k with rfl | hpos
    · have := Nat.two_pow_pos m
      omega
    · exact hpos
  rw [value, value]
  by_cases h : 2 ^ (n - 1) ≤ x
  · have hextend : extend n m x = x + (2 ^ m - 2 ^ n) := if_pos h
    rw [if_pos (hsign.2 h), if_pos h, hextend]
    -- the complement of the extension is the complement of the word
    have hcomplement : 2 ^ m - 1 - (x + (2 ^ m - 2 ^ n)) = 2 ^ n - 1 - x := by omega
    have hquotient : (2 ^ n - 1 - x) / 2 ^ y ≤ 2 ^ n - 1 - x := Nat.div_le_self ..
    have hsplit : 2 ^ m - 1 - (2 ^ n - 1 - x) / 2 ^ y =
        (2 ^ n - 1 - (2 ^ n - 1 - x) / 2 ^ y) + 2 ^ n * (k - 1) := by
      rw [Nat.mul_sub, hk, Nat.mul_one]
      have : 2 ^ n ≤ 2 ^ n * k := Nat.le_mul_of_pos_right _ hk₁
      omega
    have hpos := Nat.two_pow_pos n
    rw [hcomplement, hsplit, Nat.add_mul_mod_self_left, Nat.mod_eq_of_lt]
    exact Nat.lt_of_le_of_lt (Nat.sub_le ..) (by omega)
  · have hextend : extend n m x = x := if_neg h
    rw [if_neg (fun h' => h (hsign.1 h')), if_neg h, hextend]
    exact Nat.mod_eq_of_lt (Nat.lt_of_le_of_lt (Nat.div_le_self ..) hx)

/-! ### Division -/

theorem quotient_mod (hnm : n ≤ m) (hx : x < 2 ^ n) (y : Nat) :
    quotient m x y % 2 ^ n = quotient n x y := by
  unfold quotient
  split
  · obtain ⟨k, hk⟩ : 2 ^ n ∣ 2 ^ m := Nat.pow_dvd_pow 2 hnm
    have hpos := Nat.two_pow_pos n
    have hpos' := Nat.two_pow_pos m
    have hk₁ : 1 ≤ k := by
      rcases Nat.eq_zero_or_pos k with rfl | hpos
      · omega
      · exact hpos
    have hsplit : 2 ^ m - 1 = (2 ^ n - 1) + 2 ^ n * (k - 1) := by
      rw [Nat.mul_sub, hk, Nat.mul_one]
      have : 2 ^ n ≤ 2 ^ n * k := Nat.le_mul_of_pos_right _ hk₁
      omega
    rw [hsplit, Nat.add_mul_mod_self_left, Nat.mod_eq_of_lt (by omega)]
  · exact Nat.mod_eq_of_lt (Nat.lt_of_le_of_lt (Nat.div_le_self ..) hx)

theorem magnitude_extend (hn : 0 < n) (hnm : n ≤ m) (hx : x < 2 ^ n) :
    magnitude m (extend n m x) = magnitude n x := by
  have hle : 2 ^ n ≤ 2 ^ m := Nat.pow_le_pow_right (by decide) hnm
  have hsign := le_extend_iff (x := x) hn hnm
  unfold magnitude
  by_cases h : 2 ^ (n - 1) ≤ x
  · have hextend : extend n m x = x + (2 ^ m - 2 ^ n) := if_pos h
    rw [if_pos (hsign.2 h), if_pos h, hextend]
    omega
  · have hextend : extend n m x = x := if_neg h
    rw [if_neg (fun h' => h (hsign.1 h')), if_neg h, hextend]

/-- Negation commutes with cutting. -/
theorem neg_mod (hnm : n ≤ m) (hx : x ≤ 2 ^ m) :
    (2 ^ m - x) % 2 ^ m % 2 ^ n = (2 ^ n - x % 2 ^ n) % 2 ^ n := by
  have hdvd : 2 ^ n ∣ 2 ^ m := Nat.pow_dvd_pow 2 hnm
  have hmod := Nat.mod_lt x (Nat.two_pow_pos n)
  rw [Nat.mod_mod_of_dvd _ hdvd]
  have hleft : (2 ^ m - x) + x ≡ 0 [MOD 2 ^ n] := by
    rw [Nat.sub_add_cancel hx]
    exact (Nat.modEq_zero_iff_dvd).2 hdvd
  have hright : (2 ^ n - x % 2 ^ n) + x ≡ 0 [MOD 2 ^ n] := by
    have hx' : (2 ^ n - x % 2 ^ n) + x ≡ (2 ^ n - x % 2 ^ n) + x % 2 ^ n [MOD 2 ^ n] :=
      Nat.ModEq.add_left _ (Nat.mod_modEq x _).symm
    refine hx'.trans ?_
    rw [Nat.sub_add_cancel (Nat.le_of_lt hmod)]
    exact Nat.modEq_zero_iff_dvd.2 (dvd_refl _)
  exact Nat.ModEq.add_right_cancel' x (hleft.trans hright.symm)

theorem sdiv_mod (hn : 0 < n) (hnm : n ≤ m) (hx : x < 2 ^ n) (hy : y < 2 ^ n) :
    value .sdiv m (extend n m x) (extend n m y) % 2 ^ n = value .sdiv n x y := by
  have hle : 2 ^ n ≤ 2 ^ m := Nat.pow_le_pow_right (by decide) hnm
  have hmag := magnitude_lt hn hx
  have hq := quotient_mod hnm hmag (magnitude n y)
  simp only [value, magnitude_extend hn hnm hx, magnitude_extend hn hnm hy,
    le_extend_iff hn hnm]
  split
  · exact hq
  · have hlt := quotient_lt (Nat.lt_of_lt_of_le hmag hle) (magnitude n y)
    rw [neg_mod hnm (Nat.le_of_lt hlt), hq]

/-! ### Counts -/

theorem count_le (op : BitCount) (n x : Nat) : count op n x ≤ n := by
  cases op with
  | ones =>
    rw [count, countOnes]
    exact Nat.le_trans List.countP_le_length (by rw [List.length_range])
  | leadingZeros => exact Nat.sub_le ..
  | trailingZeros =>
    rw [count, trailingZeros]
    exact Nat.le_trans (List.takeWhile_prefix _).length_le (by rw [List.length_range])

theorem count_lt (op : BitCount) (n x : Nat) : count op n x < 2 ^ n :=
  Nat.lt_of_le_of_lt (count_le op n x) Nat.lt_two_pow_self

/-- The leading zeros above the narrow width do not count. -/
theorem sub_leadingZeros (hnm : n ≤ m) (hx : x < 2 ^ n) :
    value .sub m (count .leadingZeros m x) ((m - n) % 2 ^ m) = count .leadingZeros n x := by
  have hlen := length_le_iff.2 hx
  have hm : m < 2 ^ m := Nat.lt_two_pow_self
  rw [value, count, count, Nat.mod_eq_of_lt (a := m - n) (by omega)]
  have : m - length x + (2 ^ m - (m - n)) = (n - length x) + 2 ^ m := by omega
  rw [this, Nat.add_mod_right, Nat.mod_eq_of_lt (by omega)]

theorem takeWhile_congr {p q : Nat → Bool} {l : List Nat} (h : ∀ i ∈ l, p i = q i) :
    l.takeWhile p = l.takeWhile q := by
  induction l with
  | nil => rfl
  | cons i l ih =>
    rw [List.takeWhile_cons, List.takeWhile_cons, h i List.mem_cons_self,
      ih fun j hj => h j (List.mem_cons_of_mem _ hj)]

theorem takeWhile_range_append {p : Nat → Bool} {k : Nat} (h : p n = false) :
    ((List.range (n + 1 + k)).takeWhile p).length = ((List.range n).takeWhile p).length := by
  rw [Nat.add_assoc, List.range_add, List.takeWhile_append]
  split
  · next hall =>
    rw [Nat.add_comm 1 k, List.range_succ_eq_map, List.map_cons, Nat.add_zero, List.takeWhile_cons,
      if_neg (by rw [h]; simp), List.append_nil, hall]
  · rfl

/-- A bit just above the narrow width stops the count there. -/
theorem trailingZeros_stop (hnm : n < m) (h : y % 2 ^ n = x) :
    count .trailingZeros m (value .or m y (2 ^ n)) = count .trailingZeros n x := by
  obtain ⟨k, rfl⟩ := Nat.exists_eq_add_of_lt hnm
  rw [count, count, value, trailingZeros, trailingZeros,
    show n + k + 1 = n + 1 + k by omega, takeWhile_range_append (by simp)]
  congr 1
  -- below the stop the bits are those of the narrow word
  have hbits (i : Nat) (hi : i ∈ List.range n) :
      (!(y ||| 2 ^ n).testBit i) = !x.testBit i := by
    have hlt := List.mem_range.1 hi
    rw [← h, Nat.testBit_or, Nat.testBit_two_pow_of_ne (by omega), Nat.testBit_mod_two_pow]
    simp [hlt]
  exact takeWhile_congr hbits

/-! ### Comparisons -/

theorem signed_extend (hn : 0 < n) (hnm : n ≤ m) (hm : m ≤ 128) (hx : x < 2 ^ n) :
    signed m (extend n m x) = signed n x := by
  have hle : 2 ^ n ≤ 2 ^ m := Nat.pow_le_pow_right (by decide) hnm
  have hsign := le_extend_iff (x := x) hn hnm
  rw [signed_eq (by omega) hm (extend_lt hnm hx), signed_eq hn (by omega) hx]
  by_cases h : 2 ^ (n - 1) ≤ x
  · have hextend : extend n m x = x + (2 ^ m - 2 ^ n) := if_pos h
    rw [if_pos (hsign.2 h), if_pos h, hextend]
    omega
  · have hextend : extend n m x = x := if_neg h
    rw [if_neg (fun h' => h (hsign.1 h')), if_neg h, hextend]

end Word

namespace Condition

variable {n m x y : Nat}

/-- Unsigned predicates do not depend on the width. -/
theorem test_unsigned {c : Condition} (hc : c.isSigned = false) :
    c.test m x y = c.test n x y := by
  cases c with
  | slt | sle | sgt | sge => cases hc
  | _ => rfl

/-- Signed predicates read sign extensions as the words. -/
theorem test_extend {c : Condition} (hc : c.isSigned = true) (hn : 0 < n) (hnm : n ≤ m)
    (hm : m ≤ 128) (hx : x < 2 ^ n) (hy : y < 2 ^ n) :
    c.test m (Word.extend n m x) (Word.extend n m y) = c.test n x y := by
  have h₁ := Word.signed_extend hn hnm hm hx
  have h₂ := Word.signed_extend hn hnm hm hy
  cases c with
  | slt | sle | sgt | sge => simp only [test, h₁, h₂]
  | _ => cases hc

end Condition

end Dataflow
