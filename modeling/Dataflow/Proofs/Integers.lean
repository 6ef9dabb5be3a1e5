import Dataflow.Proofs.Words

/-!
# Words as integers

A word of `n` bits is a number below `2 ^ n`, and its two's complement value is an integer. At every
width a scalar type has, `binary_reference` says that each operation on words returns, that its
result is the exact operation on those numbers reduced to `n` bits, and that each comparison is the
order it names.
-/

namespace Dataflow

namespace Word

variable {n a b : Nat}

/-- The two's complement value of the low `n` bits of a number. -/
def toInt (n a : Nat) : Int :=
  (BitVec.ofNat n a).toInt

/-- The number below `2 ^ n` that is congruent to an integer. -/
def residue (n : Nat) (z : Int) : Nat :=
  (z % 2 ^ n).toNat

/-- What an operation means on the numbers and the integers that words stand for. -/
def reference (op : IntOp) (n a b : Nat) : Nat :=
  match op with
  | .add => (a + b) % 2 ^ n
  | .sub => residue n ((a : Int) - b)
  | .mul => a * b % 2 ^ n
  | .mulhu => a * b / 2 ^ n
  | .udiv => if b = 0 then 2 ^ n - 1 else a / b
  | .sdiv =>
    if b = 0 then (if 0 ≤ toInt n a then 2 ^ n - 1 else 1)
    else residue n ((toInt n a).tdiv (toInt n b))
  | .and => a &&& b
  | .or => a ||| b
  | .xor => a ^^^ b
  | .shl => a * 2 ^ b % 2 ^ n
  | .srl => a / 2 ^ b
  | .sra => residue n ((toInt n a).fdiv (2 ^ b))

/-! ### Residues -/

theorem residue_natCast (n a : Nat) : residue n a = a % 2 ^ n := by
  have hcast : (2 ^ n : Int) = ((2 ^ n : Nat) : Int) := (Int.natCast_pow 2 n).symm
  rw [residue, hcast, ← Int.natCast_mod, Int.toNat_natCast]

theorem residue_sub (hb : b ≤ 2 ^ n) (a : Nat) :
    residue n ((a : Int) - b) = (a + (2 ^ n - b)) % 2 ^ n := by
  have hcast : ((a + (2 ^ n - b) : Nat) : Int) = (a : Int) - b + 2 ^ n := by
    push_cast [Nat.cast_sub hb]
    omega
  rw [← residue_natCast, residue, residue, hcast, Int.add_emod_right]

theorem residue_neg (hb : b ≤ 2 ^ n) : residue n (-(b : Int)) = (2 ^ n - b) % 2 ^ n := by
  have hsub := residue_sub hb 0
  rwa [Nat.zero_add, Int.natCast_zero, Int.zero_sub] at hsub

/-! ### Two's complement -/

theorem toInt_eq (hn : 0 < n) (ha : a < 2 ^ n) :
    toInt n a = if 2 ^ (n - 1) ≤ a then (a : Int) - (2 ^ n : Nat) else a := by
  have hpow := two_pow_pred hn
  rw [toInt, BitVec.toInt_eq_toNat_cond, BitVec.toNat_ofNat, Nat.mod_eq_of_lt ha]
  by_cases hneg : 2 ^ (n - 1) ≤ a
  · rw [if_pos hneg, if_neg (by omega)]
  · rw [if_neg hneg, if_pos (by omega)]

/-- The value of a word that is moved to the top of the widest one and back. -/
theorem signed_eq_toInt (hn : 0 < n) (hn' : n ≤ 128) (ha : a < 2 ^ n) :
    signed n a = toInt n a := by
  rw [signed_eq hn hn' ha, toInt_eq hn ha]

theorem toInt_nonneg (hn : 0 < n) (ha : a < 2 ^ n) : 0 ≤ toInt n a ↔ ¬ 2 ^ (n - 1) ≤ a := by
  rw [toInt_eq hn ha]
  split <;> omega

/-- A value is its sign and its distance from zero. -/
theorem toInt_eq_magnitude (hn : 0 < n) (ha : a < 2 ^ n) :
    toInt n a = if 2 ^ (n - 1) ≤ a then -(magnitude n a : Int) else magnitude n a := by
  rw [toInt_eq hn ha, magnitude]
  split <;> omega

theorem magnitude_zero (n : Nat) : magnitude n 0 = 0 := by
  have hpos := Nat.two_pow_pos (n - 1)
  exact if_neg (by omega)

theorem magnitude_ne_zero (ha : a < 2 ^ n) (hne : a ≠ 0) : magnitude n a ≠ 0 := by
  unfold magnitude
  split <;> omega

/-! ### Operations -/

theorem value_sdiv_zero (hn : 0 < n) (ha : a < 2 ^ n) :
    value .sdiv n a 0 = if 0 ≤ toInt n a then 2 ^ n - 1 else 1 := by
  have hpow := two_pow_pred hn
  have hpos := Nat.two_pow_pos (n - 1)
  have hq : quotient n (magnitude n a) (magnitude n 0) = 2 ^ n - 1 := if_pos (magnitude_zero n)
  simp only [value, hq, toInt_nonneg hn ha]
  by_cases hneg : 2 ^ (n - 1) ≤ a
  · rw [if_neg (by omega), if_neg (by omega), Nat.mod_eq_of_lt (by omega)]
    omega
  · rw [if_pos (by omega), if_pos hneg]

/-- Magnitudes divide as naturals, and the signs are left to truncation. -/
theorem value_sdiv (hn : 0 < n) (ha : a < 2 ^ n) (hb : b < 2 ^ n) (hne : b ≠ 0) :
    value .sdiv n a b = residue n ((toInt n a).tdiv (toInt n b)) := by
  have hq : quotient n (magnitude n a) (magnitude n b) = magnitude n a / magnitude n b :=
    if_neg (magnitude_ne_zero hb hne)
  have hlt : magnitude n a / magnitude n b < 2 ^ n :=
    Nat.lt_of_le_of_lt (Nat.div_le_self ..) (magnitude_lt hn ha)
  have hsame : residue n ((magnitude n a / magnitude n b : Nat) : Int) =
      magnitude n a / magnitude n b := by
    rw [residue_natCast, Nat.mod_eq_of_lt hlt]
  simp only [value, hq]
  rw [toInt_eq_magnitude hn ha, toInt_eq_magnitude hn hb]
  by_cases hx : 2 ^ (n - 1) ≤ a <;> by_cases hy : 2 ^ (n - 1) ≤ b
  · rw [if_pos (iff_of_true hx hy), if_pos hx, if_pos hy, Int.neg_tdiv, Int.tdiv_neg, Int.neg_neg,
      ← Int.ofNat_tdiv, hsame]
  · rw [if_neg (fun h => hy (h.1 hx)), if_pos hx, if_neg hy, Int.neg_tdiv, ← Int.ofNat_tdiv,
      residue_neg hlt.le]
  · rw [if_neg (fun h => hx (h.2 hy)), if_neg hx, if_pos hy, Int.tdiv_neg, ← Int.ofNat_tdiv,
      residue_neg hlt.le]
  · rw [if_pos (iff_of_false hx hy), if_neg hx, if_neg hy, ← Int.ofNat_tdiv, hsame]

/-- Copies of the sign move in: the quotient by a power of two goes down. -/
theorem value_sra (hn : 0 < n) (ha : a < 2 ^ n) (k : Nat) :
    value .sra n a k = residue n ((toInt n a).fdiv (2 ^ k)) := by
  have hcast : (2 ^ k : Int) = ((2 ^ k : Nat) : Int) := (Int.natCast_pow 2 k).symm
  have hpos : (0 : Int) < (2 ^ k : Nat) := by
    have := Nat.two_pow_pos k
    omega
  rw [value, toInt_eq hn ha, hcast, Int.fdiv_eq_ediv_of_nonneg _ hpos.le]
  split
  · have hle : (2 ^ n - 1 - a) / 2 ^ k ≤ 2 ^ n - 1 - a := Nat.div_le_self ..
    have hcomplement : (a : Int) - (2 ^ n : Nat) = Int.negSucc (2 ^ n - 1 - a) := by omega
    have hdown : Int.negSucc (2 ^ n - 1 - a) / (2 ^ k : Nat) =
        -(((2 ^ n - 1 - a) / 2 ^ k + 1 : Nat) : Int) := Int.negSucc_ediv _ hpos
    rw [hcomplement, hdown, residue_neg (by omega),
      Nat.mod_eq_of_lt (Nat.sub_lt (Nat.two_pow_pos n) (Nat.succ_pos _)), Nat.sub_sub _ 1,
      Nat.add_comm 1]
  · rw [← Int.natCast_ediv, residue_natCast,
      Nat.mod_eq_of_lt (Nat.lt_of_le_of_lt (Nat.div_le_self ..) ha)]

theorem value_eq_reference (op : IntOp) (hn : 0 < n) (ha : a < 2 ^ n) (hb : b < 2 ^ n) :
    value op n a b = reference op n a b := by
  cases op with
  | sub => exact (residue_sub hb.le a).symm
  | sdiv =>
    rw [reference]
    split
    · next h => rw [h, value_sdiv_zero hn ha]
    · next h => exact value_sdiv hn ha hb h
  | sra => exact value_sra hn ha b
  | add | mul | mulhu | udiv | and | or | xor | shl | srl => rfl

end Word

namespace Condition

/-- The relation a comparison names, between the numbers or the two's complement values. -/
def Relates (c : Condition) (n a b : Nat) : Prop :=
  match c with
  | eq => a = b
  | ne => a ≠ b
  | ult => a < b
  | ule => a ≤ b
  | ugt => a > b
  | uge => a ≥ b
  | slt => Word.toInt n a < Word.toInt n b
  | sle => Word.toInt n a ≤ Word.toInt n b
  | sgt => Word.toInt n a > Word.toInt n b
  | sge => Word.toInt n a ≥ Word.toInt n b

theorem test_iff_relates {n a b : Nat} (c : Condition) (hn : 0 < n) (hn' : n ≤ 128)
    (ha : a < 2 ^ n) (hb : b < 2 ^ n) : c.test n a b = true ↔ c.Relates n a b := by
  have hsigned := Word.signed_eq_toInt hn hn' ha
  have hsigned' := Word.signed_eq_toInt hn hn' hb
  cases c <;> simp [test, Relates, hsigned, hsigned']

end Condition

namespace Word

/-- Checked sums, products, quotients and shifts make up every operation, so a result is also an
evaluation in which nothing overflows and nothing is divided by zero. -/
theorem binary_reference {n a b : Nat} (hn : n ∈ [1, 8, 16, 32, 64, 128]) (ha : a < 2 ^ n)
    (hb : b < 2 ^ n) :
    (∀ op, binary op n a b = .ok (reference op n a b) ∧ reference op n a b < 2 ^ n) ∧
      (n = 128 → mulHigh a b = .ok (a * b / 2 ^ n)) ∧
      (∀ k, ∀ op ∈ [IntOp.shl, .srl, .sra], binary op n a k = .ok (reference op n a k)) ∧
      ∀ c : Condition, ∃ r, c.holds n a b = .ok r ∧ (r = true ↔ c.Relates n a b) := by
  have hwidth : 0 < n ∧ (n ≤ 64 ∨ n = 128) := by
    simp only [List.mem_cons, List.not_mem_nil, or_false] at hn
    omega
  obtain ⟨hpos, hsmall⟩ := hwidth
  have hle : n ≤ 128 := by omega
  refine ⟨fun op => ?_, ?_, fun k op hop => ?_, fun c => ?_⟩
  · rw [← value_eq_reference op hpos ha hb]
    exact ⟨binary_eq op hpos hsmall ha hb, value_lt op hpos ha hb⟩
  · rintro rfl
    exact mulHigh_eq ha hb
  · have hshift : op = .shl ∨ op = .srl ∨ op = .sra := by simpa using hop
    rw [binary_shift hshift hpos hsmall ha k]
    rcases hshift with rfl | rfl | rfl
    · rfl
    · rfl
    · rw [value_sra hpos ha, reference]
  · exact ⟨_, Condition.holds_eq hpos c a b, Condition.test_iff_relates c hpos hle ha hb⟩

/-- The least value has no negation, and its product with all ones fills both halves. -/
theorem binary_reference_least :
    128 ∈ [1, 8, 16, 32, 64, 128] ∧ 2 ^ 127 < 2 ^ 128 ∧ 2 ^ 128 - 1 < 2 ^ 128 ∧
      binary .sdiv 128 (2 ^ 127) (2 ^ 128 - 1) = .ok (2 ^ 127) ∧
      binary .mulhu 128 (2 ^ 127) (2 ^ 128 - 1) = .ok (2 ^ 127 - 1) ∧
      binary .sra 128 (2 ^ 127) 200 = .ok (2 ^ 128 - 1) ∧
      Condition.slt.holds 128 (2 ^ 127) (2 ^ 128 - 1) = .ok true := by
  have hwidth : 128 ∈ [1, 8, 16, 32, 64, 128] := by decide
  obtain ⟨hops, -, hshifts, htests⟩ :=
    binary_reference hwidth (a := 2 ^ 127) (b := 2 ^ 128 - 1) (by decide) (by decide)
  obtain ⟨r, hless, hr⟩ := htests .slt
  have htrue : r = true := hr.2 (by decide : toInt 128 (2 ^ 127) < toInt 128 (2 ^ 128 - 1))
  exact ⟨hwidth, by decide, by decide, (hops .sdiv).1, (hops .mulhu).1,
    hshifts 200 .sra (by decide), htrue ▸ hless⟩

end Word

end Dataflow
