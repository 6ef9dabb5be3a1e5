import Dataflow.BitString
import Dataflow.Eval.Error
import Dataflow.Proofs.Typing
import Mathlib.Data.Nat.Digits.Defs
import Mathlib.Tactic.Ring

/-!
# Data as numbers

The bits of a datum are a number, its lanes the digits of that number, the lowest first. A datum of
a type and a bit string of a length are determined by their numbers, so reinterpretation, reading
and observation are arithmetic on numbers.
-/

namespace Dataflow

@[simp] theorem ok_bind {α β ε : Type} (a : α) (f : α → Except ε β) :
    (Except.ok a >>= f) = f a := rfl

theorem bind_eq_ok_iff {α β ε : Type} {x : Except ε α} {f : α → Except ε β} {b : β} :
    (x >>= f) = .ok b ↔ ∃ a, x = .ok a ∧ f a = .ok b := by
  cases x with
  | error e =>
    constructor
    · intro h
      cases h
    · rintro ⟨a, h, _⟩
      cases h
  | ok a => simp only [ok_bind, Except.ok.injEq, exists_eq_left']

@[simp] theorem liftM_ok {α : Type} (a : α) :
    (liftM (Except.ok a : Except Fault α) : Except EvalError α) = .ok a := rfl

theorem mapM_of_ok {α β ε : Type} {f : α → Except ε β} {g : α → β} {xs : List α}
    (h : ∀ x ∈ xs, f x = .ok (g x)) : xs.mapM f = .ok (xs.map g) := by
  induction xs with
  | nil => rfl
  | cons x xs ih =>
    rw [List.mapM_cons, h x List.mem_cons_self, ih fun y hy => h y (List.mem_cons_of_mem x hy)]
    rfl

theorem mapM_append_eq_ok {α β ε : Type} {f : α → Except ε β} {xs ys : List α} {zs : List β} :
    (xs ++ ys).mapM f = .ok zs ↔
      ∃ as bs, xs.mapM f = .ok as ∧ ys.mapM f = .ok bs ∧ zs = as ++ bs := by
  rw [List.mapM_append]
  cases xs.mapM f with
  | error e =>
    simp only [reduceCtorEq, false_and, exists_false, iff_false]
    nofun
  | ok as =>
    cases ys.mapM f with
    | error e =>
      simp only [reduceCtorEq, and_false, false_and, exists_false, iff_false]
      nofun
    | ok bs =>
      show Except.ok (as ++ bs) = _ ↔ _
      simp [eq_comm]

theorem mapM_mono_ok {α β ε : Type} {f g : α → Except ε β} (h : ∀ x y, f x = .ok y → g x = .ok y)
    {xs : List α} {ys : List β} (hf : xs.mapM f = .ok ys) : xs.mapM g = .ok ys := by
  induction xs generalizing ys with
  | nil => exact hf
  | cons x xs ih =>
    rw [List.mapM_cons] at hf ⊢
    cases hx : f x with
    | error e => rw [hx] at hf; cases hf
    | ok y =>
      cases hxs : xs.mapM f with
      | error e => rw [hx, hxs] at hf; cases hf
      | ok zs =>
        rw [hx, hxs] at hf
        rw [h x y hx, ih hxs]
        exact hf

/-! ### Limbs -/

namespace Word

variable {w n a b : Nat}

@[simp] theorem bound_eq (n : Nat) : bound n = 2 ^ n := rfl

/-- The lowest `n` digits of `w` bits of a number. -/
def limbs (w : Nat) : Nat → Nat → List Nat
  | 0, _ => []
  | n + 1, a => a % 2 ^ w :: limbs w n (a / 2 ^ w)

@[simp] theorem length_limbs (w n a : Nat) : (limbs w n a).length = n := by
  induction n generalizing a with
  | zero => rfl
  | succ n ih => simp [limbs, ih]

theorem lt_of_mem_limbs {x : Nat} (hx : x ∈ limbs w n a) : x < 2 ^ w := by
  induction n generalizing a with
  | zero => simp [limbs] at hx
  | succ n ih =>
    rcases List.mem_cons.1 hx with rfl | hx
    · exact Nat.mod_lt _ (Nat.two_pow_pos w)
    · exact ih hx

theorem ofDigits_limbs (w n a : Nat) : Nat.ofDigits (2 ^ w) (limbs w n a) = a % 2 ^ (w * n) := by
  induction n generalizing a with
  | zero => simp [limbs, Nat.mod_one]
  | succ n ih =>
    rw [limbs, Nat.ofDigits_cons, ih, Nat.mul_succ, Nat.add_comm (w * n), Nat.pow_add, Nat.mod_mul]

theorem limbs_ofDigits {l : List Nat} (h : ∀ x ∈ l, x < 2 ^ w) :
    limbs w l.length (Nat.ofDigits (2 ^ w) l) = l := by
  induction l with
  | nil => rfl
  | cons x l ih =>
    have hx := h x List.mem_cons_self
    rw [List.length_cons, limbs, Nat.ofDigits_cons, Nat.add_mul_mod_self_left, Nat.mod_eq_of_lt hx,
      Nat.add_mul_div_left _ _ (Nat.two_pow_pos w), Nat.div_eq_of_lt hx, Nat.zero_add,
      ih fun y hy => h y (List.mem_cons_of_mem x hy)]

theorem ofDigits_lt {l : List Nat} (h : ∀ x ∈ l, x < 2 ^ w) :
    Nat.ofDigits (2 ^ w) l < 2 ^ (w * l.length) := by
  have hlimbs := ofDigits_limbs w l.length (Nat.ofDigits (2 ^ w) l)
  rw [limbs_ofDigits h] at hlimbs
  rw [hlimbs]
  exact Nat.mod_lt _ (Nat.two_pow_pos _)

theorem ofDigits_append (l m : List Nat) : Nat.ofDigits (2 ^ w) (l ++ m) =
    Nat.ofDigits (2 ^ w) l + 2 ^ (w * l.length) * Nat.ofDigits (2 ^ w) m := by
  rw [Nat.ofDigits_append, Nat.pow_mul]

theorem getElem?_limbs (w n a : Nat) {i : Nat} (hi : i < n) :
    (limbs w n a)[i]? = some (a / 2 ^ (w * i) % 2 ^ w) := by
  induction n generalizing a i with
  | zero => omega
  | succ n ih =>
    cases i with
    | zero => simp [limbs]
    | succ i =>
      rw [limbs, List.getElem?_cons_succ, ih _ (by omega), Nat.div_div_eq_div_mul, ← Nat.pow_add,
        Nat.mul_succ, Nat.add_comm w]

theorem limbs_eq_map (w n a : Nat) :
    limbs w n a = (List.range n).map fun i => a / 2 ^ (w * i) % 2 ^ w := by
  refine List.ext_getElem? fun i => ?_
  by_cases hi : i < n
  · rw [getElem?_limbs w n a hi, List.getElem?_map, List.getElem?_range hi]
    rfl
  · rw [List.getElem?_eq_none (by rw [length_limbs]; omega), List.getElem?_eq_none (by simp; omega)]

end Word

/-! ### Bit strings -/

namespace BitString

theorem number_lt (l : List Bool) : number l < 2 ^ l.length := by
  induction l with
  | nil => decide
  | cons b l ih =>
    have hb : b.toNat ≤ 1 := Bool.toNat_le b
    rw [number, List.length_cons, Nat.pow_succ]
    omega

theorem number_append (l m : List Bool) :
    number (l ++ m) = number l + 2 ^ l.length * number m := by
  induction l with
  | nil => simp [number]
  | cons b l ih =>
    rw [List.cons_append, number, number, ih, List.length_cons, Nat.pow_succ]
    ring

theorem eq_of_number_eq {l m : List Bool} (hlen : l.length = m.length)
    (h : number l = number m) : l = m := by
  induction l generalizing m with
  | nil => exact (List.length_eq_zero_iff.1 hlen.symm).symm
  | cons b l ih =>
    cases m with
    | nil => cases hlen
    | cons c m =>
      have hb : b.toNat ≤ 1 := Bool.toNat_le b
      have hc : c.toNat ≤ 1 := Bool.toNat_le c
      rw [number, number] at h
      have hbc : b = c := by
        have : b.toNat = c.toNat := by omega
        cases b <;> cases c <;> first | rfl | cases this
      rw [hbc, ih (Nat.succ.inj hlen) (by omega)]

theorem number_take_drop (l : List Bool) (k w : Nat) :
    number ((l.drop k).take w) = number l / 2 ^ k % 2 ^ w := by
  have htake (m : List Bool) : number (m.take w) = number m % 2 ^ w := by
    by_cases hw : w ≤ m.length
    · conv_rhs => rw [← List.take_append_drop w m, number_append, List.length_take_of_le hw]
      have hlt := number_lt (m.take w)
      rw [List.length_take_of_le hw] at hlt
      rw [Nat.add_mul_mod_self_left, Nat.mod_eq_of_lt hlt]
    · rw [List.take_of_length_le (by omega)]
      exact (Nat.mod_eq_of_lt (Nat.lt_of_lt_of_le (number_lt m)
        (Nat.pow_le_pow_right (by decide) (by omega)))).symm
  have hdrop : number (l.drop k) = number l / 2 ^ k := by
    by_cases hk : k ≤ l.length
    · conv_rhs => rw [← List.take_append_drop k l, number_append, List.length_take_of_le hk]
      have hlt := number_lt (l.take k)
      rw [List.length_take_of_le hk] at hlt
      rw [Nat.add_mul_div_left _ _ (Nat.two_pow_pos k), Nat.div_eq_of_lt hlt, Nat.zero_add]
    · rw [List.drop_of_length_le (by omega), number]
      exact (Nat.div_eq_of_lt (Nat.lt_of_lt_of_le (number_lt l)
        (Nat.pow_le_pow_right (by decide) (by omega)))).symm
  rw [htake, hdrop]

/-- The bit string of a length and a number. -/
def ofNumber (length a : Nat) : BitString :=
  ⟨(List.range length).map a.testBit⟩

theorem length_ofNumber (n a : Nat) : (ofNumber n a).bits.length = n := by
  simp [ofNumber]

theorem number_ofNumber (n a : Nat) : number (ofNumber n a).bits = a % 2 ^ n := by
  induction n generalizing a with
  | zero => simp [ofNumber, number, Nat.mod_one]
  | succ n ih =>
    have hmap : (ofNumber (n + 1) a).bits = a.testBit 0 :: (ofNumber n (a / 2)).bits := by
      simp only [ofNumber, List.range_succ_eq_map, List.map_cons, List.map_map]
      congr 1
      refine List.map_congr_left fun i _ => ?_
      simp [Nat.testBit_succ]
    rw [hmap, number, ih, Nat.pow_succ', Nat.mod_mul, Nat.testBit_zero]
    rcases Nat.mod_two_eq_zero_or_one a with h | h <;> simp [h]

theorem getElem?_ofNumber (n a j : Nat) :
    (ofNumber n a).bits[j]? = if j < n then some (a.testBit j) else none := by
  by_cases h : j < n <;> simp [ofNumber, h]

theorem take_ofNumber {m n : Nat} (h : m ≤ n) (a : Nat) :
    (ofNumber n a).bits.take m = (ofNumber m a).bits := by
  simp only [ofNumber, ← List.map_take, List.take_range, Nat.min_eq_left h]

theorem eq_ofNumber {s : BitString} {n a : Nat} (hlen : s.bits.length = n)
    (h : number s.bits = a % 2 ^ n) : s = ofNumber n a := by
  cases s with
  | mk bits =>
    have : bits = (ofNumber n a).bits := eq_of_number_eq (by rw [hlen, length_ofNumber])
      (by rw [h, number_ofNumber])
    rw [this]

theorem ofNumber_congr {n a b : Nat} (h : a % 2 ^ n = b % 2 ^ n) : ofNumber n a = ofNumber n b :=
  eq_ofNumber (length_ofNumber ..) (by rw [number_ofNumber, h])

theorem ofNumber_append (m n a b : Nat) :
    ofNumber m a ++ ofNumber n b = ofNumber (m + n) (a % 2 ^ m + 2 ^ m * b) := by
  have happend : (ofNumber m a ++ ofNumber n b).bits = (ofNumber m a).bits ++ (ofNumber n b).bits :=
    rfl
  refine eq_ofNumber ?_ ?_
  · rw [happend, List.length_append, length_ofNumber, length_ofNumber]
  · have hlt := Nat.mod_lt a (Nat.two_pow_pos m)
    rw [happend, number_append, number_ofNumber, number_ofNumber, length_ofNumber, Nat.pow_add,
      Nat.mod_mul, Nat.add_mul_mod_self_left, Nat.mod_eq_of_lt hlt,
      Nat.add_mul_div_left _ _ (Nat.two_pow_pos m), Nat.div_eq_of_lt hlt, Nat.zero_add]

theorem ofWord_eq {w : Nat} (hw : w ≤ 128) (a : Nat) : ofWord w a = ofNumber w a := by
  unfold ofWord ofNumber
  congr 1
  refine List.map_congr_left fun i hi => ?_
  have : i < Word.maxBits := Nat.lt_of_lt_of_le (List.mem_range.1 hi) hw
  simp [this]

theorem resize_ofNumber (n a w : Nat) : (ofNumber n a).resize w = ofNumber w (a % 2 ^ n) := by
  have hzero (k : Nat) : number (List.replicate k false) = 0 := by
    induction k with
    | zero => rfl
    | succ k ih => rw [List.replicate_succ, number, ih]; rfl
  refine eq_ofNumber ?_ ?_
  · simp only [resize, length, List.length_append, List.length_take, List.length_replicate,
      length_ofNumber]
    omega
  · have htake := number_take_drop (ofNumber n a).bits 0 w
    rw [List.drop_zero, Nat.pow_zero, Nat.div_one, number_ofNumber] at htake
    rw [resize, number_append, hzero, Nat.mul_zero, Nat.add_zero, htake]

end BitString

/-! ### Data -/

namespace Datum

variable {t u : ValueType} {d d' : Datum} {a b : Nat} {l : List Nat}

/-- `d` is a datum of type `t`: a vector or a scalar like `t`, with lanes in range. -/
structure Fits (d : Datum) (t : ValueType) : Prop where
  shape : ofLanes t d.lanes = .ok d
  length : d.lanes.length = t.laneCount
  lt : ∀ x ∈ d.lanes, x < 2 ^ t.laneBits

/-- The bits of a datum of type `t`, as one number. -/
def number (t : ValueType) (d : Datum) : Nat :=
  Nat.ofDigits (2 ^ t.laneBits) d.lanes

/-- The datum of type `t` with the given bits. -/
def ofNumber (t : ValueType) (a : Nat) : Datum :=
  if t.isVector then vector (Word.limbs t.laneBits t.lanes a) else scalar (a % 2 ^ t.bits)

theorem ofLanes_scalar (h : t.isVector = false) (x : Nat) : ofLanes t [x] = .ok (scalar x) := by
  simp [ofLanes, h]

theorem ofLanes_vector (h : t.isVector = true) (l : List Nat) : ofLanes t l = .ok (vector l) := by
  simp [ofLanes, h]

theorem fits_scalar {x : Nat} :
    (scalar x).Fits t ↔ t.isVector = false ∧ x < 2 ^ t.bits := by
  constructor
  · intro h
    have hvector : t.isVector = false := by
      have hshape := h.shape
      unfold ofLanes at hshape
      split at hshape
      · cases hshape
      · next hv => exact Bool.eq_false_of_not_eq_true hv
    exact ⟨hvector, ValueType.bits_eq_laneBits hvector ▸ h.lt x (by simp [lanes])⟩
  · rintro ⟨hvector, hx⟩
    refine ⟨ofLanes_scalar hvector x, (ValueType.laneCount_eq_one hvector).symm, fun y hy => ?_⟩
    rw [List.mem_singleton.1 hy, ← ValueType.bits_eq_laneBits hvector]
    exact hx

theorem fits_vector : (vector l).Fits t ↔
    t.isVector = true ∧ l.length = t.lanes ∧ ∀ x ∈ l, x < 2 ^ t.laneBits := by
  constructor
  · intro h
    have hvector : t.isVector = true := by
      have hshape := h.shape
      unfold ofLanes at hshape
      split at hshape
      · assumption
      · split at hshape <;> cases hshape
    exact ⟨hvector, ValueType.laneCount_eq_lanes hvector ▸ h.length, h.lt⟩
  · rintro ⟨hvector, hlen, hlt⟩
    exact ⟨ofLanes_vector hvector l, ValueType.laneCount_eq_lanes hvector ▸ hlen, hlt⟩

theorem Fits.eq_scalar (h : d.Fits t) (ht : t.isVector = false) :
    ∃ x, d = scalar x ∧ x < 2 ^ t.bits := by
  cases d with
  | scalar x => exact ⟨x, rfl, (fits_scalar.1 h).2⟩
  | vector l =>
    rw [(fits_vector.1 h).1] at ht
    cases ht

theorem Fits.eq_vector (h : d.Fits t) (ht : t.isVector = true) :
    ∃ l, d = vector l ∧ l.length = t.lanes ∧ ∀ x ∈ l, x < 2 ^ t.laneBits := by
  cases d with
  | scalar x =>
    rw [(fits_scalar.1 h).1] at ht
    cases ht
  | vector l => exact ⟨l, rfl, (fits_vector.1 h).2⟩

theorem lanes_ofNumber (t : ValueType) (a : Nat) :
    (ofNumber t a).lanes = Word.limbs t.laneBits t.laneCount a := by
  unfold ofNumber
  split
  · next h => rw [ValueType.laneCount_eq_lanes h]; rfl
  · next h =>
    rw [Bool.not_eq_true] at h
    rw [ValueType.laneCount_eq_one h, ValueType.bits_eq_laneBits h]
    rfl

theorem fits_ofNumber (t : ValueType) (a : Nat) : (ofNumber t a).Fits t := by
  unfold ofNumber
  split
  · next h => exact fits_vector.2 ⟨h, Word.length_limbs .., fun x => Word.lt_of_mem_limbs⟩
  · next h =>
    exact fits_scalar.2 ⟨Bool.eq_false_of_not_eq_true h, Nat.mod_lt _ (Nat.two_pow_pos _)⟩

theorem number_ofNumber (t : ValueType) (a : Nat) : number t (ofNumber t a) = a % 2 ^ t.bits := by
  rw [number, lanes_ofNumber, Word.ofDigits_limbs, ValueType.bits_eq_mul]

theorem Fits.number_lt (h : d.Fits t) : number t d < 2 ^ t.bits := by
  have := Word.ofDigits_lt h.lt
  rwa [h.length] at this

/-- The bits of a value of one lane are those of the lane. -/
theorem Fits.lanes_eq (h : d.Fits t) (hone : t.laneCount = 1) : d.lanes = [number t d] := by
  obtain ⟨x, hx⟩ := List.length_eq_one_iff.1 (h.length.trans hone)
  rw [number, hx, Nat.ofDigits_singleton]

theorem Fits.ofNumber_number (h : d.Fits t) : ofNumber t (number t d) = d := by
  cases ht : t.isVector with
  | false =>
    obtain ⟨x, rfl, hx⟩ := h.eq_scalar ht
    simp [ofNumber, ht, number, lanes, Nat.mod_eq_of_lt hx]
  | true =>
    obtain ⟨l, rfl, hlen, hlt⟩ := h.eq_vector ht
    rw [ofNumber, if_pos ht, number, lanes, ← hlen, Word.limbs_ofDigits hlt]

theorem ofNumber_mod (t : ValueType) (a : Nat) : ofNumber t (a % 2 ^ t.bits) = ofNumber t a := by
  have h := (fits_ofNumber t a).ofNumber_number
  rwa [number_ofNumber] at h

theorem ofNumber_eq_iff : ofNumber t a = ofNumber t b ↔ a % 2 ^ t.bits = b % 2 ^ t.bits := by
  constructor
  · intro h
    rw [← number_ofNumber, h, number_ofNumber]
  · intro h
    rw [← ofNumber_mod, h, ofNumber_mod]

/-- Lanes stay what they are at another type of the same lane width. -/
theorem Fits.ofNumber_relaned {u : ValueType} (h : d.Fits u) (ht : t.isVector = true)
    (hu : u.isVector = true) (hbits : t.laneBits = u.laneBits) (hlanes : t.lanes = u.lanes) :
    ofNumber t (number u d) = d := by
  obtain ⟨l, rfl, hlen, hlt⟩ := h.eq_vector hu
  have hfits : (vector l).Fits t := fits_vector.2 ⟨ht, by rw [hlen, hlanes], by rwa [hbits]⟩
  have hnumber : number u (vector l) = number t (vector l) := by rw [number, number, hbits]
  rw [hnumber, hfits.ofNumber_number]

@[simp] theorem number_scalar (t : ValueType) (x : Nat) : number t (scalar x) = x := by
  simp [number, lanes]

theorem ofNumber_word (h : t.isVector = false) (a : Nat) :
    ofNumber t a = scalar (a % 2 ^ t.bits) := by
  simp [ofNumber, h]

/-- The bits of two half vectors, the low one first. -/
theorem number_append (h : t.half? = some u) {m : List Nat} (hl : l.length = u.lanes) :
    number t (vector (l ++ m)) = number u (vector l) + 2 ^ u.bits * number u (vector m) := by
  obtain ⟨_, hu, _, _⟩ := ValueType.half?_eq_some h
  rw [number, number, number, (ValueType.bits_half h).1, lanes, lanes, lanes, Word.ofDigits_append,
    hl, ValueType.bits_eq_mul, ValueType.laneCount_eq_lanes hu]

/-- The vector that two half vectors make up. -/
theorem ofNumber_halves (h : t.half? = some u) {m : List Nat} (hl : (vector l).Fits u)
    (hm : (vector m).Fits u) :
    ofNumber t (number u (vector l) + 2 ^ u.bits * number u (vector m)) = vector (l ++ m) := by
  obtain ⟨_, hlen, hlt⟩ := fits_vector.1 hl
  obtain ⟨_, hlen', hlt'⟩ := fits_vector.1 hm
  obtain ⟨hvector, _, _, hlanes⟩ := ValueType.half?_eq_some h
  have hfits : (vector (l ++ m)).Fits t := by
    refine fits_vector.2 ⟨hvector, by rw [List.length_append]; omega, fun x hx => ?_⟩
    rw [(ValueType.bits_half h).1]
    rcases List.mem_append.1 hx with hx | hx
    · exact hlt x hx
    · exact hlt' x hx
  rw [← number_append h hlen, hfits.ofNumber_number]

end Datum

/-! ### Layout -/

namespace BitString

variable {t : ValueType} {d : Datum}

theorem append_assoc (s s' s'' : BitString) : s ++ s' ++ s'' = s ++ (s' ++ s'') :=
  congrArg mk (List.append_assoc ..)

theorem append_empty (s : BitString) : s ++ empty = s :=
  congrArg mk (List.append_nil _)

theorem empty_append (s : BitString) : empty ++ s = s := rfl

/-- Bit strings one after the other. -/
def join (l : List BitString) : BitString :=
  l.foldr (· ++ ·) empty

theorem join_append (l m : List BitString) : join (l ++ m) = join l ++ join m := by
  induction l with
  | nil => rfl
  | cons s l ih => rw [List.cons_append, join, List.foldr_cons, ← join, ih, ← append_assoc]; rfl

theorem foldl_push (w : Nat) (l : List Nat) (s s' : BitString) :
    l.foldl (·.push · w) (s ++ s') = s ++ l.foldl (·.push · w) s' := by
  induction l generalizing s' with
  | nil => rfl
  | cons x l ih => rw [List.foldl_cons, List.foldl_cons, push, push, append_assoc, ih]

theorem pushDatum_eq (s : BitString) (d : Datum) (t : ValueType) :
    s.pushDatum d t = s ++ ofDatum d t := by
  have h := foldl_push t.laneBits d.lanes s empty
  rwa [append_empty] at h

/-- A datum is laid out as the bits of its number. -/
theorem ofDatum_eq (h : d.Fits t) : ofDatum d t = ofNumber t.bits (d.number t) := by
  have hfold (l : List Nat) (hl : ∀ x ∈ l, x < 2 ^ t.laneBits) :
      l.foldl (·.push · t.laneBits) empty =
        ofNumber (t.laneBits * l.length) (Nat.ofDigits (2 ^ t.laneBits) l) := by
    induction l with
    | nil => rfl
    | cons x l ih =>
      have hpush : empty.push x t.laneBits = ofWord t.laneBits x ++ empty :=
        (append_empty _).symm
      rw [List.foldl_cons, hpush, foldl_push, ih fun y hy => hl y (List.mem_cons_of_mem x hy),
        ofWord_eq t.laneBits_le, ofNumber_append, Nat.mod_eq_of_lt (hl x List.mem_cons_self),
        Nat.ofDigits_cons, List.length_cons, Nat.mul_succ, Nat.add_comm t.laneBits]
  rw [ValueType.bits_eq_mul, ← h.length]
  exact hfold _ h.lt

/-- Reading a datum cuts it out of the number of a bit string. -/
theorem readDatum_eq (s : BitString) {offset : Nat} (h : offset + t.bits ≤ 2 ^ 32) :
    s.readDatum offset t = .ok (Datum.ofNumber t (number s.bits / 2 ^ offset)) := by
  have hread (i : Nat) (hi : i ∈ List.range t.laneCount) :
      s.read (offset + i * t.laneBits) t.laneBits =
        .ok (number s.bits / 2 ^ offset / 2 ^ (t.laneBits * i) % 2 ^ t.laneBits) := by
    have hwidth : min t.laneBits Word.maxBits = t.laneBits := Nat.min_eq_left t.laneBits_le
    have hend : offset + i * t.laneBits + t.laneBits ≤ 2 ^ 32 := by
      have hle : (i + 1) * t.laneBits ≤ t.laneCount * t.laneBits :=
        Nat.mul_le_mul_right _ (List.mem_range.1 hi)
      rw [ValueType.bits_eq_mul, Nat.mul_comm] at h
      rw [Nat.succ_mul] at hle
      omega
    simp only [read, hwidth]
    rw [if_pos (.inr hend), number_take_drop, Nat.pow_add, ← Nat.div_div_eq_div_mul,
      Nat.mul_comm i]
  unfold readDatum
  rw [mapM_of_ok hread, ← Word.limbs_eq_map]
  show (Datum.ofLanes t (Word.limbs _ _ _) : Except Fault Datum) = _
  rw [← Datum.lanes_ofNumber]
  exact (Datum.fits_ofNumber t _).shape

/-- The bits of a datum at another type of the same width. -/
theorem readDatum_ofDatum {u : ValueType} (h : d.Fits u) (hbits : u.bits = t.bits) :
    (ofDatum d u).readDatum 0 t = .ok (Datum.ofNumber t (d.number u)) := by
  have hle := t.bits_le
  rw [readDatum_eq _ (by omega), ofDatum_eq h, number_ofNumber, Nat.pow_zero, Nat.div_one, hbits,
    Datum.ofNumber_mod]

end BitString

end Dataflow
