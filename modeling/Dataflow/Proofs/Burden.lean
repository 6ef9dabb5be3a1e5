import Dataflow.Proofs.Typing
import Mathlib.Data.List.Forall2
import Mathlib.Data.Prod.Lex

/-!
# Burdens

How far a node is from being legal. Whatever a rule makes of a node is lighter than the node: its
illegal types are narrower or simpler, or an operation of an earlier stage works at the same types,
or the operation is the same and one of its types has become simpler.
-/

namespace Dataflow

/-- An operation may be rewritten into operations of earlier stages at the same types. -/
def Opcode.stage : Opcode → Nat
  | .truncate => 1
  | .int .udiv => 2
  | .int .sdiv | .bitcast => 3
  | .buildPair | .extractElement => 4
  | .vectorShuffle => 5
  | _ => 0

theorem Opcode.stage_le (op : Opcode) : op.stage ≤ 5 := by
  cases op with
  | int op => cases op <;> decide
  | count | float => exact Nat.zero_le 5
  | _ => decide

/-- What a type of the given weight counts in an operation of a stage. -/
def charge (stage weight : Nat) : Nat :=
  if weight = 0 then 0 else 8 * weight + stage

section
variable {stage stage' w w' : Nat}

@[simp] theorem charge_zero (stage : Nat) : charge stage 0 = 0 := rfl

theorem charge_pos (hw : 0 < w) : 0 < charge stage w := by
  rw [charge, if_neg (by omega)]
  omega

theorem charge_mono (hs : stage ≤ stage') (hw : w ≤ w') : charge stage w ≤ charge stage' w' := by
  unfold charge
  split <;> split <;> omega

/-- Weight counts before stage. -/
theorem charge_lt_of_lt (hs : stage ≤ 5) (hw : w < w') : charge stage w < charge stage' w' := by
  unfold charge
  split <;> split <;> omega

theorem charge_lt_of_stage (hs : stage < stage') (hw : w ≤ w') (hpos : 0 < w') :
    charge stage w < charge stage' w' := by
  unfold charge
  split <;> split <;> omega

end

namespace Target

variable (T : Target) {op op' : Opcode} {t u : ValueType} {ts ts' : List ValueType}

/-- How far a type is from a legal one. Width counts first; vectors are harder than scalars, and
floats than integers. -/
def weight (t : ValueType) : Nat :=
  if T.classify t = .legal then 0 else 4 * t.bits ^ 2 + 2 * t.isVector.toNat + t.isFloat.toNat

/-- A pair of promoted halves is joined as an integer of the width of the result. -/
def jointWeight : Opcode → List ValueType → Nat
  | .buildPair, [t, u, _] => if T.classify u = .promoteInteger then 4 * t.bits ^ 2 else 0
  | _, _ => 0

/-- The greatest charge among the types of an operation, the result first. -/
def height (op : Opcode) (ts : List ValueType) : Nat :=
  ((T.jointWeight op ts :: ts.map T.weight).map (charge op.stage)).foldr max 0

def load (ts : List ValueType) : Nat :=
  (ts.map T.weight).sum

/-- The burden of an operation on values of the given types, the result first. -/
def burden (op : Opcode) (ts : List ValueType) : Nat ×ₗ Nat :=
  toLex (T.height op ts, T.load ts)

variable {T}

/-! ### Weights -/

theorem weight_of_legal (h : T.classify t = .legal) : T.weight t = 0 := if_pos h

theorem weight_of_illegal (h : T.classify t ≠ .legal) :
    T.weight t = 4 * t.bits ^ 2 + 2 * t.isVector.toNat + t.isFloat.toNat := if_neg h

theorem weight_pos (h : T.classify t ≠ .legal) : 0 < T.weight t := by
  have := Nat.pow_pos (n := 2) t.bits_pos
  rw [weight_of_illegal h]
  omega

theorem weight_le (t : ValueType) :
    T.weight t ≤ 4 * t.bits ^ 2 + 2 * t.isVector.toNat + t.isFloat.toNat := by
  unfold weight
  split <;> omega

theorem weight_lt_of_bits_lt (hu : T.classify u ≠ .legal) (h : t.bits < u.bits) :
    T.weight t < T.weight u := by
  have hle := weight_le (T := T) t
  have hv : t.isVector.toNat ≤ 1 := Bool.toNat_le _
  have hf : t.isFloat.toNat ≤ 1 := Bool.toNat_le _
  have hsq : (t.bits + 1) ^ 2 ≤ u.bits ^ 2 := Nat.pow_le_pow_left h 2
  have hexpand : (t.bits + 1) ^ 2 = t.bits ^ 2 + 2 * t.bits + 1 := by
    rw [Nat.pow_two, Nat.pow_two, Nat.add_mul, Nat.mul_add]
    omega
  rw [weight_of_illegal hu]
  omega

theorem isFloat_of_isWord (h : t.IsWord) : t.isFloat = false := by
  revert h
  cases t <;> decide

theorem weight_word (h : t.IsWord) : T.weight t ≤ 4 * t.bits ^ 2 := by
  have := weight_le (T := T) t
  rw [h.2, isFloat_of_isWord h] at this
  exact this

theorem weight_word_lt (ht : t.IsWord) (hu : T.classify u ≠ .legal) (hword : ¬ u.IsWord)
    (h : t.bits ≤ u.bits) : T.weight t < T.weight u := by
  have hle := weight_word (T := T) ht
  have hsq : t.bits ^ 2 ≤ u.bits ^ 2 := Nat.pow_le_pow_left h 2
  have hflag : 0 < 2 * u.isVector.toNat + u.isFloat.toNat := by
    revert hword
    cases u <;> decide
  rw [weight_of_illegal hu]
  omega

/-- An integer vector weighs no more than other vectors of its width. -/
theorem weight_relaned (ht : t.isVector = true) (hfloat : t.isFloat = false)
    (hu : u.isVector = true) (hc : T.classify u ≠ .legal) (h : t.bits = u.bits) :
    T.weight t ≤ T.weight u := by
  have hle := weight_le (T := T) t
  rw [weight_of_illegal hc, hu, ← h]
  rw [ht, hfloat] at hle
  simp only [Bool.toNat_true, Bool.toNat_false] at hle ⊢
  omega

/-- The lane of a vector is lighter. -/
theorem weight_scalar_lt (ht : t.isVector = true) (h : T.classify t ≠ .legal) :
    T.weight t.scalar < T.weight t := by
  have hle := weight_le (T := T) t.scalar
  have hbits : t.scalar.bits ^ 2 ≤ t.bits ^ 2 := by
    refine Nat.pow_le_pow_left ?_ 2
    rw [ValueType.bits_eq_laneBits t.isVector_scalar, t.laneBits_scalar, t.bits_eq_mul]
    exact Nat.le_mul_of_pos_right _ t.laneCount_pos
  rw [t.isVector_scalar, t.isFloat_scalar] at hle
  rw [weight_of_illegal h, ht]
  simp only [Bool.toNat_true, Bool.toNat_false] at hle ⊢
  omega

/-- Two types of half the width weigh less together. -/
theorem double_weight_lt (hu : T.classify u ≠ .legal) (h : u.bits = 2 * t.bits) :
    2 * T.weight t < T.weight u := by
  have hle := weight_le (T := T) t
  have hv : t.isVector.toNat ≤ 1 := Bool.toNat_le _
  have hf : t.isFloat.toNat ≤ 1 := Bool.toNat_le _
  have hpos := Nat.pow_pos (n := 2) t.bits_pos
  have hsq : u.bits ^ 2 = 4 * t.bits ^ 2 := by rw [h, Nat.mul_pow]
  rw [weight_of_illegal hu]
  omega

/-- A transformed type is lighter. -/
theorem weight_transform_lt (hT : T.Regular) (h : T.classify t ≠ .legal) :
    T.weight (T.transform t) < T.weight t := by
  have hsuits := hT.suits t
  cases hc : T.classify t with
  | legal => exact absurd hc h
  | promoteInteger =>
    rw [weight_of_legal (hT.promoted hc).2.2.2]
    exact weight_pos h
  | expandInteger =>
    have hbits := (hT.expanded hc).2.2.1
    have := (T.transform t).bits_pos
    exact weight_lt_of_bits_lt h (by omega)
  | promoteFloat =>
    obtain ⟨hfloat, _, hword, hbits, _⟩ := hT.softened hc
    refine weight_word_lt hword h (fun ht => ?_) (Nat.le_of_eq hbits)
    rw [isFloat_of_isWord ht] at hfloat
    cases hfloat
  | expandFloat =>
    obtain ⟨ht, hpart⟩ := hT.paired hc
    refine weight_lt_of_bits_lt h ?_
    rw [hpart, ht]
    decide
  | scalarize =>
    obtain ⟨hlanes, hpart⟩ := hT.scalarized hc
    rw [hpart]
    exact weight_scalar_lt (by simp [ValueType.isVector, hlanes]) h
  | split =>
    have hbits := (ValueType.bits_half (hT.halved hc)).2
    have := (T.transform t).bits_pos
    exact weight_lt_of_bits_lt h (by omega)

/-! ### Heights and loads -/

theorem foldr_max_le {l : List Nat} {b : Nat} : l.foldr max 0 ≤ b ↔ ∀ x ∈ l, x ≤ b := by
  induction l with
  | nil => simp
  | cons x l ih => simp [ih]

theorem foldr_max_lt {l : List Nat} {b : Nat} (hb : 0 < b) :
    l.foldr max 0 < b ↔ ∀ x ∈ l, x < b := by
  induction l with
  | nil => simpa using hb
  | cons x l ih => simp [ih]

theorem height_le_iff {b : Nat} : T.height op ts ≤ b ↔
    charge op.stage (T.jointWeight op ts) ≤ b ∧ ∀ t ∈ ts, charge op.stage (T.weight t) ≤ b := by
  rw [height, foldr_max_le]
  simp

theorem height_lt_iff {b : Nat} (hb : 0 < b) : T.height op ts < b ↔
    charge op.stage (T.jointWeight op ts) < b ∧ ∀ t ∈ ts, charge op.stage (T.weight t) < b := by
  rw [height, foldr_max_lt hb]
  simp

theorem charge_le_height (ht : t ∈ ts) : charge op.stage (T.weight t) ≤ T.height op ts :=
  (height_le_iff.1 (Nat.le_refl _)).2 t ht

theorem charge_joint_le_height : charge op.stage (T.jointWeight op ts) ≤ T.height op ts :=
  (height_le_iff.1 (Nat.le_refl _)).1

theorem jointWeight_of_ne (h : op ≠ .buildPair) : T.jointWeight op ts = 0 := by
  cases op with
  | buildPair => exact absurd rfl h
  | _ => rfl

theorem burden_lt_of_height (h : T.height op ts < T.height op' ts') :
    T.burden op ts < T.burden op' ts' :=
  Prod.Lex.toLex_lt_toLex.2 (.inl h)

theorem burden_lt_of_load (h : T.height op ts ≤ T.height op' ts') (hload : T.load ts < T.load ts') :
    T.burden op ts < T.burden op' ts' := by
  rcases Nat.lt_or_eq_of_le h with h | h
  · exact burden_lt_of_height h
  · exact Prod.Lex.toLex_lt_toLex.2 (.inr ⟨h, hload⟩)

@[simp] theorem load_nil : T.load [] = 0 := rfl

@[simp] theorem load_cons : T.load (t :: ts) = T.weight t + T.load ts := by
  simp [load]

theorem load_le (h : List.Forall₂ (fun t u => T.weight t ≤ T.weight u) ts ts') :
    T.load ts ≤ T.load ts' := by
  induction h with
  | nil => exact Nat.le_refl _
  | cons h _ ih =>
    rw [load_cons, load_cons]
    omega

theorem weight_le_load (ht : t ∈ ts) : T.weight t ≤ T.load ts := by
  induction ts with
  | nil => cases ht
  | cons u ts ih =>
    rw [load_cons]
    rcases List.mem_cons.1 ht with rfl | ht
    · omega
    · have := ih ht
      omega

theorem load_map_le {f : ValueType → ValueType} (h : ∀ t ∈ ts, T.weight (f t) ≤ T.weight t) :
    T.load (ts.map f) ≤ T.load ts := by
  refine load_le ?_
  rw [List.forall₂_map_left_iff]
  exact List.forall₂_same.2 h

theorem load_map_lt {f : ValueType → ValueType} (h : ∀ t ∈ ts, T.weight (f t) ≤ T.weight t)
    (ht : t ∈ ts) (hlt : T.weight (f t) < T.weight t) : T.load (ts.map f) < T.load ts := by
  induction ts with
  | nil => cases ht
  | cons u ts ih =>
    have hu := h u List.mem_cons_self
    have hts := fun v hv => h v (List.mem_cons_of_mem u hv)
    rw [List.map_cons, load_cons, load_cons]
    rcases List.mem_cons.1 ht with rfl | ht
    · have := load_map_le hts
      omega
    · have := ih hts ht
      omega

@[simp] theorem load_append : T.load (ts ++ ts') = T.load ts + T.load ts' := by
  simp [load]

/-- The same operation with simpler types is lighter. -/
theorem burden_lt_of_forall₂ (hop : op ≠ .buildPair) (hs : op.stage ≤ op'.stage)
    (h : List.Forall₂ (fun t u => T.weight t ≤ T.weight u) ts ts') (hload : T.load ts < T.load ts') :
    T.burden op ts < T.burden op' ts' := by
  refine burden_lt_of_load (height_le_iff.2 ⟨?_, ?_⟩) hload
  · rw [jointWeight_of_ne hop]
    exact Nat.zero_le _
  · clear hload
    have hcharge : ∀ t ∈ ts, ∃ u ∈ ts', T.weight t ≤ T.weight u := by
      induction h with
      | nil => simp
      | cons h _ ih =>
        intro t ht
        rcases List.mem_cons.1 ht with rfl | ht
        · exact ⟨_, List.mem_cons_self, h⟩
        · obtain ⟨u, hu, hle⟩ := ih t ht
          exact ⟨u, List.mem_cons_of_mem _ hu, hle⟩
    intro t ht
    obtain ⟨u, hu, hle⟩ := hcharge t ht
    exact Nat.le_trans (charge_mono hs hle) (charge_le_height hu)

end Target

end Dataflow
