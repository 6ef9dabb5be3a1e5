import Dataflow.Legal.Action
import Dataflow.Node
import Dataflow.Target.Description
import Mathlib.Algebra.Ring.Nat

/-!
# Types of nodes

Which types the operands and results of an operation may have, and what the answers of a target
have in common.
-/

namespace Dataflow

namespace ValueType

variable {t u e : ValueType} {n : Nat}

/-- A scalar integer. -/
def IsWord (t : ValueType) : Prop :=
  t.isInt = true ∧ t.isVector = false

instance : DecidablePred IsWord := fun _ => inferInstanceAs (Decidable (_ ∧ _))

theorem bits_le (t : ValueType) : t.bits ≤ 256 := by cases t <;> decide

theorem laneBits_pos (t : ValueType) : 0 < t.laneBits := by cases t <;> decide

theorem laneBits_le (t : ValueType) : t.laneBits ≤ 128 := by cases t <;> decide

theorem laneCount_pos (t : ValueType) : 0 < t.laneCount := by cases t <;> decide

theorem isVector_scalar (t : ValueType) : t.scalar.isVector = false := by cases t <;> decide

theorem scalar_scalar (t : ValueType) : t.scalar.scalar = t.scalar := by cases t <;> rfl

theorem laneBits_scalar (t : ValueType) : t.scalar.laneBits = t.laneBits := by cases t <;> rfl

theorem isInt_scalar (t : ValueType) : t.scalar.isInt = t.isInt := by cases t <;> rfl

theorem isFloat_scalar (t : ValueType) : t.scalar.isFloat = t.isFloat := by cases t <;> rfl

theorem isWord_scalar (t : ValueType) : t.scalar.IsWord ↔ t.isInt = true := by
  rw [IsWord, isInt_scalar, isVector_scalar]
  simp

theorem laneCount_eq_one (h : t.isVector = false) : t.laneCount = 1 := by
  cases t <;> first | rfl | cases h

theorem laneCount_eq_lanes (h : t.isVector = true) : t.laneCount = t.lanes := by
  cases t <;> first | rfl | cases h

theorem scalar_eq_self (h : t.isVector = false) : t.scalar = t := by
  cases t <;> first | rfl | cases h

theorem bits_eq_laneBits (h : t.isVector = false) : t.bits = t.laneBits := by
  cases t <;> first | rfl | cases h

theorem bits_eq_mul (t : ValueType) : t.bits = t.laneBits * t.laneCount := rfl

/-- A vector of one lane is as wide as the lane. -/
theorem bits_scalar (h : t.lanes = 1) : t.scalar.bits = t.bits := by
  rw [bits_eq_laneBits t.isVector_scalar, laneBits_scalar, bits_eq_mul,
    laneCount_eq_lanes (by simp [isVector, h]), h, Nat.mul_one]

theorem bits_pos (t : ValueType) : 0 < t.bits := Nat.mul_pos t.laneBits_pos t.laneCount_pos

namespace IsWord

theorem laneBits_eq (h : t.IsWord) : t.laneBits = t.bits := (bits_eq_laneBits h.2).symm

theorem scalar_eq (h : t.IsWord) : t.scalar = t := scalar_eq_self h.2

theorem bits_le (h : t.IsWord) : t.bits ≤ 128 := h.laneBits_eq ▸ laneBits_le t

/-- The widths of words. -/
theorem bits_cases (h : t.IsWord) :
    t.bits = 1 ∨ t.bits = 8 ∨ t.bits = 16 ∨ t.bits = 32 ∨ t.bits = 64 ∨ t.bits = 128 := by
  cases t <;> first | decide | exact absurd h (by decide)

theorem int?_bits (h : t.IsWord) : int? t.bits = some t := by
  cases t <;> first | rfl | exact absurd h (by decide)

theorem eq_of_bits_eq (ht : t.IsWord) (hu : u.IsWord) (h : t.bits = u.bits) : t = u := by
  have := ht.int?_bits
  rw [h, hu.int?_bits] at this
  exact (Option.some.inj this).symm

/-- Words below twice a width do not exceed it. -/
theorem bits_le_of_lt_double (ht : t.IsWord) (hu : u.IsWord) (h : t.bits < 2 * u.bits) :
    t.bits ≤ u.bits := by
  rcases ht.bits_cases with h' | h' | h' | h' | h' | h' <;>
    rcases hu.bits_cases with h'' | h'' | h'' | h'' | h'' | h'' <;> omega

end IsWord

theorem int?_eq_some (h : int? n = some t) : t.IsWord ∧ t.bits = n := by
  unfold int? at h
  split at h <;> cases h <;> decide

theorem vector?_eq_some (h : vector? e n = some t) (hn : 0 < n) :
    t.isVector = true ∧ t.scalar = e ∧ t.lanes = n := by
  have hfind := List.find?_some h
  simp only [Bool.and_eq_true, beq_iff_eq] at hfind
  refine ⟨?_, ?_, hfind.2⟩
  · simp only [isVector, bne_iff_ne]
    omega
  · rw [scalar, hfind.1]
    rfl

theorem lanes_even (h : 2 ≤ t.lanes) : t.lanes = 2 * (t.lanes / 2) := by
  cases t <;> first | rfl | exact absurd h (by decide)

/-- A vector has the lane type and twice the lanes of its half. -/
theorem half?_eq_some (h : t.half? = some u) :
    t.isVector = true ∧ u.isVector = true ∧ u.scalar = t.scalar ∧ t.lanes = 2 * u.lanes := by
  unfold half? at h
  split at h
  · cases h
  · next elem helem =>
    split at h
    · cases h
    · next hlanes =>
      have heven := lanes_even (Nat.le_of_not_lt hlanes)
      obtain ⟨hvector, hscalar, hu⟩ := vector?_eq_some h (by omega)
      refine ⟨?_, hvector, ?_, by omega⟩
      · simp only [isVector, bne_iff_ne]
        omega
      · rw [hscalar, scalar, helem]
        rfl

theorem bits_half (h : t.half? = some u) : t.laneBits = u.laneBits ∧ t.bits = 2 * u.bits := by
  obtain ⟨ht, hu, hscalar, hlanes⟩ := half?_eq_some h
  have hbits : t.laneBits = u.laneBits := by rw [← laneBits_scalar t, ← hscalar, laneBits_scalar]
  refine ⟨hbits, ?_⟩
  rw [bits_eq_mul, bits_eq_mul, laneCount_eq_lanes ht, laneCount_eq_lanes hu, hbits, hlanes,
    Nat.mul_left_comm]

end ValueType

/-! ### Nodes -/

/-- A lane of a vector can be read or written at type `e`: at the lane type or, where `wide` values
are allowed, as a wider word. -/
def ValueType.Carries (vector : ValueType) (wide : Prop) (e : ValueType) : Prop :=
  e = vector.scalar ∨ wide ∧ vector.isInt = true ∧ e.IsWord ∧ vector.laneBits < e.bits

namespace ValueType.Carries

variable {t e : ValueType} {wide : Prop}

theorem isVector (h : t.Carries wide e) : e.isVector = false := by
  rcases h with rfl | ⟨_, _, hword, _⟩
  · exact t.isVector_scalar
  · exact hword.2

theorem laneBits_le (h : t.Carries wide e) : t.laneBits ≤ e.bits := by
  rcases h with rfl | ⟨_, _, _, hbits⟩
  · exact Nat.le_of_eq (by rw [bits_eq_laneBits t.isVector_scalar, t.laneBits_scalar])
  · exact Nat.le_of_lt hbits

end ValueType.Carries

/-- The types of the operands and of the result that an operation may have. Lanes of type `e` go
through wider words only where `wide` says so of the type of the result and `e`. -/
inductive Signature (wide : ValueType → ValueType → Prop) : Opcode → List ValueType → ValueType → Prop
  | argument {t} : Signature wide .argument [] t
  | constant {t} : Signature wide .constant [] t
  | constantFp {t} : Signature wide .constantFp [] t
  | undef {t} : Signature wide .undef [] t
  | int {op t} : t.isInt = true → Signature wide (.int op) [t, t] t
  | count {op t} : t.isInt = true → Signature wide (.count op) [t] t
  | float {op t} : t.isFloat = true → Signature wide (.float op) [t, t] t
  | fcopysign {t} : t.isFloat = true → Signature wide .fcopysign [t, t] t
  | fneg {t} : t.isFloat = true → Signature wide .fneg [t] t
  | fabs {t} : t.isFloat = true → Signature wide .fabs [t] t
  | setcc {u t} : u.IsWord → t.IsWord → Signature wide .setcc [u, u] t
  | select {c t} : c.IsWord → Signature wide .select [c, t, t] t
  | zeroExtend {u t} : u.IsWord → t.IsWord → u.bits < t.bits → Signature wide .zeroExtend [u] t
  | signExtend {u t} : u.IsWord → t.IsWord → u.bits < t.bits → Signature wide .signExtend [u] t
  | anyExtend {u t} : u.IsWord → t.IsWord → u.bits < t.bits → Signature wide .anyExtend [u] t
  | truncate {u t} : u.IsWord → t.IsWord → t.bits < u.bits → Signature wide .truncate [u] t
  | bitcast {u t} : u.bits = t.bits → Signature wide .bitcast [u] t
  | buildPair {u t} : u.IsWord → t.bits = 2 * u.bits → Signature wide .buildPair [u, u] t
  | roundDoubleDouble : Signature wide .fpRound [.ppcf128] .f64
  | roundDouble : Signature wide .fpRound [.f64] .f32
  | buildVector {es t} : t.isVector = true → es.length = t.lanes →
    (∀ e ∈ es, t.Carries (wide t t.scalar) e) → Signature wide .buildVector es t
  | extractElement {u i t} : u.isVector = true → u.Carries (wide t u.scalar) t → i.IsWord →
    Signature wide .extractElement [u, i] t
  | insertElement {e i t} : t.isVector = true → t.Carries (wide t t.scalar) e → i.IsWord →
    Signature wide .insertElement [t, e, i] t
  | vectorShuffle {u t} : u.isVector = true → t.isVector = true → u.scalar = t.scalar →
    Signature wide .vectorShuffle [u, u] t
  | concatVectors {u t} : t.half? = some u → Signature wide .concatVectors [u, u] t

namespace Signature

variable {wide : ValueType → ValueType → Prop} {op : Opcode} {t u : ValueType}

theorem mono {wide' : ValueType → ValueType → Prop} {ts : List ValueType}
    (h : Signature wide op ts t) (hwide : ∀ t e, wide t e → wide' t e) :
    Signature wide' op ts t := by
  have hcarries {v e t' : ValueType} (hc : v.Carries (wide t' v.scalar) e) :
      v.Carries (wide' t' v.scalar) e :=
    hc.imp_right fun hw => ⟨hwide _ _ hw.1, hw.2⟩
  cases h with
  | buildVector ht hlen hes => exact .buildVector ht hlen fun e he => hcarries (hes e he)
  | extractElement hu hc hi => exact .extractElement hu (hcarries hc) hi
  | insertElement ht hc hi => exact .insertElement ht (hcarries hc) hi
  | _ => constructor <;> assumption

theorem ne_output {ts : List ValueType} (h : Signature wide op ts t) : op ≠ .output := by
  rintro rfl
  cases h

/-- Operations that work lane by lane have all types of one lane type, or none. -/
theorem retype₂ (h : Signature wide op [t, t] t) (hop : op.isIntBinary ∨ op.isFloatBinary)
    (hu : u.scalar = t.scalar) : Signature wide op [u, u] u := by
  cases h with
  | int ht => exact .int (by rw [← ValueType.isInt_scalar, hu, ValueType.isInt_scalar, ht])
  | float ht => exact .float (by rw [← ValueType.isFloat_scalar, hu, ValueType.isFloat_scalar, ht])
  | fcopysign ht =>
    exact .fcopysign (by rw [← ValueType.isFloat_scalar, hu, ValueType.isFloat_scalar, ht])
  | _ => simp [Opcode.isIntBinary, Opcode.isFloatBinary] at hop

theorem retype₁ (h : Signature wide op [t] t) (hop : op.isSameTypeUnary)
    (hu : u.scalar = t.scalar) : Signature wide op [u] u := by
  cases h with
  | count ht => exact .count (by rw [← ValueType.isInt_scalar, hu, ValueType.isInt_scalar, ht])
  | fneg ht => exact .fneg (by rw [← ValueType.isFloat_scalar, hu, ValueType.isFloat_scalar, ht])
  | fabs ht => exact .fabs (by rw [← ValueType.isFloat_scalar, hu, ValueType.isFloat_scalar, ht])
  | _ => cases hop

end Signature

namespace Node

/-- A node that reads operands of types `ts` is an output or has one result of a type that suits
them. -/
def Typed (wide : ValueType → ValueType → Prop) (ts : List ValueType) (n : Node) : Prop :=
  n.opcode = .output ∧ n.results = [] ∨ ∃ t, n.results = [t] ∧ Signature wide n.opcode ts t

/-- The attribute of a node suits its operation: the bits of a constant are in range, an argument
starts `within` bounds, a lane index has at least 8 bits, a shuffle reads lanes that exist, and an
output observes at most the whole of each value. -/
def Attributed (within : Nat → ValueType → Prop) (ts : List ValueType) (n : Node) : Prop :=
  match n.opcode, ts, n.results with
  | .argument, _, [t] => ∃ index offset, n.attr = .arg index offset ∧ within offset t
  | .constant, _, [t] | .constantFp, _, [t] => ∃ bits, n.attr = .imm bits ∧ bits < 2 ^ t.laneBits
  | .setcc, _, _ => ∃ c, n.attr = .cond c
  | .extractElement, [_, i], _ | .insertElement, [_, _, i], _ => 8 ≤ i.bits
  | .vectorShuffle, [u, _], [t] => ∃ lanes, n.attr = .mask lanes ∧ lanes.length = t.lanes ∧
    ∀ l, some l ∈ lanes → l < 2 * u.lanes
  | .output, _, _ => ∀ (i : Nat) t width, ts[i]? = some t →
    (n.widths?.getD [])[i]? = some width → width ≤ t.bits
  | _, _, _ => True

theorem Attributed.mono {within within' : Nat → ValueType → Prop} {ts : List ValueType} {n : Node}
    (h : n.Attributed within ts) (hwithin : ∀ offset t, within offset t → within' offset t) :
    n.Attributed within' ts := by
  unfold Attributed at h ⊢
  split at h
  · obtain ⟨index, offset, hattr, hoffset⟩ := h
    exact ⟨index, offset, hattr, hwithin offset _ hoffset⟩
  all_goals exact h

end Node

/-- The operations of scalar integer code. -/
def Opcode.isPlain : Opcode → Bool
  | .argument | .constant | .undef | .int _ | .count _ | .setcc | .select | .zeroExtend
  | .signExtend | .anyExtend | .truncate | .buildPair | .output => true
  | _ => false

/-- Limits on the numbers and types in a graph. -/
structure Limit where
  /-- Where the arguments that are to be converted may end: early enough to be read at a type of 128
  bits. -/
  bound : Nat
  bound_le : bound + 128 ≤ 2 ^ 32
  /-- Whether the numbers are moderate: nothing that is computed from them leaves its word. -/
  moderate : Prop
  /-- Whether operations may take liberties with their types. -/
  liberal : Prop

/-- Arguments may end where the last one of 128 bits can start, and types are strict. -/
def Limit.top (moderate : Prop) : Limit := ⟨2 ^ 32 - 128, Nat.le_refl _, moderate, False⟩

/-- Arguments may end where the last one of 128 bits can start, and types are not strict. -/
def Limit.loose : Limit := ⟨2 ^ 32 - 128, Nat.le_refl _, False, True⟩

/-! ### Targets -/

namespace Target

/-- What an action asks of a type and of its transformed type. -/
def Suits (T : Target) (t : ValueType) : Legal.Action → Prop
  | .legal => True
  | .promoteInteger => t.IsWord ∧ (T.transform t).IsWord ∧ t.bits < (T.transform t).bits ∧
    T.classify (T.transform t) = .legal
  | .expandInteger => t.IsWord ∧ (T.transform t).IsWord ∧ t.bits = 2 * (T.transform t).bits ∧
    ∀ w : ValueType, w.IsWord → t.bits < w.bits → T.classify w = .expandInteger
  | .promoteFloat => t.isFloat = true ∧ t.isVector = false ∧ (T.transform t).IsWord ∧
    (T.transform t).bits = t.bits ∧ t ≠ .ppcf128
  | .expandFloat => t = .ppcf128 ∧ T.transform t = .f64
  | .scalarize => t.lanes = 1 ∧ T.transform t = t.scalar
  | .split => t.half? = some (T.transform t)

/-- What the answers of described targets have in common. -/
structure Regular (T : Target) : Prop where
  suits : ∀ t, T.Suits t (T.classify t)
  compareType : ∀ t, (T.compareType t).IsWord ∧ T.classify (T.compareType t) = .legal
  indexType : T.indexType.IsWord ∧ T.classify T.indexType = .legal ∧ 8 ≤ T.indexType.bits

namespace Regular

variable {T : Target} {t u : ValueType}

theorem promoted (h : T.Regular) (ht : T.classify t = .promoteInteger) :
    T.Suits t .promoteInteger := ht ▸ h.suits t

theorem expanded (h : T.Regular) (ht : T.classify t = .expandInteger) :
    T.Suits t .expandInteger := ht ▸ h.suits t

theorem softened (h : T.Regular) (ht : T.classify t = .promoteFloat) : T.Suits t .promoteFloat :=
  ht ▸ h.suits t

theorem paired (h : T.Regular) (ht : T.classify t = .expandFloat) : T.Suits t .expandFloat :=
  ht ▸ h.suits t

theorem scalarized (h : T.Regular) (ht : T.classify t = .scalarize) : T.Suits t .scalarize :=
  ht ▸ h.suits t

theorem halved (h : T.Regular) (ht : T.classify t = .split) : t.half? = some (T.transform t) := by
  have := h.suits t
  rwa [ht] at this

/-- A word is legal, promoted or expanded. -/
theorem word_cases (h : T.Regular) (ht : t.IsWord) :
    T.classify t = .legal ∨ T.classify t = .promoteInteger ∨ T.classify t = .expandInteger := by
  have hsuits := h.suits t
  cases hc : T.classify t with
  | legal => exact .inl rfl
  | promoteInteger => exact .inr (.inl rfl)
  | expandInteger => exact .inr (.inr rfl)
  | promoteFloat | expandFloat | scalarize | split =>
    rw [hc] at hsuits
    revert ht hsuits
    cases t <;> simp [Target.Suits, ValueType.IsWord, ValueType.half?, ValueType.lane?,
      ValueType.isInt, ValueType.scalar, ValueType.isFloat, ValueType.lanes, ValueType.isVector]

theorem transform_word (h : T.Regular) (ht : t.IsWord) (hc : T.classify t ≠ .legal) :
    (T.transform t).IsWord := by
  rcases h.word_cases ht with hc' | hc' | hc'
  · exact absurd hc' hc
  · exact (h.promoted hc').2.1
  · exact (h.expanded hc').2.1

/-- Words above an expanded one are expanded too. -/
theorem bits_le_of_expanded (h : T.Regular) (ht : T.classify t = .expandInteger) (hu : u.IsWord)
    (hc : T.classify u ≠ .expandInteger) : u.bits ≤ t.bits :=
  Nat.le_of_not_lt fun hlt => hc ((h.expanded ht).2.2.2 u hu hlt)

/-- A half of an expanded word is legal or expanded again. -/
theorem half_ne_promoted (h : T.Regular) (ht : T.classify t = .expandInteger) :
    T.classify (T.transform t) ≠ .promoteInteger := fun hc => by
  obtain ⟨hword, _, hbits, _⟩ := h.expanded ht
  obtain ⟨_, hwide, hlt, hlegal⟩ := h.promoted hc
  have hle := h.bits_le_of_expanded ht hwide (by rw [hlegal]; simp)
  have heq : (T.transform (T.transform t)).bits = t.bits := by
    rcases hword.bits_cases with h | h | h | h | h | h <;>
      rcases hwide.bits_cases with h' | h' | h' | h' | h' | h' <;> omega
  rw [hwide.eq_of_bits_eq hword heq, ht] at hlegal
  cases hlegal

end Regular

/-- Slices of arguments that can be read: those of illegal types even at a wider type. -/
def Within (T : Target) (limit : Limit) (offset : Nat) (t : ValueType) : Prop :=
  offset + t.bits ≤ if T.classify t = .legal then limit.bound + 128 else limit.bound

theorem within_of_lt {T : Target} {limit : Limit} {offset : Nat} (h : offset < 2 ^ 31)
    (t : ValueType) (hlimit : 2 ^ 31 + 256 ≤ limit.bound) : T.Within limit offset t := by
  have := t.bits_le
  unfold Within
  split <;> omega

theorem Within.le {T : Target} {limit : Limit} {offset : Nat} {t : ValueType}
    (h : T.Within limit offset t) : offset + t.bits ≤ limit.bound + 128 := by
  unfold Within at h
  split at h <;> omega

/-- Lanes of a promoted type `e` go through their carriers, where the result has a legal type. -/
def Wide (T : Target) (t e : ValueType) : Prop :=
  T.classify t = .legal ∧ T.classify e = .promoteInteger

/-- Legal vectors have legal lanes. -/
def Laned (T : Target) : Prop :=
  ∀ t, T.classify t = .legal → T.classify t.scalar = .legal

/-- Scalar integer code that can always be made legal. The types are those of the operands, after
that of the result. -/
structure Plain (T : Target) (op : Opcode) (ts : List ValueType) : Prop where
  opcode : op.isPlain = true
  words : ∀ t ∈ ts, t.IsWord
  mulhu : op = .int .mulhu → ∀ t ∈ ts, T.classify t ≠ .promoteInteger
  setcc : op = .setcc → ∀ t ∈ ts.head?, T.classify t ≠ .expandInteger

end Target

namespace Description

open ValueType

variable {d : Description} {T : Target} {t u : ValueType}

theorem target_eq_ok (h : d.target = .ok T) :
    d.isLegal d.compareType = true ∧ d.compareType.IsWord ∧ (∀ t, (d.transform? t).isSome) ∧
      (∀ t, T.action t = ((d.transform? t).map (·.1)).getD .legal) ∧
      (∀ t, T.transform t = ((d.transform? t).map (·.2)).getD t) ∧
      (∀ t, T.compareType t = d.compareType) ∧ T.indexType = d.indexType := by
  unfold target at h
  split at h
  · cases h
  · split at h
    · cases h
    · next hcompare =>
      split at h
      · cases h
      · next hall =>
        cases h
        simp only [Bool.or_eq_true, Bool.not_eq_eq_eq_not, Bool.not_true, not_or,
          Bool.not_eq_false, Bool.not_eq_true] at hcompare
        refine ⟨hcompare.1.1, ⟨hcompare.1.2, hcompare.2⟩, fun t => ?_, fun _ => rfl, fun _ => rfl,
          fun _ => rfl, rfl⟩
        have := List.find?_eq_none.1 hall t (mem_all t)
        rw [Option.isSome_iff_ne_none]
        simpa using this

theorem mem_legalInts : u ∈ d.legalInts ↔ u.IsWord ∧ d.isLegal u = true := by
  simp only [legalInts, List.mem_filter, and_congr_left_iff]
  intro _
  cases u <;> decide

/-- Legal integers are listed from the narrowest to the widest. -/
theorem legalInts_sorted (d : Description) : d.legalInts.Pairwise fun a b => a.bits ≤ b.bits :=
  List.Pairwise.filter _ (by decide)

/-- The first legal integer that passes a test is the narrowest one. -/
theorem find?_legalInts_le {p : ValueType → Bool} (h : d.legalInts.find? p = some u)
    (ht : t ∈ d.legalInts) (hp : p t = true) : u.bits ≤ t.bits := by
  obtain ⟨_, before, after, heq, hbefore⟩ := List.find?_eq_some_iff_append.1 h
  have hsorted := d.legalInts_sorted
  rw [heq] at hsorted ht
  rcases List.mem_append.1 ht with hm | hm
  · have := hbefore t hm
    simp [hp] at this
  · rcases List.mem_cons.1 hm with rfl | hm
    · exact Nat.le_refl _
    · exact (List.pairwise_cons.1 (List.pairwise_append.1 hsorted).2.1).1 t hm

/-- The ways in which a type is transformed. -/
inductive Answer (d : Description) (t : ValueType) : TypeAction → ValueType → Prop
  | legal : d.isLegal t = true → Answer d t .legal t
  | lane : t.lanes = 1 → Answer d t .expand t.scalar
  | half {w} : t.lanes ≠ 1 → t.half? = some w → Answer d t .expand w
  | wider {w} : t.IsWord → w ∈ d.legalInts → t.bits < w.bits →
    (∀ u ∈ d.legalInts, t.bits < u.bits → w.bits ≤ u.bits) → Answer d t .promote w
  | halfWidth {w} : t.IsWord → (∀ u ∈ d.legalInts, u.bits ≤ t.bits) →
    int? (t.bits / 2) = some w → Answer d t .expand w
  | parts : t = .ppcf128 → Answer d t .expand .f64
  | sameWidth {w} : t.isFloat = true → t.isVector = false → t ≠ .ppcf128 → int? t.bits = some w →
    Answer d t .expand w

theorem answer {a : TypeAction} (h : d.transform? t = some (a, u)) : Answer d t a u := by
  unfold transform? at h
  split at h
  · next hlegal =>
    cases h
    exact .legal hlegal
  split at h
  · next hlanes =>
    cases h
    exact .lane hlanes
  split at h
  · next hlanes _ =>
    obtain ⟨half, hhalf, heq⟩ := Option.map_eq_some_iff.1 h
    cases heq
    exact .half hlanes hhalf
  · next hvector =>
    rw [Bool.not_eq_true] at hvector
    split at h
    · next hint =>
      split at h
      · next wider hfind =>
        cases h
        exact .wider ⟨hint, hvector⟩ (List.mem_of_find?_eq_some hfind)
          (by simpa using List.find?_some hfind) fun u hu hlt => find?_legalInts_le hfind hu (by simpa)
      · next hfind =>
        obtain ⟨half, hhalf, heq⟩ := Option.map_eq_some_iff.1 h
        cases heq
        exact .halfWidth ⟨hint, hvector⟩ (by simpa using hfind) hhalf
    · next hint =>
      split at h
      · next hpair =>
        cases h
        exact .parts hpair
      · next hpair =>
        obtain ⟨wide, hwide, heq⟩ := Option.map_eq_some_iff.1 h
        cases heq
        refine .sameWidth ?_ hvector hpair hwide
        revert hint
        cases t <;> decide

theorem target_answer (h : d.target = .ok T) (t : ValueType) :
    Answer d t (T.action t) (T.transform t) := by
  obtain ⟨_, _, hall, haction, htransform, _⟩ := target_eq_ok h
  obtain ⟨⟨a, u⟩, hau⟩ := Option.isSome_iff_exists.1 (hall t)
  have := answer hau
  rwa [haction, htransform, hau]

theorem classify_of_isLegal (h : d.target = .ok T) (ht : d.isLegal t = true) :
    T.classify t = .legal := by
  obtain ⟨_, _, _, haction, _⟩ := target_eq_ok h
  unfold Target.classify
  rw [haction, transform?, if_pos ht]
  rfl

theorem legalInts_le_last (h : d.legalInts.getLast? = some u) (ht : t ∈ d.legalInts) :
    t.bits ≤ u.bits := by
  have hsorted := d.legalInts_sorted
  obtain ⟨before, hbefore⟩ := List.getLast?_eq_some_iff.1 h
  rw [hbefore] at hsorted ht
  rcases List.mem_append.1 ht with hm | hm
  · exact (List.pairwise_append.1 hsorted).2.2 t hm u (List.mem_singleton.2 rfl)
  · exact Nat.le_of_eq (by rw [List.mem_singleton.1 hm])

/-- The index type is a legal integer. It is not `i1`: where that is the widest one, `i8` can be
neither promoted nor expanded. -/
theorem indexType_isWord (h : d.target = .ok T) :
    T.indexType.IsWord ∧ T.classify T.indexType = .legal ∧ 8 ≤ T.indexType.bits := by
  obtain ⟨hcompare, hword, hall, _, _, _, hindex⟩ := target_eq_ok h
  obtain ⟨w, hw, hbits⟩ : ∃ w ∈ d.legalInts, 8 ≤ w.bits := by
    obtain ⟨⟨a, u⟩, hau⟩ := Option.isSome_iff_exists.1 (hall .i8)
    cases answer hau with
    | legal hlegal => exact ⟨_, mem_legalInts.2 ⟨by decide, hlegal⟩, by decide⟩
    | wider _ hmem hlt _ => exact ⟨_, hmem, Nat.le_of_lt hlt⟩
    | _ => contradiction
  rw [hindex, indexType]
  cases hfind : d.legalInts.find? (32 ≤ ·.bits) with
  | some wide =>
    have hwide : 32 ≤ wide.bits := by simpa using List.find?_some hfind
    obtain ⟨hword, hlegal⟩ := mem_legalInts.1 (List.mem_of_find?_eq_some hfind)
    exact ⟨hword, classify_of_isLegal h hlegal, Nat.le_trans (by decide) hwide⟩
  | none =>
    cases hlast : d.legalInts.getLast? with
    | none =>
      rw [List.getLast?_eq_none_iff.1 hlast] at hw
      cases hw
    | some last =>
      obtain ⟨hword, hlegal⟩ := mem_legalInts.1 (List.mem_of_getLast? hlast)
      exact ⟨hword, classify_of_isLegal h hlegal,
        Nat.le_trans hbits (legalInts_le_last hlast hw)⟩

/-- A word that no legal integer reaches is expanded. -/
theorem classify_of_legalInts_le (h : d.target = .ok T) (ht : t.IsWord)
    (hle : ∀ u ∈ d.legalInts, u.bits < t.bits) : T.classify t = .expandInteger := by
  have ha := target_answer h t
  unfold Target.classify Legal.refine
  revert ha
  generalize T.action t = a
  generalize T.transform t = u
  intro ha
  cases ha with
  | legal hlegal => exact absurd (hle t (mem_legalInts.2 ⟨ht, hlegal⟩)) (Nat.lt_irrefl _)
  | lane hlanes => simp [IsWord, isVector, hlanes] at ht
  | half _ hhalf =>
    rw [IsWord, (half?_eq_some hhalf).1] at ht
    cases ht.2
  | wider _ hmem hbits _ => exact absurd (hle u hmem) (by omega)
  | halfWidth | sameWidth => simp [ht.1, ht.2]
  | parts hpair =>
    subst hpair
    exact absurd ht (by decide)

theorem suits_of_answer (h : d.target = .ok T) (t : ValueType) : T.Suits t (T.classify t) := by
  have ha := target_answer h t
  unfold Target.classify Legal.refine
  revert ha
  generalize T.action t = a
  generalize hu : T.transform t = u
  intro ha
  cases ha with
  | legal hlegal => trivial
  | lane hlanes =>
    have hvector : t.isVector = true := by simp [isVector, hlanes]
    simp only [hvector, if_true, hlanes]
    exact ⟨hlanes, hu⟩
  | half hlanes hhalf =>
    simp only [(half?_eq_some hhalf).1, if_true, if_neg hlanes]
    rw [← hu] at hhalf
    exact hhalf
  | wider hword hmem hbits _ =>
    rw [← hu] at hmem hbits
    obtain ⟨hwide, hlegal⟩ := mem_legalInts.1 hmem
    exact ⟨hword, hwide, hbits, classify_of_isLegal h hlegal⟩
  | halfWidth hword hle hhalf =>
    simp only [hword.2, Bool.false_eq_true, if_false, hword.1, if_true]
    rw [← hu] at hhalf
    obtain ⟨hwide, hbits⟩ := int?_eq_some hhalf
    refine ⟨hword, hwide, ?_, fun w hw hlt =>
      classify_of_legalInts_le h hw fun v hv => Nat.lt_of_le_of_lt (hle v hv) hlt⟩
    rw [hbits]
    rcases hword.bits_cases with h | h | h | h | h | h <;> rw [h] at hhalf ⊢
    cases hhalf
  | parts hpair =>
    subst hpair
    exact ⟨rfl, hu⟩
  | sameWidth hfloat hvector hpair hwide =>
    have hint : t.isInt = false := by
      revert hfloat
      cases t <;> decide
    rw [← hu] at hwide
    obtain ⟨hword, hbits⟩ := int?_eq_some hwide
    simp only [hvector, hint, Bool.false_eq_true, if_false, ← hu, hbits, if_true]
    exact ⟨hfloat, hvector, hword, hbits, hpair⟩

/-- Every described target is regular. -/
theorem target_regular (h : d.target = .ok T) : T.Regular := by
  refine ⟨suits_of_answer h, fun t => ?_, indexType_isWord h⟩
  obtain ⟨hlegal, hword, _, _, _, hcompare, _⟩ := target_eq_ok h
  rw [hcompare]
  exact ⟨hword, classify_of_isLegal h hlegal⟩

end Description

end Dataflow
