import Dataflow.Proofs.Burden
import Mathlib.Logic.Function.Iterate

/-!
# Register properties

All answers of a described target are computed from its list of legal types:

* a description gives a target exactly when its comparison type is a legal integer and some legal
  integer has at least eight bits;
* the type that a type is transformed to is the one that its action asks for;
* transforming a type again and again leads to a legal type.
-/

namespace Dataflow

namespace ValueType

variable {t : ValueType}

theorem lane?_eq_scalar (h : t.isVector = true) : t.lane? = some t.scalar := by
  cases t <;> first | rfl | cases h

theorem half?_isSome (h : t.isVector = true) (hlanes : t.lanes ≠ 1) : t.half?.isSome := by
  cases t <;> first | rfl | exact absurd rfl hlanes | cases h

theorem sameWidthInt?_isSome (h : t.isVector = false) : t.sameWidthInt?.isSome := by
  cases t <;> first | rfl | cases h

theorem eq_f32_or_f64 (hfloat : t.isFloat = true) (hvector : t.isVector = false)
    (hpair : t ≠ .ppcf128) : t = .f32 ∨ t = .f64 := by
  revert hfloat hvector hpair
  cases t <;> decide

theorem lanes_le (t : ValueType) : t.lanes ≤ 16 := by cases t <;> decide

end ValueType

/-- What a target answers for a type with a given action. -/
def Legal.Action.answer : Legal.Action → TypeAction
  | .legal => .legal
  | .promoteInteger => .promote
  | _ => .expand

theorem Target.action_eq (T : Target) (t : ValueType) : T.action t = (T.classify t).answer := by
  unfold Target.classify Legal.refine
  cases T.action t with
  | legal | promote => rfl
  | expand => split_ifs <;> rfl

/-- Transforming a type again and again makes it legal. -/
theorem Target.Regular.exists_iterate_legal {T : Target} (hT : T.Regular) (t : ValueType) :
    ∃ k, T.classify (T.transform^[k] t) = .legal := by
  induction hw : T.weight t using Nat.strongRecOn generalizing t with
  | ind w ih =>
    by_cases hc : T.classify t = .legal
    · exact ⟨0, hc⟩
    · obtain ⟨k, hk⟩ := ih _ (hw ▸ Target.weight_transform_lt hT hc) (T.transform t) rfl
      exact ⟨k + 1, hk⟩

namespace Description

open ValueType

variable {d : Description} {T : Target} {t u w : ValueType}

theorem isLegal_iff : d.isLegal t = true ↔ t ∈ d.legal := by
  simp [isLegal]

/-! ### Which descriptions give targets -/

/-- Where some legal integer has eight bits, every type is legal, promoted or expanded. -/
theorem transform?_isSome (hw : w ∈ d.legalInts) (hbits : 8 ≤ w.bits) (t : ValueType) :
    (d.transform? t).isSome := by
  unfold transform?
  split
  · rfl
  next hlegal =>
  split
  · rfl
  next hlanes =>
  split
  · next hvector =>
    rw [Option.isSome_map]
    exact half?_isSome hvector hlanes
  next hvector =>
  rw [Bool.not_eq_true] at hvector
  split
  · next hint =>
    split
    · rfl
    next hfind =>
    have hle : w.bits ≤ t.bits := by simpa using List.find?_eq_none.1 hfind w hw
    have hword : t.IsWord := ⟨hint, hvector⟩
    rw [Option.isSome_map]
    rcases hword.bits_cases with h | h | h | h | h | h
    · omega
    · -- the legal integer of eight bits would be the type itself
      have hwt : w = t := (mem_legalInts.1 hw).1.eq_of_bits_eq hword (by omega)
      exact absurd (hwt ▸ (mem_legalInts.1 hw).2) hlegal
    all_goals
      rw [h]
      rfl
  split
  · rfl
  rw [Option.isSome_map]
  exact sameWidthInt?_isSome hvector

theorem exists_target_of_isSome (hcompare : d.compareType ∈ d.legal) (hword : d.compareType.IsWord)
    (hall : ∀ t, (d.transform? t).isSome) : ∃ T, d.target = .ok T := by
  have hempty : d.legal.isEmpty = false := by
    cases hlegal : d.legal with
    | nil =>
      rw [hlegal] at hcompare
      cases hcompare
    | cons => rfl
  have hfind : (ValueType.all.find? fun t => (d.transform? t).isNone) = none :=
    List.find?_eq_none.2 fun t _ => by simp [Option.isNone_eq_false_iff.2 (hall t)]
  unfold target
  simp [hempty, isLegal_iff.2 hcompare, hword.1, hword.2, hfind]

/-! ### Answers -/

theorem listed_of_legal (h : d.target = .ok T) (hc : T.classify t = .legal) :
    t ∈ d.legal ∧ T.transform t = t := by
  have ha := target_answer h t
  rw [Target.action_eq, hc] at ha
  generalize T.transform t = u at ha
  cases ha with
  | legal hlegal => exact ⟨isLegal_iff.1 hlegal, rfl⟩

theorem classify_eq_legal_iff (h : d.target = .ok T) : T.classify t = .legal ↔ t ∈ d.legal :=
  ⟨fun hc => (listed_of_legal h hc).1, fun hmem => classify_of_isLegal h (isLegal_iff.2 hmem)⟩

/-- A promoted integer becomes the narrowest legal one that is wider. -/
theorem bits_le_of_promoted (h : d.target = .ok T) (hc : T.classify t = .promoteInteger)
    (hw : w ∈ d.legal) (hword : w.IsWord) (hlt : t.bits < w.bits) :
    (T.transform t).bits ≤ w.bits := by
  have ha := target_answer h t
  rw [Target.action_eq, hc] at ha
  generalize T.transform t = u at ha
  cases ha with
  | wider _ _ _ hleast => exact hleast w (mem_legalInts.2 ⟨hword, isLegal_iff.2 hw⟩) hlt

/-- No legal integer is wider than one that is expanded. -/
theorem bits_le_of_expanded (h : d.target = .ok T) (hc : T.classify t = .expandInteger)
    (hw : w ∈ d.legal) (hword : w.IsWord) : w.bits ≤ t.bits := by
  have hlegal := (classify_eq_legal_iff h).2 hw
  exact (target_regular h).bits_le_of_expanded hc hword (by rw [hlegal]; simp)

/-- Type `t` may be transformed to `u` by an action. -/
def Prescribes (d : Description) (t u : ValueType) : Legal.Action → Prop
  | .legal => t ∈ d.legal ∧ u = t
  | .promoteInteger => t ∉ d.legal ∧ t.IsWord ∧ (u ∈ d.legal ∧ u.IsWord ∧ t.bits < u.bits) ∧
    ∀ w ∈ d.legal, w.IsWord → t.bits < w.bits → u.bits ≤ w.bits
  | .expandInteger => t ∉ d.legal ∧ t.IsWord ∧ (∀ w ∈ d.legal, w.IsWord → w.bits ≤ t.bits) ∧
    u.IsWord ∧ t.bits = 2 * u.bits
  | .promoteFloat => t ∉ d.legal ∧ (t = .f32 ∨ t = .f64) ∧ u.IsWord ∧ u.bits = t.bits
  | .expandFloat => t ∉ d.legal ∧ t = .ppcf128 ∧ u = .f64
  | .scalarize => t ∉ d.legal ∧ t.lanes = 1 ∧ t.lane? = some u
  | .split => t ∉ d.legal ∧ 1 < t.lanes ∧ u.lane? = t.lane? ∧ t.lanes = 2 * u.lanes

theorem prescribes (h : d.target = .ok T) (t : ValueType) :
    d.Prescribes t (T.transform t) (T.classify t) := by
  have hsuits := suits_of_answer h t
  have hnot (hc : T.classify t ≠ .legal) : t ∉ d.legal := fun hmem =>
    hc ((classify_eq_legal_iff h).2 hmem)
  cases hc : T.classify t with
  | legal => exact listed_of_legal h hc
  | promoteInteger =>
    rw [hc] at hsuits
    obtain ⟨hword, hwide, hlt, hlegal⟩ := hsuits
    exact ⟨hnot (by simp [hc]), hword, ⟨(classify_eq_legal_iff h).1 hlegal, hwide, hlt⟩,
      fun w => bits_le_of_promoted h hc⟩
  | expandInteger =>
    rw [hc] at hsuits
    obtain ⟨hword, hhalf, hbits, _⟩ := hsuits
    exact ⟨hnot (by simp [hc]), hword, fun w => bits_le_of_expanded h hc, hhalf, hbits⟩
  | promoteFloat =>
    rw [hc] at hsuits
    obtain ⟨hfloat, hvector, hword, hbits, hpair⟩ := hsuits
    exact ⟨hnot (by simp [hc]), eq_f32_or_f64 hfloat hvector hpair, hword, hbits⟩
  | expandFloat =>
    rw [hc] at hsuits
    exact ⟨hnot (by simp [hc]), hsuits⟩
  | scalarize =>
    rw [hc] at hsuits
    obtain ⟨hlanes, hlane⟩ := hsuits
    refine ⟨hnot (by simp [hc]), hlanes, ?_⟩
    rw [hlane]
    exact lane?_eq_scalar (by simp [isVector, hlanes])
  | split =>
    rw [hc] at hsuits
    obtain ⟨hvector, hvector', hscalar, hlanes⟩ := half?_eq_some hsuits
    have hpos : 0 < (T.transform t).lanes := by
      simpa [isVector, Nat.pos_iff_ne_zero] using hvector'
    refine ⟨hnot (by simp [hc]), by omega, ?_, hlanes⟩
    rw [lane?_eq_scalar hvector, lane?_eq_scalar hvector', hscalar]

/-- All that a description decides. It gives a target exactly when its comparison type is a legal
integer and some legal integer has eight bits or more. The target then transforms every type as its
action asks, halves of expanded integers are legal or expanded again, and every type becomes legal in
finitely many transformations; the index type is a legal integer that has every index of a lane. -/
theorem target_exact (d : Description) :
    ((∃ T, d.target = .ok T) ↔ d.legal ≠ [] ∧ (d.compareType ∈ d.legal ∧ d.compareType.IsWord) ∧
      ∃ t ∈ d.legal, t.IsWord ∧ 8 ≤ t.bits) ∧
    ∀ T, d.target = .ok T →
      (∀ t, T.action t = (T.classify t).answer ∧ d.Prescribes t (T.transform t) (T.classify t)) ∧
      (∀ t, T.classify t = .expandInteger → T.classify (T.transform t) = .legal ∨
        T.classify (T.transform t) = .expandInteger) ∧
      (∀ t, ∃ k, T.transform^[k] t ∈ d.legal) ∧
      T.indexType ∈ d.legal ∧ T.indexType.IsWord ∧
        ∀ (t : ValueType) i, i < t.lanes → i < 2 ^ T.indexType.bits := by
  refine ⟨⟨?_, ?_⟩, fun T h => ⟨fun t => ⟨T.action_eq t, prescribes h t⟩, fun t hc => ?_,
    fun t => ?_, ?_⟩⟩
  · rintro ⟨T, h⟩
    obtain ⟨hcompare, hword, _⟩ := target_eq_ok h
    obtain ⟨hindex, hlegal, hbits⟩ := indexType_isWord h
    have hmem := isLegal_iff.1 hcompare
    exact ⟨List.ne_nil_of_mem hmem, ⟨hmem, hword⟩, _, (classify_eq_legal_iff h).1 hlegal, hindex,
      hbits⟩
  · rintro ⟨_, ⟨hcompare, hword⟩, w, hw, hwide, hbits⟩
    exact exists_target_of_isSome hcompare hword
      (transform?_isSome (mem_legalInts.2 ⟨hwide, isLegal_iff.2 hw⟩) hbits)
  · have hT := target_regular h
    rcases hT.word_cases (hT.expanded hc).2.1 with hlegal | hpromoted | hexpanded
    · exact .inl hlegal
    · exact absurd hpromoted (hT.half_ne_promoted hc)
    · exact .inr hexpanded
  · obtain ⟨k, hk⟩ := (target_regular h).exists_iterate_legal t
    exact ⟨k, (classify_eq_legal_iff h).1 hk⟩
  · obtain ⟨hword, hlegal, hbits⟩ := indexType_isWord h
    refine ⟨(classify_eq_legal_iff h).1 hlegal, hword, fun t i hi => ?_⟩
    calc i < t.lanes := hi
      _ ≤ 2 ^ 8 := Nat.le_trans t.lanes_le (by decide)
      _ ≤ 2 ^ T.indexType.bits := Nat.pow_le_pow_right (by decide) hbits

/-- Bytes and pairs of them, each listed twice, and comparisons that give a single bit. -/
def bytePairs : Description :=
  ⟨"bytes", [.v2i8, .i8, .i1, .v2i8, .i8], .i1⟩

theorem target_exact_bytePairs : ∃ T, bytePairs.target = .ok T ∧
    bytePairs.Prescribes .i128 (T.transform .i128) .expandInteger ∧
    bytePairs.Prescribes .v16i8 (T.transform .v16i8) .split ∧
    (∃ k, T.transform^[k] .ppcf128 ∈ bytePairs.legal) ∧ T.indexType.IsWord := by
  obtain ⟨hiff, hall⟩ := target_exact bytePairs
  obtain ⟨T, hT⟩ := hiff.2 (by decide)
  have hclass : bytePairs.target.toOption.map (fun T => (T.classify .i128, T.classify .v16i8)) =
      some (.expandInteger, .split) := rfl
  rw [hT] at hclass
  obtain ⟨hwide, hvector⟩ := Prod.mk.inj (Option.some.inj hclass)
  obtain ⟨hanswers, _, hends, _, hindex, _⟩ := hall T hT
  exact ⟨T, hT, hwide ▸ (hanswers .i128).2, hvector ▸ (hanswers .v16i8).2, hends .ppcf128, hindex⟩

end Description

end Dataflow
