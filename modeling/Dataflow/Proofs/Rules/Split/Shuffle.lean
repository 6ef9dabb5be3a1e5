import Dataflow.Legal.Split.Shuffle
import Dataflow.Proofs.Rules.Split.Lanes

/-!
# Vectors in two halves: shuffles

A lane of the joined inputs is a lane of one of four quarters.
-/

namespace Dataflow

/-- The node has a selector for the lanes of a vector of type `t`, which reads lanes of two inputs of
type `u`. -/
def Node.Masked (n : Node) (u t : ValueType) : Prop :=
  ∃ lanes, n.attr = .mask lanes ∧ lanes.length = t.lanes ∧ ∀ l, some l ∈ lanes → l < 2 * u.lanes

theorem Node.Masked.attributed {n : Node} {u t : ValueType} (h : n.Masked u t)
    (hop : n.opcode = .vectorShuffle) (hres : n.results = [t]) (within : Nat → ValueType → Prop) :
    n.Attributed within [u, u] := by
  unfold Attributed
  rw [hop, hres]
  exact h

namespace Legal.Split

open RuleSpec RewriteSpec

variable {V : RewriteSpec} {t u s : ValueType} {q : Quarters} {Q : Nat → List Nat} {n : Nat}
  {mask : List (Option Nat)}

/-- The lanes of the quarters, one after the other. -/
def joined (Q : Nat → List Nat) : List Nat :=
  Q 0 ++ Q 1 ++ (Q 2 ++ Q 3)

theorem getElem?_joined (hQ : ∀ i, (Q i).length = n) {l : Nat} (hl : l < 4 * n) :
    (joined Q)[l]? = (Q (l / n))[l % n]? := by
  have hn : 0 < n := by omega
  have hsplit := Nat.div_add_mod l n
  have hmod := Nat.mod_lt l hn
  have hdiv : l / n < 4 := Nat.div_lt_of_lt_mul (by rwa [Nat.mul_comm])
  simp only [joined, List.getElem?_append, List.length_append, hQ]
  have hcases (k : Nat) (hk : k < 4) : k = 0 ∨ k = 1 ∨ k = 2 ∨ k = 3 := by omega
  obtain h | h | h | h := hcases _ hdiv
  all_goals rw [h] at hsplit ⊢
  · rw [if_pos (by omega), if_pos (by omega)]
    congr 1
    omega
  · rw [if_pos (by omega), if_neg (by omega)]
    congr 1
    omega
  · rw [if_neg (by omega), if_pos (by omega)]
    congr 1
    omega
  · rw [if_neg (by omega), if_neg (by omega)]
    congr 1
    omega

theorem selected_joined (hQ : ∀ i, (Q i).length = n) {l : Nat} (hl : l < 4 * n) :
    Node.selected (joined Q) (some l) = (Q (l / n))[l % n]?.getD 0 := by
  rw [Node.selected, getElem?_joined hQ hl]

theorem mem_quartersRead {l : Nat} (hl : some l ∈ mask) : l / n ∈ quartersRead n mask := by
  rw [quartersRead, List.mem_eraseDups]
  exact List.mem_map_of_mem (List.mem_filterMap.2 ⟨some l, hl, rfl⟩)

/-- Lanes of two quarters, by their numbers in the two. -/
theorem selected_renumbered {first second : Nat} (hQ : ∀ i, (Q i).length = n)
    (hmask : ∀ l, some l ∈ mask → l < 4 * n ∧ (l / n = first ∨ l / n = second)) :
    (renumbered n first mask).map (Node.selected (Q first ++ Q second)) =
      mask.map (Node.selected (joined Q)) := by
  rw [renumbered, List.map_map]
  refine List.map_congr_left fun lane hlane => ?_
  cases lane with
  | none => rfl
  | some l =>
    obtain ⟨hl, hquarter⟩ := hmask l hlane
    have hmod := Nat.mod_lt l (show 0 < n by omega)
    rw [selected_joined hQ hl, Function.comp_apply, Option.map_some, Node.selected]
    split
    · next h =>
      rw [List.getElem?_append_left (by rw [hQ]; omega), h, Nat.zero_add]
    · next h =>
      rw [List.getElem?_append_right (by rw [hQ]; omega), hQ, Nat.add_sub_cancel_left,
        hquarter.resolve_left h]

/-- The quarters and the lanes that they have. -/
def Quarters.Have (V : RuleSpec) (s : ValueType) (Q : Nat → List Nat) (q : Quarters) : Prop :=
  ∀ i, V.Is (q.get i) s (.vector (Q i))

theorem meets_quartersOf {a b : Value} (hn : V.Shows .vectorShuffle [u, u] t)
    (hc : V.T.classify u = .split) (ha : V.Source a ∧ V.Is a u (.vector (V.lanesOf 0)))
    (hb : V.Source b ∧ V.Is b u (.vector (V.lanesOf 1))) :
    V.Meets (quartersOf V.id a b) fun p => V.node.attr = .mask p.1 ∧
      (∀ l, some l ∈ p.1 → l < 4 * (V.T.transform u).lanes) ∧
      ∃ Q, p.2.Have V.toRuleSpec (V.T.transform u) Q ∧
        (V.sem → V.lanesOf 0 ++ V.lanesOf 1 = joined Q) := by
  have htotal := hn.not_total rfl
  refine .bind (.node V.node_final) ?_
  rintro _ rfl
  unfold Node.mask?
  split
  · next mask hmask =>
    split at hmask
    · next mask' hattr =>
      cases hmask
      refine .bind (.vectorHalves ha.1 ha.2 hc) ?_
      rintro ⟨aLo, aHi⟩ ⟨l, l', haLo, haHi, hl⟩
      refine .bind (.vectorHalves hb.1 hb.2 hc) ?_
      rintro ⟨bLo, bHi⟩ ⟨m, m', hbLo, hbHi, hm⟩
      refine .typeOf_bind haLo ?_
      dsimp only
      split
      · exact .bind (P := fun _ => False) (.obstacle _ htotal) fun _ h => h.elim
      next hbound =>
      refine .pure ⟨hattr, fun k hk => ?_, fun i => [l, l', m].getD i m', fun i => ?_,
        fun hs => ?_⟩
      · refine Nat.lt_of_not_le fun hle => hbound (List.any_eq_true.2 ⟨some k, hk, ?_⟩)
        simpa using hle
      · rcases i with _ | _ | _ | i
        · exact haLo
        · exact haHi
        · exact hbLo
        · exact hbHi
      · rw [hl hs, hm hs]
        rfl
    · cases hmask
  · exact .obstacle _ htotal

section
variable {V : RuleSpec} (hs : s.isVector = true) (ht : t.isVector = true)
  (hscalar : s.scalar = t.scalar)
  (hshuffle : V.Admits .vectorShuffle [t, s, s]) (hq : q.Have V s Q)
  (hmask : ∀ l, some l ∈ mask → l < 4 * s.lanes) (hlen : mask.length = t.lanes)
include hs ht hscalar hshuffle hq hmask hlen

/-- A selection from at most two quarters is a shuffle. -/
theorem meets_shuffleTwo {first second : Nat}
    (hread : ∀ l, some l ∈ mask → l / s.lanes = first ∨ l / s.lanes = second) :
    V.Meets (Edit.shuffle (q.get first) (q.get second) (renumbered s.lanes first mask) t) fun w =>
      V.Is w t (.vector (mask.map (Node.selected (joined Q)))) := by
  refine (Meets.shuffle hs ht hscalar hshuffle (fun _ => ?_) (fun _ k hk => ?_) (hq first)
    (hq second)).mono fun w hw => hw.congr fun hsem => ?_
  · rw [renumbered, List.length_map, hlen]
  · obtain ⟨lane, hlane, heq⟩ := List.mem_map.1 hk
    cases lane with
    | none => cases heq
    | some l =>
      cases heq
      have := Nat.mod_lt l (show 0 < s.lanes by have := hmask l hlane; omega)
      dsimp only
      split <;> omega
  · rw [selected_renumbered (fun i => (Datum.fits_vector.1 ((hq i).fits hsem)).2.1)
      fun l hl => ⟨hmask l hl, hread l hl⟩]

theorem meets_selectLanes (htotal : ¬ V.total)
    (hextract : V.Admits .extractElement [s.scalar, s, V.T.indexType])
    (hsmall : V.Small 0 t ∧ V.Small 0 t.scalar) : V.Meets (selectLanes V.T q mask t) fun w =>
      V.Is w t (.vector (mask.map (Node.selected (joined Q)))) := by
  have hundef {w : ValueType} (hw : V.Small 0 w) : V.Admits .undef [w] :=
    .of_small (by simp) (by simpa [Opcode.stage] using hw) fun h => absurd h htotal
  refine .typeOf_bind (hq 0) ?_
  dsimp only
  split
  · next hread =>
    refine (Meets.undef (hundef hsmall.1)).mono fun w hw => hw.congr fun _ => ?_
    rw [Datum.ofNumber, if_pos ht, Word.limbs_eq_map, ← hlen]
    congr 1
    -- no lane is read
    refine List.ext_getElem? fun j => ?_
    by_cases hj : j < mask.length
    · rw [List.getElem?_map, List.getElem?_map, List.getElem?_range hj,
        List.getElem?_eq_getElem hj, Option.map_some, Option.map_some, Nat.zero_div, Nat.zero_mod]
      cases hlane : mask[j] with
      | none => rfl
      | some l =>
        have := mem_quartersRead (n := s.lanes) (hlane ▸ List.getElem_mem hj)
        rw [hread] at this
        cases this
    · rw [List.getElem?_eq_none (by simpa using hj), List.getElem?_eq_none (by simpa using hj)]
  · next first hread =>
    refine meets_shuffleTwo hs ht hscalar hshuffle hq hmask hlen fun l hl => .inl ?_
    have := mem_quartersRead (n := s.lanes) hl
    rw [hread] at this
    exact List.mem_singleton.1 this
  · next first second hread =>
    refine meets_shuffleTwo hs ht hscalar hshuffle hq hmask hlen fun l hl => ?_
    have := mem_quartersRead (n := s.lanes) hl
    rw [hread] at this
    simpa using this
  · refine .bind (.mapM_forall₂ (R := fun w lane =>
      V.Is w t.scalar (.scalar (Node.selected (joined Q) lane))) fun lane hlane => ?_) fun ws hws =>
        .buildElements ht (List.forall₂_map_right_iff.2 hws) (by rw [List.length_map, hlen]) htotal
          hsmall
    cases lane with
    | none =>
      refine (Meets.undef (hundef hsmall.2)).mono fun w hw => ?_
      rwa [Datum.ofNumber_word t.isVector_scalar, Nat.zero_mod] at hw
    | some l =>
      have hl := hmask l hlane
      have hmod := Nat.mod_lt l (show 0 < s.lanes by omega)
      rw [← hscalar]
      refine .extractLane hs hextract (hq _) (fun _ => hmod) fun hsem => ?_
      have hQ (i : Nat) : (Q i).length = s.lanes := (Datum.fits_vector.1 ((hq i).fits hsem)).2.1
      rw [selected_joined hQ hl, List.getElem?_eq_getElem (by rw [hQ]; exact hmod), Option.getD_some]

end

/-- Lanes of the halves may be read, by index. -/
theorem admits_extract (hn : V.Shows .vectorShuffle [u, u] t) (hc : V.T.classify u = .split) :
    V.Admits .extractElement [(V.T.transform u).scalar, V.T.transform u, V.T.indexType] := by
  have hu := halved hc
  have hmem := hn.mem_operand (u := u) (by simp)
  refine .of_small (by simp) ?_ fun h => absurd h (hn.not_total rfl)
  rw [hu.scalar]
  simpa using ⟨.lighter hmem hu.scalarLight (Opcode.stage_le _),
    .lighter hmem hu.light (Opcode.stage_le _), .legal V.regular.indexType.2.1⟩

theorem meets_ofShuffle (hn : V.Shows .vectorShuffle [u, u] t) (hu : u.isVector = true)
    (hc : V.T.classify t = .split) :
    V.Meets (ofShuffle V.T V.id 0) fun p => V.Paired t p ∧ V.node.Masked u t := by
  have ht := halved hc
  have hlight := ht.light
  have htotal := hn.not_total rfl
  refine .bind (.resultType hn.results) ?_
  rintro _ rfl
  refine .bind (.operandLanes (hn.operandType rfl) hu) fun a ha => ?_
  refine .bind (.operandLanes (hn.operandType rfl) hu) fun b hb => ?_
  refine .typeOf_bind ha.2 ?_
  by_cases hut : u = t
  · subst hut
    rw [if_neg (not_not.2 rfl)]
    refine .typeOf_bind hb.2 ?_
    rw [if_neg (not_not.2 rfl)]
    refine .bind (meets_quartersOf hn hc ha hb) ?_
    rintro ⟨mask, q⟩ ⟨hattr, hmask, Q, hq, hjoined⟩
    dsimp only at hattr hmask hq ⊢
    split
    · exact .bind (P := fun _ => False) (.obstacle _ htotal) fun _ h => h.elim
    next hlen =>
    rw [not_not] at hlen
    have hshuffle : V.Admits .vectorShuffle [V.T.transform u, V.T.transform u, V.T.transform u] :=
      hn.admits (by simp) (by simp [Nat.le_of_lt hlight]) (by simp; omega) fun h => absurd h htotal
    have hsmall : V.Small 0 (V.T.transform u) ∧ V.Small 0 (V.T.transform u).scalar :=
      ⟨.lighter hn.mem hlight (by decide),
        by rw [ht.scalar]; exact .lighter hn.mem ht.scalarLight (by decide)⟩
    have hselect (mask' : List (Option Nat)) (hsub : ∀ lane ∈ mask', lane ∈ mask)
        (hlen' : mask'.length = (V.T.transform u).lanes) :=
      meets_selectLanes ht.halfVector ht.halfVector rfl hshuffle hq
        (fun l hl => hmask l (hsub _ hl)) hlen' htotal (admits_extract hn hc) hsmall
    refine .bind (hselect _ (fun lane => List.mem_of_mem_take) (by rw [List.length_take]; omega))
      fun lo hlo => ?_
    refine .bind (hselect _ (fun lane => List.mem_of_mem_drop) (by rw [List.length_drop]; omega))
      fun hi hhi => .pure ⟨Is.pairedLanes ht.half hlo hhi fun hs => ?_, mask, hattr, ?_, ?_⟩
    · rw [hn.accepts_iff (by simp), hn.datum_shuffle hs hu hu hattr, hjoined hs, ← List.map_append,
        List.take_append_drop]
    · rw [hlen, ht.lanes]
    · intro l hl
      have := hmask l hl
      have := ht.lanes
      omega
  · rw [if_pos hut]
    exact .bind (P := fun _ => False) (.obstacle _ htotal) fun _ h => h.elim

/-! ### Operands -/

theorem meets_inShuffle (hn : V.Shows .vectorShuffle [u, u] t) (ht : t.isVector = true)
    (hscalar : u.scalar = t.scalar) (hlegal : V.T.classify t = .legal)
    (hc : V.T.classify u = .split) :
    V.Meets (inShuffle V.T V.id) fun w => V.Stands t w ∧ V.node.Masked u t := by
  have hu := halved hc
  have hlight := hu.light
  have htotal := hn.not_total rfl
  refine .bind (.resultType hn.results) ?_
  rintro _ rfl
  refine .bind (.operandLanes (hn.operandType rfl) hu.vector) fun a ha => ?_
  refine .bind (.operandLanes (hn.operandType rfl) hu.vector) fun b hb => ?_
  refine .typeOf_bind ha.2 (.typeOf_bind hb.2 ?_)
  rw [if_neg (not_not.2 rfl)]
  refine .bind (meets_quartersOf hn hc ha hb) ?_
  rintro ⟨mask, q⟩ ⟨hattr, hmask, Q, hq, hjoined⟩
  dsimp only at hattr hmask hq ⊢
  split
  · exact .bind (P := fun _ => False) (.obstacle _ htotal) fun _ h => h.elim
  next hlen =>
  have hshuffle : V.Admits .vectorShuffle [t, V.T.transform u, V.T.transform u] :=
    hn.admits (by simp) (by simp [Nat.le_of_lt hlight]) (by simp; omega) fun h => absurd h htotal
  have hsmall : V.Small 0 t ∧ V.Small 0 t.scalar :=
    ⟨.legal hlegal, by
      rw [← hscalar]
      exact .lighter (hn.mem_operand (u := u) (by simp)) hu.scalarLight (by decide)⟩
  refine (meets_selectLanes hu.halfVector ht (hu.scalar.trans hscalar) hshuffle hq hmask
    (not_not.1 hlen) htotal (admits_extract hn hc) hsmall).mono fun w hw =>
      ⟨hw.stands fun hs => ?_, mask, hattr, not_not.1 hlen, ?_⟩
  · rw [hn.accepts_iff (by simp), hn.datum_shuffle hs hu.vector ht hattr, hjoined hs]
  · intro l hl
    have := hmask l hl
    have := hu.lanes
    omega

end Legal.Split

end Dataflow
