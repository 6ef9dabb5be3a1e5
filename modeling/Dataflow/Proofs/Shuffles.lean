import Dataflow.Proofs.Rules.Split.Shuffle
import Dataflow.Proofs.ReadyDraft

/-!
# Shuffles of split vectors

A selection of lanes from four quarters has the lanes that its selector names, in whichever form it
is made. So have the halves of a split shuffle, and a legal shuffle of split vectors.
-/

namespace Dataflow

namespace Legal

open Draft

variable {T : Target} {d d' : Draft} {args : Array BitString} {values : Values} {id : NodeId}
  {n : Node} {s t u : ValueType} {e : Datum}

/-- A result in two half vectors has the lanes of both. -/
theorem RewriteSpec.Paired.lanes {V : RewriteSpec} {p : Value × Value} (h : V.Paired t p)
    (hn : V.Shows .vectorShuffle [u, u] t) (hc : V.T.classify t = .split) (hs : V.sem) :
    ∃ l m, V.Is p.1 (V.T.transform t) (.vector l) ∧ V.Is p.2 (V.T.transform t) (.vector m) ∧
      V.datum = .vector (l ++ m) := by
  have ht := Split.halved hc
  obtain ⟨l, hlo, hl⟩ := h.low.vector ht.halfVector
  obtain ⟨m, hhi, hm⟩ := h.high.vector ht.halfVector
  have hdatum := h.datum hs
  rw [hn.accepts_iff (by simp), Parts.assemble, hl hs, hm hs,
    Datum.ofNumber_halves ht.half (hlo.fits hs) (hhi.fits hs)] at hdatum
  exact ⟨l, m, hlo, hhi, hdatum.symm⟩

namespace Split

/-- The quarters in canonical form. -/
def Quarters.canonical (q : Quarters) (r : Replacements) : Quarters :=
  ⟨r.canon q.aLo, r.canon q.aHi, r.canon q.bLo, r.canon q.bHi⟩

theorem Quarters.get_canonical (q : Quarters) (r : Replacements) (i : Nat) :
    (q.canonical r).get i = r.canon (q.get i) := by
  rcases i with _ | _ | _ | i <;> rfl

/-- A shuffle with a selector in range can be evaluated. -/
theorem evaluates_of_masked (h : d.Ready T values id n [u, u] t) (hop : n.opcode = .vectorShuffle)
    (hmasked : n.Masked u t) (args : Array BitString) :
    ∃ e, Eval.node ⟨d.graph, args, values⟩ id = .ok e := by
  obtain ⟨lanes, hattr, hlen, hmask⟩ := hmasked
  have hequipped : n.Equipped := by
    unfold Node.Equipped
    rw [hop]
    exact ⟨lanes, hattr, by simp [h.results, hlen]⟩
  have hdefined (data : List Datum) : n.Defined args data [u, u] := by
    unfold Node.Defined
    rw [hop]
    intro u' lanes' l hu hattr' hl
    cases hu
    rw [hattr] at hattr'
    cases hattr'
    exact hmask l hl
  obtain ⟨e, he, _⟩ := h.evaluates args hequipped hdefined
  exact ⟨e, he⟩

theorem selectLanes_exact (hT : T.Regular) (hd : d.Traceable) (hsize : values.size = d.graph.size)
    (hs : s.isVector = true) (ht : t.isVector = true) (hscalar : s.scalar = t.scalar) {q : Quarters}
    {Q : Nat → List Nat} (hq : ∀ i, d.Has values (q.get i) s (.vector (Q i)))
    {mask : List (Option Nat)} (hlen : mask.length = t.lanes)
    (hmask : ∀ l, some l ∈ mask → l < 4 * s.lanes) :
    ∃ w d' values', (selectLanes T (q.canonical d.replaced) mask t).run d = .ok w d' ∧
      d'.graph.evaluateFrom args values = .ok values' ∧
      d'.Has values' w t (.vector (mask.map (Node.selected (joined Q)))) := by
  let V {g : Graph} (hg : d.graph.Extends g) : RuleSpec :=
    evaluatedSpec hT hd hsize hg args 0 (fun _ => False) (fun _ => trivial : False → True)
  -- nothing is measured and nothing need be scalar code, so all that is added is admitted
  have hmeets {g : Graph} (hg : d.graph.Extends g) :
      (V hg).Meets (selectLanes T (q.canonical d.replaced) mask t) fun w =>
        (V hg).Is w t (.vector (mask.map (Node.selected (joined Q)))) := by
    refine meets_selectLanes hs ht hscalar ⟨False.elim, False.elim⟩ (fun i => ?_) hmask hlen id
      ⟨False.elim, False.elim⟩ ⟨False.elim, False.elim⟩
    rw [Quarters.get_canonical]
    exact (hq i).is
  cases hrun : (selectLanes T (q.canonical d.replaced) mask t).run d with
  | error e d' => exact ((hmeets (Edit.grows_of_error hrun).graph).error hrun rfl).elim
  | ok w d' =>
    obtain ⟨hw, hevaluates⟩ :=
      evaluatedSpec_of_ok hd hsize hrun (hmeets (Edit.grows_of_ok hrun).graph)
    obtain ⟨values', heval, hends⟩ := hevaluates trivial
    exact ⟨w, d', values', rfl, heval, hends.has hw⟩

section
variable (h : d.Ready T values id n [u, u] t) (hop : n.opcode = .vectorShuffle)
include h hop

theorem types_of_shuffle : u.isVector = true ∧ t.isVector = true ∧ u.scalar = t.scalar := by
  have hsig := h.signature
  rw [hop] at hsig
  cases hsig with
  | vectorShuffle hu ht hscalar => exact ⟨hu, ht, hscalar⟩

theorem ofShuffle_exact (hT : T.Regular) (hc : T.classify t = .split) {p : Value × Value}
    (hrun : (ofShuffle T id 0).run d = .ok p d') :
    ∃ l m values', Eval.node ⟨d.graph, args, values⟩ id = .ok (.vector (l ++ m)) ∧
      d'.graph.evaluateFrom args values = .ok values' ∧
      d'.Has values' p.1 (T.transform t) (.vector l) ∧
      d'.Has values' p.2 (T.transform t) (.vector m) := by
  obtain ⟨hu, _, _⟩ := types_of_shuffle h hop
  have hg := (Edit.grows_of_ok hrun).graph
  -- that the rule has not failed shows that the selector is in range
  have hmasked : n.Masked u t :=
    ((meets_ofShuffle (V := h.outline hT hg) ⟨hop, rfl, h.results⟩ hu hc).ok hrun rfl).2.2
  obtain ⟨e, he⟩ := evaluates_of_masked h hop hmasked args
  let V := h.rewriteSpec hT hg args (fun _ => trivial : False → True) False.elim
    (fun _ _ => hmasked.attributed hop h.results _) fun _ => he
  have hn : V.Shows .vectorShuffle [u, u] t := ⟨hop, rfl, h.results⟩
  obtain ⟨⟨hpaired, _⟩, values', heval, hends⟩ := h.of_ok hrun (meets_ofShuffle hn hu hc)
  obtain ⟨l, m, hlo, hhi, hdatum⟩ := hpaired.lanes hn hc trivial
  have hdatum : e = .vector (l ++ m) := hdatum
  exact ⟨l, m, values', hdatum ▸ he, heval, hends.has hlo, hends.has hhi⟩

theorem inShuffle_exact (hT : T.Regular) (hlegal : T.classify t = .legal)
    (hc : T.classify u = .split) {w : Value} (hrun : (inShuffle T id).run d = .ok w d') :
    ∃ e values', Eval.node ⟨d.graph, args, values⟩ id = .ok e ∧
      d'.graph.evaluateFrom args values = .ok values' ∧ d'.Has values' w t e := by
  obtain ⟨_, ht, hscalar⟩ := types_of_shuffle h hop
  have hg := (Edit.grows_of_ok hrun).graph
  have hmasked : n.Masked u t :=
    ((meets_inShuffle (V := h.outline hT hg) ⟨hop, rfl, h.results⟩ ht hscalar hlegal hc).ok hrun
      rfl).2.2
  obtain ⟨e, he⟩ := evaluates_of_masked h hop hmasked args
  let V := h.rewriteSpec hT hg args (fun _ => trivial : False → True) False.elim
    (fun _ _ => hmasked.attributed hop h.results _) fun _ => he
  have hn : V.Shows .vectorShuffle [u, u] t := ⟨hop, rfl, h.results⟩
  obtain ⟨⟨hstands, _⟩, values', heval, hends⟩ :=
    h.of_ok hrun (meets_inShuffle hn ht hscalar hlegal hc)
  have hdatum := (hn.accepts_iff (by simp)).1 (hstands.datum trivial)
  exact ⟨e, values', he, heval, hends.has (hstands.is.congr fun _ => hdatum)⟩

end

/-- Shuffles of split vectors select the same lanes, for every target. What is selected from four
quarters has the lanes that the selector names, zeros where it names none; the rules for split
results and for split inputs give the lanes of the shuffle, where they succeed. -/
theorem shuffle_exact {D : Description} (hT : D.target = .ok T) :
    (∀ (s t : ValueType) (q : Quarters) (Q : Nat → List Nat) (mask : List (Option Nat)),
      d.Traceable → values.size = d.graph.size → s.isVector = true → t.isVector = true →
      s.scalar = t.scalar → (∀ i, d.Has values (q.get i) s (.vector (Q i))) →
      mask.length = t.lanes → (∀ l, some l ∈ mask → l < 4 * s.lanes) →
      ∃ w d' values', (selectLanes T (q.canonical d.replaced) mask t).run d = .ok w d' ∧
        d'.graph.evaluateFrom args values = .ok values' ∧
        d'.Has values' w t (.vector (mask.map (Node.selected (Q 0 ++ Q 1 ++ (Q 2 ++ Q 3)))))) ∧
    ∀ (id : NodeId) (n : Node) (u t : ValueType) (d' : Draft), d.Ready T values id n [u, u] t →
      n.opcode = .vectorShuffle →
      (∀ p, T.classify t = .split → (ofShuffle T id 0).run d = .ok p d' →
        ∃ l m values', Eval.node ⟨d.graph, args, values⟩ id = .ok (.vector (l ++ m)) ∧
          d'.graph.evaluateFrom args values = .ok values' ∧
          d'.Has values' p.1 (T.transform t) (.vector l) ∧
          d'.Has values' p.2 (T.transform t) (.vector m)) ∧
      ∀ w, T.classify t = .legal → T.classify u = .split → (inShuffle T id).run d = .ok w d' →
        ∃ e values', Eval.node ⟨d.graph, args, values⟩ id = .ok e ∧
          d'.graph.evaluateFrom args values = .ok values' ∧ d'.Has values' w t e := by
  have hregular := Description.target_regular hT
  constructor
  · intro s t q Q mask hd hsize hs ht hscalar hq hlen hmask
    exact selectLanes_exact hregular hd hsize hs ht hscalar hq hlen hmask
  · intro id n u t d' h hop
    constructor
    · intro p hc hrun
      exact ofShuffle_exact h hop hregular hc hrun
    · intro w hlegal hc hrun
      exact inShuffle_exact h hop hregular hlegal hc hrun

/-- Two vectors of eight words in halves, and shuffles of them that read three quarters: one of eight
words, and one of four. -/
def crossingDraft : Draft where
  graph := (((((((Graph.empty.push { opcode := .argument, results := [.v4i32], attr := .arg 0 0 }).push
    { opcode := .argument, results := [.v4i32], attr := .arg 0 128 }).push
    { opcode := .argument, results := [.v4i32], attr := .arg 0 256 }).push
    { opcode := .argument, results := [.v4i32], attr := .arg 0 384 }).push
    { opcode := .concatVectors, operands := [⟨0, 0⟩, ⟨1, 0⟩], results := [.v8i32] }).push
    { opcode := .concatVectors, operands := [⟨2, 0⟩, ⟨3, 0⟩], results := [.v8i32] }).push
    { opcode := .vectorShuffle, operands := [⟨4, 0⟩, ⟨5, 0⟩], results := [.v8i32],
      attr := .mask [some 15, none, some 4, some 9, some 12, some 0, some 1, some 13] }).push
    { opcode := .vectorShuffle, operands := [⟨4, 0⟩, ⟨5, 0⟩], results := [.v4i32],
      attr := .mask [some 15, none, some 4, some 9] }
  conversions := .ofList [(⟨4, 0⟩, ⟨.split, .two ⟨0, 0⟩ ⟨1, 0⟩⟩),
    (⟨5, 0⟩, ⟨.split, .two ⟨2, 0⟩ ⟨3, 0⟩⟩)]

/-- Lanes that tell the quarters. -/
def crossingValues : Values :=
  #[some (.vector [0, 1, 2, 3]), some (.vector [10, 11, 12, 13]), some (.vector [20, 21, 22, 23]),
    some (.vector [30, 31, 32, 33]), some (.vector [0, 1, 2, 3, 10, 11, 12, 13]),
    some (.vector [20, 21, 22, 23, 30, 31, 32, 33]), none, none]

theorem traceable_crossingDraft : crossingDraft.Traceable :=
  Draft.traceable_of_replaced_eq rfl

theorem has_crossingDraft {v : Value} {l : List Nat}
    (htype : crossingDraft.graph.typeOf? v = some .v4i32)
    (hvalue : crossingValues[v.node]? = some (some (.vector l)))
    (hl : l.length = 4 ∧ ∀ x ∈ l, x < 2 ^ 32) :
    crossingDraft.Has crossingValues v .v4i32 (.vector l) :=
  ⟨htype, hvalue, Datum.fits_vector.2 ⟨rfl, hl.1, hl.2⟩⟩

theorem supplies_crossingDraft (hkind : (T.classify .v8i32).kind? = some .split)
    (hhalf : T.transform .v8i32 = .v4i32) {v lo hi : Value} {l m : List Nat}
    (htype : crossingDraft.graph.typeOf? v = some .v8i32)
    (hvalue : crossingValues[v.node]? = some (some (.vector (l ++ m))))
    (hget : crossingDraft.conversions.get? v = some ⟨.split, .two lo hi⟩)
    (hlo : crossingDraft.Has crossingValues lo .v4i32 (.vector l))
    (hhi : crossingDraft.Has crossingValues hi .v4i32 (.vector m)) :
    crossingDraft.Supplies T crossingValues v .v8i32 (.vector (l ++ m)) := by
  have hhalves := Datum.ofNumber_halves (t := .v8i32) rfl hlo.fits hhi.fits
  have hfits : (Datum.vector (l ++ m)).Fits .v8i32 := hhalves ▸ Datum.fits_ofNumber ..
  refine ⟨⟨htype, hvalue, hfits⟩, htype, hvalue, fun _ => ⟨_, hget, ?_⟩⟩
  rw [← hhalves]
  rw [← hhalf] at hlo hhi ⊢
  exact .two hkind rfl hlo hhi

theorem ready_crossingDraft (hkind : (T.classify .v8i32).kind? = some .split)
    (hhalf : T.transform .v8i32 = .v4i32) (hn : crossingDraft.graph.nodes[id]? = some n)
    (hops : n.operands = [⟨4, 0⟩, ⟨5, 0⟩]) (hres : n.results = [t])
    (hsig : Signature T.Wide n.opcode [.v8i32, .v8i32] t) :
    crossingDraft.Ready T crossingValues id n [.v8i32, .v8i32] t := by
  refine ⟨traceable_crossingDraft, rfl, hn, hres, hsig, ?_⟩
  rw [hops]
  have hlow := supplies_crossingDraft (v := ⟨4, 0⟩) (l := [0, 1, 2, 3]) (m := [10, 11, 12, 13])
    hkind hhalf rfl rfl rfl (has_crossingDraft rfl rfl (by decide))
    (has_crossingDraft rfl rfl (by decide))
  have hhigh := supplies_crossingDraft (v := ⟨5, 0⟩) (l := [20, 21, 22, 23]) (m := [30, 31, 32, 33])
    hkind hhalf rfl rfl rfl (has_crossingDraft rfl rfl (by decide))
    (has_crossingDraft rfl rfl (by decide))
  exact .cons ⟨_, hlow⟩ (.cons ⟨_, hhigh⟩ .nil)

/-- What reads three quarters is built lane by lane; the high half of the wide shuffle comes from two
quarters, the later one first. -/
theorem shuffle_exact_crossing : ∃ T, Target.simd128.target = .ok T ∧
    (∃ w d' values', (selectLanes T ⟨⟨0, 0⟩, ⟨1, 0⟩, ⟨2, 0⟩, ⟨3, 0⟩⟩ [some 12, some 0, some 1, some 13]
        .v4i32).run crossingDraft = .ok w d' ∧
      d'.graph.evaluateFrom #[] crossingValues = .ok values' ∧
      d'.Has values' w .v4i32 (.vector [30, 0, 1, 31])) ∧
    (∃ p d' values', (ofShuffle T 6 0).run crossingDraft = .ok p d' ∧
      d'.graph.evaluateFrom #[] crossingValues = .ok values' ∧
      d'.Has values' p.1 .v4i32 (.vector [33, 0, 10, 21]) ∧
      d'.Has values' p.2 .v4i32 (.vector [30, 0, 1, 31])) ∧
    ∃ w d' values', (inShuffle T 7).run crossingDraft = .ok w d' ∧
      d'.graph.evaluateFrom #[] crossingValues = .ok values' ∧
      d'.Has values' w .v4i32 (.vector [33, 0, 10, 21]) := by
  have hfacts : (Target.simd128.target.toOption.map fun T =>
      decide (T.classify .v8i32 = .split ∧ T.transform .v8i32 = .v4i32 ∧
        T.classify .v4i32 = .legal) && (((ofShuffle T 6 0).run crossingDraft).succeeds &&
          ((inShuffle T 7).run crossingDraft).succeeds)) = some true := rfl
  obtain ⟨T, hT, hfacts⟩ := Description.exists_target hfacts
  obtain ⟨hclass, hsucceeds⟩ := Bool.and_eq_true_iff.1 hfacts
  obtain ⟨hsucceeds, hsucceeds'⟩ := Bool.and_eq_true_iff.1 hsucceeds
  obtain ⟨hsplit, hhalf, hlegal⟩ := of_decide_eq_true hclass
  have hkind : (T.classify .v8i32).kind? = some .split := by rw [hsplit]; rfl
  obtain ⟨hselect, hshuffle⟩ := @shuffle_exact T crossingDraft #[] crossingValues _ hT
  refine ⟨T, hT, ?_, ?_, ?_⟩
  · refine hselect .v4i32 .v4i32 ⟨⟨0, 0⟩, ⟨1, 0⟩, ⟨2, 0⟩, ⟨3, 0⟩⟩ (fun i =>
      [[0, 1, 2, 3], [10, 11, 12, 13], [20, 21, 22, 23]].getD i [30, 31, 32, 33]) _
      traceable_crossingDraft rfl rfl rfl rfl (fun i => ?_) rfl fun l hl => ?_
    · rcases i with _ | _ | _ | i
      · exact has_crossingDraft rfl rfl (by decide)
      · exact has_crossingDraft rfl rfl (by decide)
      · exact has_crossingDraft rfl rfl (by decide)
      · exact has_crossingDraft (l := [30, 31, 32, 33]) rfl rfl (by decide)
    · have hread : ∀ lane ∈ [some 12, some 0, some 1, some 13], ∀ l ∈ lane, l < 16 := by decide
      exact hread (some l) hl l rfl
  · obtain ⟨p, d', hrun⟩ := Edited.exists_ok hsucceeds
    obtain ⟨l, m, values', heval, hvalues, hlo, hhi⟩ := (hshuffle 6 _ .v8i32 .v8i32 d'
      (ready_crossingDraft hkind hhalf rfl rfl rfl (.vectorShuffle rfl rfl rfl)) rfl).1 p hsplit
        hrun
    have hlanes : Datum.vector ([33, 0, 10, 21] ++ [30, 0, 1, 31]) = .vector (l ++ m) :=
      Except.ok.inj heval
    rw [hhalf] at hlo hhi
    have hlen : l.length = 4 := (Datum.fits_vector.1 hlo.fits).2.1
    obtain ⟨rfl, rfl⟩ := List.append_inj (Datum.vector.inj hlanes) hlen.symm
    exact ⟨p, d', values', hrun, hvalues, hlo, hhi⟩
  · obtain ⟨w, d', hrun⟩ := Edited.exists_ok hsucceeds'
    obtain ⟨e, values', heval, hvalues, hw⟩ := (hshuffle 7 _ .v8i32 .v4i32 d'
      (ready_crossingDraft hkind hhalf rfl rfl rfl (.vectorShuffle rfl rfl rfl)) rfl).2 w hlegal
        hsplit hrun
    have hlanes : Datum.vector [33, 0, 10, 21] = e := Except.ok.inj heval
    exact ⟨w, d', values', hrun, hvalues, hlanes ▸ hw⟩

end Split

end Legal

end Dataflow
