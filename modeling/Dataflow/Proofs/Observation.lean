import Dataflow.Proofs.Determination
import Dataflow.Proofs.Reinterpretation

/-!
# Observed bits

An output observes any number of bits of an operand; above the size of the operand they are zeros.
Where parts take the place of an operand, its width is handed out to them, and no part is observed
beyond its own bits. The output then observes the same bits exactly if all bits that it observed
above the size of the operand are bits of the parts, and clear there.
-/

namespace Dataflow

/-- A value of the graph has a type and a datum of this type. -/
def Eval.Finds (g : Graph) (values : Values) (v : Value) (p : ValueType × Datum) : Prop :=
  g.typeOf? v = some p.1 ∧ values[v.node]? = some (some p.2) ∧ p.2.Fits p.1

theorem Eval.fits_of_finds {g : Graph} {values : Values} {vs : List Value}
    {ps : List (ValueType × Datum)} (h : List.Forall₂ (Finds g values) vs ps) :
    ∀ p ∈ ps, p.2.Fits p.1 := by
  intro p hp
  obtain ⟨j, hj, rfl⟩ := List.getElem_of_mem hp
  exact (List.Forall₂.get h (h.length_eq ▸ hj) hj).2.2

/-- An output observes the data of its operands at their widths. -/
theorem Eval.observed_eq_ofCuts {g : Graph} {values : Values} {n : Node}
    {ps : List (ValueType × Datum)} (h : List.Forall₂ (Finds g values) n.operands ps)
    (args : Array BitString) (id : NodeId) :
    observed ⟨g, args, values⟩ id n = .ok (.ofCuts ps (n.widthsAt (ps.map (·.1)))) := by
  have hzip : (ps.map (·.1)).zip (ps.map (·.2)) = ps := by
    rw [List.zip_map']
    exact List.map_id ps
  conv_rhs => rw [← hzip]
  rw [List.map_fst_zip (by simp), ← Node.observation_eq_ofCuts,
    observed_eq_ok_iff (V := fun j => values[j]?.join) fun _ _ => rfl]
  refine observes_eq ?_ ?_ ?_
  · rw [List.map_map, ← List.forall₂_eq_eq_eq, List.forall₂_map_left_iff,
      List.forall₂_map_right_iff]
    exact h.imp fun _ _ hv => hv.1
  · rw [List.map_map, ← List.forall₂_eq_eq_eq, List.forall₂_map_left_iff,
      List.forall₂_map_right_iff]
    exact h.imp fun _ _ hv => by rw [hv.2.1]; rfl
  · rw [List.forall₂_map_left_iff, List.forall₂_map_right_iff, List.forall₂_same]
    exact fits_of_finds h

namespace Legal

variable {T : Target} {d : Draft} {args : Array BitString} {values : Values} {id : NodeId}
  {n : Node} {t : ValueType} {e : Datum} {i : Nat} {parts : List Value}
  {ps pieces : List (ValueType × Datum)}

/-- Nothing is asked of new nodes, and no error may end the edit. -/
def EditSpec.sure (d : Draft) (final : Graph) (h : ∃ rank, d.replaced.Descends rank) : EditSpec :=
  ⟨d, final, fun _ _ => True, fun _ => False, h⟩

theorem EditSpec.sure_run {α : Type} {x : Edit α} {Q : α → Prop}
    {h : ∃ rank, d.replaced.Descends rank} (hx : (sure d (x.run d).draft.graph h).Meets x Q) :
    ∃ a d', x.run d = .ok a d' ∧ Q a := by
  have hholds : (x.run d).Holds (fun a d' => (sure d (x.run d).draft.graph h).Fresh d'.graph ∧ Q a)
    fun _ _ => False := hx.holds rfl
  cases hr : x.run d with
  | error e d' =>
    rw [hr] at hholds
    exact hholds.elim
  | ok a d' =>
    rw [hr] at hholds
    exact ⟨a, d', rfl, hholds.2⟩

/-! ### Parts in the place of an operand -/

/-- Parts at hand whose bits, one part after the other, start with the bits of datum `e`. -/
structure Draft.Renders (d : Draft) (values : Values) (parts : List Value)
    (pieces : List (ValueType × Datum)) (t : ValueType) (e : Datum) : Prop where
  has : List.Forall₂ (fun v p => d.Has values v p.1 p.2) parts pieces
  bits : (BitString.ofData pieces).bits.take t.bits = (BitString.ofDatum e t).bits

def Parts.toList : Parts → List Value
  | one v => [v]
  | two lo hi => [lo, hi]

/-- The parts of every kind of conversion render the value that they stand for. -/
theorem Draft.HasParts.renders {c : Conversion} (hT : T.Regular) (h : d.HasParts T values t c e) :
    ∃ pieces, d.Renders values c.parts.toList pieces t e := by
  cases h with
  | @one kind p x hkind hpair hp =>
    have hbits := hT.bits_parts hkind
    rw [hpair] at hbits
    exact ⟨[(T.transform t, x)], .cons hp .nil, BitString.take_part hp.fits hbits⟩
  | @two kind lo hi x y hkind hpair hlo hhi =>
    have hbits := hT.bits_parts hkind
    rw [hpair] at hbits
    exact ⟨[(T.transform t, x), (T.transform t, y)], .cons hlo (.cons hhi .nil),
      BitString.take_parts hlo.fits hhi.fits hbits⟩

theorem Draft.finds_canon {vs : List Value}
    (h : List.Forall₂ (fun v p => d.Has values v p.1 p.2) vs ps) :
    List.Forall₂ (Eval.Finds d.graph values) (vs.map d.replaced.canon) ps :=
  List.forall₂_map_left_iff.2 (h.imp fun _ _ hv => ⟨hv.type, hv.value, hv.fits⟩)

/-- Parts in the place of an operand, whatever the widths of the output are: the new output observes
the same bits exactly if the parts have a zero at every place that the old one observed above the
size of the operand. So it always does where the width of the operand is at most its size. -/
theorem outputOf_observes_iff (hd : d.Traceable) (hn : d.graph.nodes[id]? = some n)
    (hops : List.Forall₂ (fun v p => d.Has values v p.1 p.2) n.operands ps)
    (hi : ps[i]? = some (t, e)) (hparts : d.Renders values parts pieces t e) :
    ∃ id' d' n' s s', (Edit.outputOf id i (parts.map d.replaced.canon)).run d = .ok (.node id') d' ∧
      d'.graph.nodes[id']? = some n' ∧ n'.opcode = .output ∧
      Eval.observed ⟨d.graph, args, values⟩ id (d.replaced.update n) = .ok s ∧
      Eval.observed ⟨d'.graph, args, values⟩ id' n' = .ok s' ∧
      (s' = s ↔ ∀ j, t.bits ≤ j → j < ((n.widths?.getD [])[i]?).getD t.bits →
        (BitString.ofData pieces).bits[j]? = some false) := by
  obtain ⟨rank, hdesc⟩ := hd.descends
  have hfinds := Draft.finds_canon hops
  have hpieces := Draft.finds_canon hparts.has
  let width := ((n.widths?.getD [])[i]?).getD t.bits
  have hw : (n.widthsAt (ps.map (·.1)))[i]? = some width := by
    rw [Node.getElem?_widthsAt, List.getElem?_map, hi]
    rfl
  let x := Edit.outputOf id i (parts.map d.replaced.canon)
  have hg := (x.grows d).graph
  have htypes {vs : List Value} {qs : List (ValueType × Datum)}
      (h : List.Forall₂ (Eval.Finds d.graph values) vs qs) :
      List.Forall₂ (fun v u => (x.run d).draft.graph.typeOf? v = some u) vs (qs.map (·.1)) :=
    List.forall₂_map_right_iff.2 (h.imp fun _ _ hv => hg.typeOf? hv.1)
  have hcanon (v : Value) (hv : v ∈ parts.map d.replaced.canon) : d.replaced.canon v = v := by
    obtain ⟨u, _, rfl⟩ := List.mem_map.1 hv
    exact hdesc.canon_canon u
  obtain ⟨_, d', hrun, id', rfl, hat⟩ := EditSpec.sure_run (x := x) (h := hd.descends)
    (.outputOf (hg.getElem? hn) (htypes hfinds) (htypes hpieces) hcanon hw fun _ => trivial)
  have hd' : (x.run d).draft = d' := by rw [hrun]; rfl
  have hat : d'.graph.nodes[id']? = _ := hd' ▸ hat
  have hg : d.graph.Extends d'.graph := hd' ▸ hg
  have hnew : List.Forall₂ (Eval.Finds d'.graph values)
      (splice (n.operands.map d.replaced.canon) i (parts.map d.replaced.canon))
      (splice ps i pieces) :=
    (forall₂_splice hfinds hpieces).imp fun _ _ hv => ⟨hg.typeOf? hv.1, hv.2⟩
  refine ⟨id', d', _, _, _, hrun, hat, rfl,
    Eval.observed_eq_ofCuts (n := d.replaced.update n) hfinds args id,
    Eval.observed_eq_ofCuts hnew args id', ?_⟩
  rw [Node.widthsAt_eq rfl (by simp [splice]), List.map_map]
  exact ofCuts_shares_eq_iff (by simp) hi hw (Eval.fits_of_finds hfinds _ (List.mem_of_getElem? hi))
    (Eval.fits_of_finds hpieces) hparts.bits

/-- A byte in a word of 32 bits, of which an output observes the given number of bits. -/
def wordOutput (width : Nat) : Draft where
  graph := ((Graph.empty.push { opcode := .argument, results := [.i8], attr := .arg 0 0 }).push
    { opcode := .argument, results := [.i32], attr := .arg 0 0 }).push
    { opcode := .output, operands := [⟨0, 0⟩], attr := .widths [width] }
  conversions := .ofList [(⟨0, 0⟩, ⟨.promoted, .one ⟨1, 0⟩⟩)]

/-- The word has a bit above the byte. -/
def wordValues : Values :=
  #[some (.scalar 0xff), some (.scalar 0x1ff), none]

/-- All the bits of the byte, and none of those above it. -/
theorem outputOf_observes_iff_byte : ∃ T, Target.int32.target = .ok T ∧
    (wordOutput 8).HasParts T wordValues .i8 ⟨.promoted, .one ⟨1, 0⟩⟩ (.scalar 0xff) ∧
    ∃ id' d' n' s, (Edit.outputOf 2 0 [⟨1, 0⟩]).run (wordOutput 8) = .ok (.node id') d' ∧
      d'.graph.nodes[id']? = some n' ∧
      Eval.observed ⟨(wordOutput 8).graph, #[], wordValues⟩ 2
        ⟨.output, [⟨0, 0⟩], [], .widths [8]⟩ = .ok s ∧
      Eval.observed ⟨d'.graph, #[], wordValues⟩ id' n' = .ok s := by
  have hfacts : (Target.int32.target.toOption.map fun T =>
      decide ((T.classify .i8).kind? = some .promoted ∧ T.transform .i8 = .i32)) = some true := rfl
  obtain ⟨T, hT, hfacts⟩ := Description.exists_target hfacts
  obtain ⟨hkind, htransform⟩ := of_decide_eq_true hfacts
  have hparts : (wordOutput 8).HasParts T wordValues .i8 ⟨.promoted, .one ⟨1, 0⟩⟩
      (.ofNumber .i8 (Datum.number (T.transform .i8) (.scalar 0x1ff))) :=
    .one hkind rfl ⟨by rw [htransform]; rfl, rfl,
      by rw [htransform]; exact Datum.fits_scalar.2 (by decide)⟩
  rw [htransform] at hparts
  obtain ⟨pieces, hrenders⟩ := hparts.renders (Description.target_regular hT)
  obtain ⟨id', d', n', s, s', hrun, hat, _, hs, hs', hiff⟩ :=
    @outputOf_observes_iff (wordOutput 8) #[] wordValues 2 _ .i8 (.scalar 0xff) 0 [⟨1, 0⟩]
      [(.i8, .scalar 0xff)] pieces (Draft.traceable_of_replaced_eq rfl) rfl
      (.cons ⟨rfl, rfl, Datum.fits_scalar.2 (by decide)⟩ .nil) rfl hrenders
  have heq : s' = s := hiff.2 fun j hj hlt => absurd hlt (Nat.not_lt.2 hj)
  exact ⟨T, hT, hparts, id', d', n', s, hrun, hat, hs, heq ▸ hs'⟩

/-- Where more bits are observed than the byte has, the bits of the word above it appear, and those
above the word are missing. -/
theorem outputOf_alters_observation :
    (∀ width, (wordOutput width).Renders wordValues [⟨1, 0⟩] [(.i32, .scalar 0x1ff)] .i8
      (.scalar 0xff)) ∧
    (∃ id' d' n', (Edit.outputOf 2 0 [⟨1, 0⟩]).run (wordOutput 16) = .ok (.node id') d' ∧
      d'.graph.nodes[id']? = some n' ∧
      Eval.observed ⟨(wordOutput 16).graph, #[], wordValues⟩ 2
        ⟨.output, [⟨0, 0⟩], [], .widths [16]⟩ = .ok (.ofNumber 16 0xff) ∧
      Eval.observed ⟨d'.graph, #[], wordValues⟩ id' n' = .ok (.ofNumber 16 0x1ff)) ∧
    ∃ id' d' n', (Edit.outputOf 2 0 [⟨1, 0⟩]).run (wordOutput 40) = .ok (.node id') d' ∧
      d'.graph.nodes[id']? = some n' ∧
      Eval.observed ⟨(wordOutput 40).graph, #[], wordValues⟩ 2
        ⟨.output, [⟨0, 0⟩], [], .widths [40]⟩ = .ok (.ofNumber 40 0xff) ∧
      Eval.observed ⟨d'.graph, #[], wordValues⟩ id' n' = .ok (.ofNumber 32 0x1ff) := by
  refine ⟨fun width => ⟨.cons ⟨rfl, rfl, Datum.fits_scalar.2 (by decide)⟩ .nil, rfl⟩, ?_, ?_⟩
  · exact ⟨_, _, _, rfl, rfl, rfl, rfl⟩
  · exact ⟨_, _, _, rfl, rfl, rfl, rfl⟩

end Legal

end Dataflow
