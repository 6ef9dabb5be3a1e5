import Dataflow.Proofs.Existence
import Dataflow.Proofs.Totality

/-!
# A run keeps the meaning of its graph

Data of the graph that a run returns can be extended to a model of its last draft, which is a model
of its first one. So the result determines what the graph before it determines, and evaluates to it.
-/

namespace Dataflow.Legal

open Engine Eval

variable {T : Target} {limit : Limit} {config : Config} {fuel : Nat} {g h : Graph} {s : Run}
  {root : NodeId} {args : Array BitString} {bits : BitString}

/-! ### Evaluation -/

/-- The root of the graph is its only output, and every node is well typed. -/
structure Wellformed (T : Target) (limit : Limit) (g : Graph) (root : NodeId) : Prop
    extends Rooted g root where
  built : g.Built
  suited : ∀ (id : Nat) n, g.nodes[id]? = some n → ∃ ts, Suited T limit True False g n ts

theorem next?_empty (v : Value) : ({} : Replacements).next? v = none :=
  Std.TreeMap.getElem?_emptyc

namespace Wellformed

/-- A draft in which nothing has been done has a model of the data that its nodes mean. -/
theorem exists_finds (hT : T.Regular) (hg : Wellformed T limit g root) (args : Array BitString) :
    ∃ val, Draft.Finds { graph := g } T limit args (fun _ => False) (fun _ => .scalar 0)
      (fun j => j) val := by
  refine Draft.exists_finds hT ⟨fun id n v hn hv => ?_, fun v w hw => ?_, fun v c hc => ?_⟩
    ⟨hg.suited, fun v hv => absurd (next?_empty v) hv, fun v c hc => ?_⟩
    ⟨fun v _ => Conversions.get?_empty v, fun v _ _ _ => next?_empty v,
      fun v _ _ _ c _ _ _ _ hc => ?_⟩
    (Draft.admits_none _ _ args _)
  · have hlt := (hg.built.operand hn hv).1
    exact ⟨hlt, hlt⟩
  · rw [next?_empty] at hw
    cases hw
  all_goals
    rw [Conversions.get?_empty] at hc
    cases hc

/-- What is determined is the result. -/
theorem evaluate (hT : T.Regular) (hg : Wellformed T limit g root)
    {args : List (ValueType × Datum)}
    (hdet : g.Determines (T.Loose limit) (buffers args) root bits) :
    g.evaluate args = .ok bits := by
  obtain ⟨val, hfinds⟩ := hg.exists_finds hT (buffers args)
  have hmodels := hfinds.models
  obtain ⟨hmean, n, ts, hn, hop, hreads, rfl⟩ := hdet val ⟨fun v t _ hv => hmodels.fits v t hv,
    fun id n ts e _ hn hreads he => hmodels.obeys id n ts e trivial hn (next?_empty _)
      (Conversions.get?_empty _) hreads he⟩
  have houtput (id : Nat) (n : Node) (hn : g.nodes[id]? = some n) :
      n.opcode = .output ↔ id = root := by
    obtain ⟨ts, hts⟩ := hg.suited id n hn
    exact hg.output_iff hn hts.typed.sensible
  let V (j : Nat) : Option Datum := if j = root then none else some (val j)
  have hdata (id : Nat) (n : Node) (hn : g.nodes[id]? = some n) :
      n.operands.map (V ·.node) = (n.operands.map (val ·.node)).map some := by
    rw [List.map_map]
    refine List.map_congr_left fun v hv => if_neg fun hroot => ?_
    obtain ⟨_, t, ht⟩ := hg.built.operand hn hv
    obtain ⟨m, hm, _, hres⟩ := hg.output
    rw [Graph.typeOf?, hroot, hm, Option.bind_some, hres] at ht
    cases ht
  have hfits (n : Node) (ts : List ValueType) (hreads : n.operands.map g.typeOf? = ts.map some) :
      List.Forall₂ Datum.Fits (n.operands.map (val ·.node)) ts :=
    Graph.forall₂_fits hreads fun v _ t hv => hmodels.fits v t hv
  rw [hg.built.evaluate_eq_ok_iff hg.root_eq hg.root_lt]
  refine ⟨V, ⟨fun id m hid hm hop => ?_, fun id m hid hm hop => ?_⟩, ?_⟩
  · obtain ⟨us, hus⟩ := hg.suited id m hm
    obtain ⟨e, he⟩ := hmean id m us hid hm hop hus.reads
    have hmeant := hfinds.meant (fun h => h) hm (next?_empty _) (Conversions.get?_empty _) hus.reads
    rw [he] at hmeant
    obtain ⟨t, hres, _⟩ := hus.typed.resolve_left fun hout => hop hout.1
    refine ⟨e, ?_, ?_⟩
    · rw [equation_eq_meaning hres hus.reads (hdata id m hm), he]
    · rw [← show val id = e from hmeant]
      exact if_neg fun hid => hop ((houtput id m hm).2 hid)
  · obtain ⟨us, hus⟩ := hg.suited id m hm
    exact ⟨if_pos ((houtput id m hm).1 hop), _, observes_eq hus.reads (hdata id m hm)
      (hfits m us hus.reads)⟩
  · exact (hg.built.join_contributions_root hn hop (fun id m _ hm => (houtput id m hm).1)
      (observes_eq hreads (hdata root n hn) (hfits n ts hreads))).symm

end Wellformed

/-! ### Runs -/

namespace Engine

/-- A run that succeeds returns the live part of its last draft. -/
theorem exists_extracts (hg : Rooted g root) (hl : legalize T config fuel g = .ok h) :
    ∃ s ids, Completes T config fuel g s ∧
      s.draft.graph.Extracts (fun v => .ok (s.draft.replaced.canon v)) s.root ids h := by
  obtain ⟨s, hc, hconclude⟩ := exists_completes hl
  have hresult : s.result = .ok h := by
    rw [Run.conclude, hc.check_eq_ok hg] at hconclude
    cases hr : s.result with
    | error f => cases hv : config.verify <;> rw [hv, hr] at hconclude <;> cases hconclude
    | ok h' =>
      cases hv : config.verify <;> rw [hv, hr] at hconclude <;> cases hconclude <;> rfl
  obtain ⟨_, _, hhead⟩ := hc.head
  obtain ⟨⟨rank, hsound⟩, _⟩ := hhead.sound
  obtain ⟨ids, hx⟩ := (Graph.live_extracts (hsound.ordered.graded.graph_descends s.root)).1 h hresult
  rw [show s.draft.replaced.follow = fun v => .ok (s.draft.replaced.canon v) from
    funext hsound.ordered.descends.follow_eq] at hx
  exact ⟨s, ids, hc, hx⟩

/-- A model of the draft in which a run starts observes what its graph determines. -/
theorem determines_first {s₀ : Run} {val : Nat → Datum} (hg : Wellformed T limit g root)
    (hstart : Run.start g = .ok s₀) (hprepare : prepare config s₀ = .ok () s)
    (hval : s.draft.Models T limit args (fun _ => True) val)
    (hdet : g.Determines (T.Loose limit) args root bits) :
    s.draft.graph.Meaningful args (fun _ => True) val ∧ s.draft.graph.Observes s.root val bits := by
  obtain ⟨hseeded, hgraph, hroot⟩ := (ends_prepare config hstart).of_ok hprepare
  obtain ⟨root', live, r, hroot', hlive, hr, rfl⟩ := start_spec hstart
  cases hg.root_eq.symm.trans hroot'
  obtain ⟨ids, hx⟩ := (Graph.live_extracts (hg.built.descends root)).1 live hlive
  have hcopies : g.Copies (fun v => v) root ids live := hx.copies
  obtain rfl : r = ids.length - 1 := Option.some.inj (hr.symm.trans hcopies.root_eq)
  obtain ⟨hmean, hobs⟩ := hdet.live hx val
    ⟨fun v t _ hv => hval.fits v t (hgraph ▸ hv), fun id n ts e _ hn hreads he =>
      hval.obeys id n ts e trivial (hgraph ▸ hn) (hseeded.plain _) (hseeded.unconverted _)
        (hgraph ▸ hreads) he⟩
  rw [hgraph, hroot]
  refine ⟨fun k n ts _ hn hop hreads => hmean k n ts ?_ hn hop hreads, hobs⟩
  have hk : k < ids.length := hcopies.size_eq ▸ Graph.lt_size_of_getElem? hn
  exact hcopies.reached ((hcopies.mem_iff _).1 (List.getElem_mem hk)) (List.getElem?_eq_getElem hk)

section
variable {ids : List Nat} (hT : T.Regular) (hg : Wellformed T limit g root)
  (hc : Completes T config fuel g s)
  (hx : s.draft.graph.Extracts (fun v => .ok (s.draft.replaced.canon v)) s.root ids h)

include hT hg hc in
theorem Completes.typed : s.Typed T limit True False ∧ ∃ rank, s.Sound none rank := by
  obtain ⟨_, _, hhead⟩ := hc.head
  exact ⟨hhead.typed hT False.elim hg.toRooted hg.suited, hhead.sound.1⟩

include hg hc hx in
/-- Nodes that are copied stand in place. -/
theorem Completes.inPlace {id : Nat} (hid : id ∈ ids) :
    ∃ n, s.draft.graph.nodes[id]? = some n ∧ s.InPlace T id n := by
  obtain ⟨_, _, hhead⟩ := hc.head
  obtain ⟨⟨rank, hsound⟩, _⟩ := hhead.sound
  refine (hc.reached hg.toRooted ?_).2
  rw [show s.draft.replaced.follow = fun v => .ok (s.draft.replaced.canon v) from
    funext hsound.ordered.descends.follow_eq]
  exact (hx.mem_iff id).1 hid

include hT hg hc hx

/-- The result of a run is well formed, and all its types are legal. -/
theorem Completes.wellformed : Wellformed T limit h (ids.length - 1) ∧
    ∀ (k : Nat) n t, h.nodes[k]? = some n → t ∈ n.results → T.classify t = .legal := by
  obtain ⟨htyped, rank, hsound⟩ := hc.typed hT hg
  obtain ⟨_, _, hhead⟩ := hc.head
  have hsettled := hhead.settled hg.toRooted
  have hcopies := hx.copies
  have hlast : ids[ids.length - 1]? = some s.root := by
    rw [← List.getLast?_eq_getElem?]
    exact hcopies.last
  have hcopy (k : Nat) (m : Node) (hm : h.nodes[k]? = some m) : ∃ id n ts, ids[k]? = some id ∧
      s.draft.graph.nodes[id]? = some n ∧ s.InPlace T id n ∧ m.results = n.results ∧
      Suited T limit True False h m ts := by
    have hk : k < ids.length := hcopies.size_eq ▸ Graph.lt_size_of_getElem? hm
    have hid := List.getElem?_eq_getElem hk
    have hstands := hx.stands k _ m hid hm
    obtain ⟨n, hn, _, hres, _⟩ := hstands.node
    obtain ⟨n', hn', hplace⟩ := hc.inPlace hg hx (List.getElem_mem hk)
    cases hn.symm.trans hn'
    obtain ⟨ts, hts⟩ := htyped.nodes _ n hn
    refine ⟨_, n, ts, hid, hn, hplace, hres, hts.stands hstands hn hx.size_eq hx.stands
      (fun v w hw => ?_) fun v w t hw hv ht => ?_⟩
    · cases hw
      exact htyped.typeOf?_canon hsound.ordered.descends v
    · cases hw
      exact htyped.canon_of_illegal hsound.ordered.descends hv ht
  refine ⟨⟨⟨hcopies.root_eq, ?_, fun k m hm hk => ?_⟩, hx.built_graph, fun k m hm => ?_⟩,
    fun k m t hm ht => ?_⟩
  · obtain ⟨n, hn, hres⟩ := hsettled.root_output
    obtain ⟨n', us, hn', hm, _⟩ := hcopies.node _ _ hlast
    cases hn.symm.trans hn'
    refine ⟨_, hm, ?_, hres⟩
    rcases hsettled.shaped _ n hn with hone | ⟨hop, _⟩
    · rw [hres] at hone
      cases hone
    · exact hop
  · obtain ⟨id, n, ts, hid, hn, hplace, hres, _⟩ := hcopy k m hm
    rw [hres]
    refine (hsettled.shaped id n hn).resolve_right fun hout => hk ?_
    rw [hplace.root hout.2] at hid
    exact (List.getElem?_inj (List.getElem?_eq_some_iff.1 hid).1 hcopies.nodup).1
      (hid.trans hlast.symm)
  · obtain ⟨_, _, ts, _, _, _, _, hts⟩ := hcopy k m hm
    exact ⟨ts, hts⟩
  · obtain ⟨_, _, _, _, _, hplace, hres, _⟩ := hcopy k m hm
    exact hplace.legal t (hres ▸ ht)

/-- Data of the result are data of the nodes in place. -/
theorem Completes.admits {val' : Nat → Datum}
    (hval : h.Models (T.Loose limit) args (h.Reached .ok (ids.length - 1)) val') :
    s.draft.Admits (T.Loose limit) args (· ∈ ids) fun j => val' (ids.idxOf j) := by
  obtain ⟨htyped, rank, hsound⟩ := hc.typed hT hg
  have hcopies := hx.copies
  have htype := htyped.typeOf?_canon hsound.ordered.descends
  refine ⟨fun id hid => ?_, fun id hid => ?_, fun id n v hid hn hv => ?_, fun v t hv ht => ?_,
    fun id n ts e hid hn hreads he => ?_⟩
  · obtain ⟨n, hn, hplace⟩ := hc.inPlace hg hx hid
    by_contra hne
    obtain ⟨t, ht, _⟩ := htyped.redirected _ hne
    rw [Graph.typeOf?, hn, Option.bind_some] at ht
    exact hne (hplace.plain 0 (List.getElem?_eq_some_iff.1 ht).1)
  · obtain ⟨n, hn, hplace⟩ := hc.inPlace hg hx hid
    by_contra hne
    obtain ⟨c, hget⟩ := Option.ne_none_iff_exists'.1 hne
    obtain ⟨t, ht, hsuits⟩ := htyped.converted _ c hget
    rw [Graph.typeOf?, hn, Option.bind_some] at ht
    exact hsuits.illegal (hplace.legal t (List.mem_of_getElem? ht))
  · exact (hcopies.mem_iff _).2 (.operand ((hcopies.mem_iff id).1 hid) hn hv rfl)
  · exact hcopies.fits hval hv ht
  · exact hcopies.obeys htype hval hid hn hreads he

/-- The result determines what the graph before it determines. -/
theorem Completes.determines (hdet : g.Determines (T.Loose limit) args root bits) :
    h.Determines (T.Loose limit) args (ids.length - 1) bits := by
  intro val' hval'
  obtain ⟨htyped, rank, hsound⟩ := hc.typed hT hg
  have hcopies := hx.copies
  obtain ⟨_, _, hhead⟩ := hc.head
  obtain ⟨val, hfinds⟩ := Draft.exists_finds hT hsound.ordered htyped.toTyped
    (hhead.tidy hT False.elim hg.toRooted hg.suited) (hc.admits hT hg hx hval')
  obtain ⟨s₀, s₁, hstart, hprepare, hinherits⟩ :=
    hhead.inherits hT False.elim hg.toRooted hg.suited args
  have hfirst := hinherits val hfinds.models
  obtain ⟨hmean, hobs⟩ := determines_first hg hstart hprepare hfirst.models hdet
  have htype := htyped.typeOf?_canon hsound.ordered.descends
  have hvals (id : Nat) (hid : id ∈ ids) (n : Node) (v : Value)
      (hn : s.draft.graph.nodes[id]? = some n) (hv : v ∈ n.operands) :
      val v.node = val' (ids.idxOf (s.draft.replaced.canon v).node) := by
    rw [← hfinds.canon v]
    exact hfinds.given ((hc.admits hT hg hx hval').closed id n v hid hn hv)
  exact ⟨hcopies.meaningful htype (fun j n ts _ => hfirst.meaningful hmean j n ts trivial) hvals _,
    hcopies.observes htype (hfirst.observes bits hobs) hvals⟩

end

end Engine

/-- A run returns a well-formed graph of legal types that determines what the graph before it
determines. -/
theorem Wellformed.legalize (hT : T.Regular) (hg : Wellformed T limit g root)
    (hl : legalize T config fuel g = .ok h) : ∃ r, Wellformed T limit h r ∧
      (∀ (k : Nat) n t, h.nodes[k]? = some n → t ∈ n.results → T.classify t = .legal) ∧
      ∀ args bits, g.Determines (T.Loose limit) args root bits →
        h.Determines (T.Loose limit) args r bits := by
  obtain ⟨s, ids, hc, hx⟩ := exists_extracts hg.toRooted hl
  obtain ⟨hw, hlegal⟩ := hc.wellformed hT hg hx
  exact ⟨_, hw, hlegal, fun _ _ hdet => hc.determines hT hg hx hdet⟩

/-- Code suits every target. -/
theorem Source.wellformed (hg : Source g root) (T : Target) (hlimit : 2 ^ 31 + 256 ≤ limit.bound)
    (hmoderate : ¬ limit.moderate) : Wellformed T limit g root where
  toRooted := hg.toRooted
  built := hg.built
  suited id n hn := by
    obtain ⟨_, ts, hreads, htyped, hattr⟩ := hg.nodes id n hn
    exact ⟨ts, hreads,
      htyped.imp_right fun ⟨t, hres, hsig⟩ => ⟨t, hres, .inl (hsig.mono fun _ _ => False.elim)⟩,
      fun _ => hattr.mono fun _ t hlt => Target.within_of_lt hlt t hlimit,
      fun hl => absurd hl hmoderate, False.elim⟩

/-- A run keeps the meaning of its code: what it returns evaluates to the bits that the code evaluates
to, on every target, for all arguments, and whether the result is checked or not. -/
theorem legalize_preserves {d : Description} {T : Target} (hT : d.target = .ok T) (config : Config)
    (fuel : Nat) {g h : Graph} {root : NodeId} (hg : Source g root)
    (hl : legalize T config fuel g = .ok h) (args : List (ValueType × Datum)) {bits : BitString}
    (hbits : g.evaluate args = .ok bits) : h.evaluate args = .ok bits := by
  have hregular := Description.target_regular hT
  have hw : Wellformed T (.top False) g root := hg.wellformed T (by decide) not_false
  obtain ⟨r, hw', _, hdet⟩ := hw.legalize hregular hl
  exact hw'.evaluate hregular (hdet _ _ (hg.definite.determines hbits))

theorem source_doubling : Source doubling 2 := by
  have hbuilt : doubling.Built := Graph.built_of_pushAll? 2 rfl
  refine ⟨rooted_doubling, hbuilt, fun id n hn => ?_⟩
  have hlt : id < 3 := Graph.lt_size_of_getElem? hn
  obtain rfl | rfl | rfl : id = 0 ∨ id = 1 ∨ id = 2 := by omega
  all_goals cases hn
  · exact ⟨by decide, [], rfl, .inr ⟨.i64, rfl, .argument⟩, 0, 0, rfl, by decide⟩
  · exact ⟨by decide, [.i64, .i64], rfl, .inr ⟨.i64, rfl, .int rfl⟩, trivial⟩
  · refine ⟨by decide, [.i64], rfl, .inl ⟨rfl, rfl⟩, fun i t width ht hw => ?_⟩
    cases i with
    | zero =>
      cases ht
      cases hw
      decide
    | succ i => cases ht

set_option maxRecDepth 4000 in
/-- The carry into the upper word is kept. -/
theorem legalize_preserves_doubling :
    Source doubling 2 ∧
    doubling.evaluate [(.i64, .scalar (2 ^ 31 + 5))] = .ok (.ofNumber 64 (2 ^ 32 + 10)) ∧
    ∃ T h, Target.int32.target = .ok T ∧ legalize T { verify := false } 100 doubling = .ok h ∧
      h.evaluate [(.i64, .scalar (2 ^ 31 + 5))] = .ok (.ofNumber 64 (2 ^ 32 + 10)) := by
  have hbits : doubling.evaluate [(.i64, .scalar (2 ^ 31 + 5))] = .ok (.ofNumber 64 (2 ^ 32 + 10)) :=
    rfl
  obtain ⟨T, h, hT, hl⟩ := legalize_doubling
  exact ⟨source_doubling, hbits, T, h, hT, hl, legalize_preserves hT _ _ source_doubling hl _ hbits⟩

end Dataflow.Legal
