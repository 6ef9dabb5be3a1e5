import Dataflow.Proofs.IsolatedRun
import Dataflow.Proofs.Models

/-!
# Drafts that are ready for a rule

A rule can be run on its own, from a draft in which the operands of a node are at hand: each has a
datum, and where its type is illegal it has parts whose data make up that datum. Nothing is asked of
the rest of the draft. The data that evaluation finds for the nodes that the rule adds are data that
rules are specified with, so all that holds of rules that rewrite a node holds of the run and of the
evaluation.
-/

namespace Dataflow

namespace Legal

variable {T : Target} {d d' : Draft} {args : Array BitString} {values values' : Values} {g : Graph}
  {id : NodeId} {n : Node} {ts : List ValueType} {t : ValueType} {v : Value} {e : Datum}

/-- The edit has not failed. -/
def Edited.succeeds {α : Type} : Edited α → Bool
  | .ok .. => true
  | .error .. => false

theorem Edited.exists_ok {α : Type} {r : Edited α} (h : r.succeeds = true) :
    ∃ a d', r = .ok a d' := by
  cases r with
  | ok a d' => exact ⟨a, d', rfl⟩
  | error => cases h

/-- The edit has not failed, and the test holds of what it returns and leaves. -/
def Edited.passes {α : Type} (p : α → Draft → Bool) : Edited α → Bool
  | .ok a d => p a d
  | .error .. => false

theorem Edited.exists_passing {α : Type} {p : α → Draft → Bool} {r : Edited α}
    (h : r.passes p = true) : ∃ a d', r = .ok a d' ∧ p a d' = true := by
  cases r with
  | ok a d' => exact ⟨a, d', rfl, h⟩
  | error => cases h

/-! ### What is at hand -/

/-- Parts at hand that stand for a value of type `t` with datum `e`. A single part has the bits of
`e`, and any bits above them. Of two parts the first one has the low bits. -/
inductive Draft.HasParts (d : Draft) (T : Target) (values : Values) (t : ValueType) :
    Conversion → Datum → Prop
  | one {kind : ConversionKind} {p : Value} {x : Datum} : (T.classify t).kind? = some kind →
    kind.isPair = false → d.Has values p (T.transform t) x →
    HasParts d T values t ⟨kind, .one p⟩ (.ofNumber t (x.number (T.transform t)))
  | two {kind : ConversionKind} {lo hi : Value} {x y : Datum} : (T.classify t).kind? = some kind →
    kind.isPair = true → d.Has values lo (T.transform t) x → d.Has values hi (T.transform t) y →
    HasParts d T values t ⟨kind, .two lo hi⟩ (.ofNumber t (x.number (T.transform t) +
      2 ^ (T.transform t).bits * y.number (T.transform t)))

/-- Operand `v` of type `t` is at hand with datum `e`, and so are its parts if its type is
illegal. -/
structure Draft.Supplies (d : Draft) (T : Target) (values : Values) (v : Value) (t : ValueType)
    (e : Datum) : Prop extends d.Has values v t e where
  source : d.graph.typeOf? v = some t
  read : values[v.node]? = some (some e)
  parts : T.classify t ≠ .legal →
    ∃ c, d.conversions.get? (d.replaced.canon v) = some c ∧ d.HasParts T values t c e

/-- Node `n` of the draft is well typed, with operands of types `ts` that are at hand and a result
of type `t`. -/
structure Draft.Ready (d : Draft) (T : Target) (values : Values) (id : NodeId) (n : Node)
    (ts : List ValueType) (t : ValueType) : Prop where
  traceable : d.Traceable
  size : values.size = d.graph.size
  node_at : d.graph.nodes[id]? = some n
  results : n.results = [t]
  signature : Signature T.Wide n.opcode ts t
  operands : List.Forall₂ (fun v u => ∃ e, d.Supplies T values v u e) n.operands ts

/-! ### What evaluation finds -/

/-- The data that rule specification `V` speaks of are those that evaluation finds in draft `d`. -/
structure RuleSpec.Ends (V : RuleSpec) (d : Draft) (values : Values) : Prop where
  sem : V.sem
  final : V.final = d.graph
  canon : V.base.replaced.canon = d.replaced.canon
  value : ∀ j, V.Known j → values[j]? = some (some (V.val j))

theorem RuleSpec.Ends.has {V : RuleSpec} (h : V.Ends d values) (hv : V.Is v t e) :
    d.Has values v t e := by
  have hcanon : d.replaced.canon v = v := h.canon ▸ hv.canonical
  constructor
  · rw [hcanon, ← h.final]
    exact hv.type
  · rw [hcanon, h.value _ (hv.known h.sem), hv.val h.sem]
  · exact hv.fits h.sem

/-- New nodes are known where none of them is an output. -/
theorem RuleSpec.Fresh.known {V : RuleSpec} (h : V.Fresh V.final) (hs : V.sem)
    (houtputs : ¬ V.outputs)
    {j : Nat} (hj : V.base.graph.size ≤ j) (hlt : j < V.final.size) : V.Known j := by
  have hn : V.final.nodes[j]? = some V.final.nodes[j] := Array.getElem?_eq_getElem hlt
  obtain ⟨ts, hgood⟩ := h j _ hj hn
  rcases hgood.typed with ⟨hop, _⟩ | ⟨t, hres, hsig⟩
  · exact absurd (hgood.observed hop) houtputs
  · obtain ⟨e, he⟩ := hgood.meaningful hs hsig.ne_output
    have hknown : ∀ v ∈ V.final.nodes[j].operands, V.Known v.node := by
      intro v hv
      obtain ⟨_, hv⟩ := hgood.operands.of_mem hv
      exact hv.known hs
    exact (V.obeys hs j _ ts t e hj hn hres hsig (hgood.attributed (V.strict_of_sem hs))
      hgood.reads hknown (hgood.operands.fits hs) he).1

namespace Draft

section
variable (hT : T.Regular) (hd : d.Traceable) (hsize : values.size = d.graph.size)
  (hg : d.graph.Extends g) (args : Array BitString) (ceiling : Nat ×ₗ Nat) (Fails : Error → Prop)
  {sem total : Prop} (htotal : total → sem)

/-- What is asked of a rule that leaves graph `g`, with the data that evaluation finds. -/
def evaluatedSpec : RuleSpec where
  T := T
  limit := .top False
  base := d
  final := g
  strict := sem
  sem := sem
  numbered := False
  exact := True
  measured := False
  total := total
  args := args
  val j := (Eval.found g args values j).getD (.scalar 0)
  Known j := (Eval.found g args values j).isSome
  Fails := Fails
  ceiling := ceiling
  outputs := False
  regular := hT
  grown := hg
  descends := hd.descends
  stands := hd.stands
  strict_of_sem hs := hs
  strict_of_total := htotal
  ceiling_pos := False.elim
  obeys _ j n ts t e hj hn hres hsig hattr hreads hknown hfits hmean := by
    have hdata : n.operands.map (Eval.found g args values ·.node) = (n.operands.map fun v =>
        (Eval.found g args values v.node).getD (.scalar 0)).map some := by
      rw [List.map_map]
      refine List.map_congr_left fun v hv => ?_
      obtain ⟨x, hx⟩ := Option.isSome_iff_exists.1 (hknown v hv)
      simp [hx]
    have hfound : Eval.found g args values j = some e := by
      rw [Eval.found_eq_meaning hg hsize hj hn hres (hsig.signature not_false) hreads hdata, hmean]
      rfl
    have hlen : n.operands.length = ts.length := by
      simpa only [List.length_map] using congrArg List.length hreads
    have he : e.Fits t := Node.fits_of_meaning (fun hi => hattr fun h => absurd h hi)
      (fun _ _ hwithin => hwithin.le) hsig.sensible hres hlen hfits hmean
    rw [hfound]
    exact ⟨rfl, he, Node.allows_self hsig.sensible he, fun _ => rfl⟩

variable {hT hd hsize hg args ceiling Fails htotal}

theorem Has.is (h : d.Has values v t e) :
    (evaluatedSpec hT hd hsize hg args ceiling Fails htotal).Is (d.replaced.canon v) t e := by
  obtain ⟨rank, hdesc⟩ := hd.descends
  have hfound : Eval.found g args values (d.replaced.canon v).node = some e :=
    Eval.found_of_value h.value
  constructor
  · exact hg.typeOf? h.type
  · intro _
    show (Eval.found g args values (d.replaced.canon v).node).getD (.scalar 0) = e
    rw [hfound, Option.getD_some]
  · exact fun _ => h.fits
  · exact hdesc.canon_canon v
  · exact fun _ => Option.isSome_iff_exists.2 ⟨e, hfound⟩

/-- Parts at hand make up the datum that is asked for. -/
theorem HasParts.makes {c : Conversion} (h : d.HasParts T values t c e) :
    c.Makes (evaluatedSpec hT hd hsize hg args ceiling Fails htotal) t e := by
  have hpart {p : Value} {x : Datum} (hp : d.Has values p (T.transform t) x) :
      (evaluatedSpec hT hd hsize hg args ceiling Fails htotal).Is (d.replaced.canon p)
        (T.transform t) x :=
    hp.is
  cases h with
  | one hkind hpair hp =>
    have hp := hpart hp
    exact ⟨hkind, hpair.symm, hp.self, fun hs => by rw [← hp.val hs]; rfl⟩
  | two hkind hpair hlo hhi =>
    have hlo := hpart hlo
    have hhi := hpart hhi
    exact ⟨hkind, hpair.symm, ⟨hlo.self, hhi.self⟩, fun hs => by
      rw [← hlo.val hs, ← hhi.val hs]
      rfl⟩

theorem Supplies.evaluated (h : d.Supplies T values v t e) :
    (evaluatedSpec hT hd hsize hg args ceiling Fails htotal).Supplies v t := by
  have hval : (evaluatedSpec hT hd hsize hg args ceiling Fails htotal).val v.node = e := by
    show (Eval.found g args values v.node).getD (.scalar 0) = e
    rw [Eval.found_of_value h.read, Option.getD_some]
  constructor
  · rw [hval]
    exact h.is
  · intro hc
    obtain ⟨c, hget, hparts⟩ := h.parts hc
    exact ⟨c, hget, hval ▸ hparts.makes⟩

/-- The nodes that such a rule adds can be evaluated. -/
theorem evaluatedSpec_ends (hgrows : d.Grows d') (hs : sem)
    (hfresh : (evaluatedSpec hT hd hsize hgrows.graph args ceiling Fails htotal).Fresh d'.graph) :
    ∃ values', d'.graph.evaluateFrom args values = .ok values' ∧
      (evaluatedSpec hT hd hsize hgrows.graph args ceiling Fails htotal).Ends d' values' := by
  obtain ⟨rank, hdesc⟩ := hd.descends
  refine ⟨_, Eval.evaluateFrom_eq fun j hj hlt => ?_, hs, rfl, ?_, fun j hj => ?_⟩
  · exact hfresh.known hs id (hsize ▸ hj) hlt
  · exact (hdesc.canon_shortens hgrows.replaced).symm
  · obtain ⟨e, he⟩ := Option.isSome_iff_exists.1 hj
    rw [← Option.join_eq_some_iff]
    refine he.trans (congrArg some ?_)
    show e = (Eval.found d'.graph args values j).getD (.scalar 0)
    rw [he, Option.getD_some]

variable (hd hsize) in
/-- A rule that meets its specification with the data that evaluation finds returns what it should,
and the nodes that it has added can be evaluated. -/
theorem evaluatedSpec_of_ok {α : Type} {x : Edit α} {Q : α → Prop} {a : α}
    (hrun : x.run d = .ok a d')
    (h : (evaluatedSpec hT hd hsize (Edit.grows_of_ok hrun).graph args ceiling Fails htotal).Meets x
      Q) :
    Q a ∧ (sem → ∃ values', d'.graph.evaluateFrom args values = .ok values' ∧
      (evaluatedSpec hT hd hsize (Edit.grows_of_ok hrun).graph args ceiling Fails htotal).Ends d'
        values') := by
  obtain ⟨hfresh, hQ⟩ := h.ok hrun rfl
  exact ⟨hQ, fun hs => evaluatedSpec_ends (Edit.grows_of_ok hrun) hs hfresh⟩

end

/-! ### The node that is rewritten -/

namespace Ready

theorem supplied (h : d.Ready T values id n ts t) {v : Value} (hv : v ∈ n.operands) :
    ∃ u e, d.Supplies T values v u e := by
  have hall := h.operands
  generalize n.operands = vs at hall hv
  clear h
  induction hall with
  | nil => cases hv
  | cons hw _ ih =>
    rcases List.mem_cons.1 hv with rfl | hv
    · exact ⟨_, hw⟩
    · exact ih hv

theorem reads (h : d.Ready T values id n ts t) :
    n.operands.map d.graph.typeOf? = ts.map some := by
  have hall := h.operands
  generalize n.operands = vs at hall ⊢
  clear h
  induction hall with
  | nil => rfl
  | cons hw _ ih =>
    obtain ⟨_, hw⟩ := hw
    rw [List.map_cons, List.map_cons, hw.source, ih]

theorem fits (h : d.Ready T values id n ts t) {val : Nat → Datum}
    (hval : ∀ j e, values[j]? = some (some e) → val j = e) :
    List.Forall₂ Datum.Fits (n.operands.map (val ·.node)) ts := by
  rw [List.forall₂_map_left_iff]
  refine h.operands.imp fun v u hv => ?_
  obtain ⟨e, hv⟩ := hv
  exact hval _ e hv.read ▸ hv.fits

/-- The meaning of the node is what evaluation gives it. -/
theorem meaning (h : d.Ready T values id n ts t) (args : Array BitString) {val : Nat → Datum}
    (hval : ∀ j e, values[j]? = some (some e) → val j = e) :
    n.meaning args (n.operands.map (val ·.node)) ts = Eval.node ⟨d.graph, args, values⟩ id := by
  refine (Eval.node_eq_meaning h.node_at h.results h.signature.sensible h.reads ?_).symm
  rw [List.map_map]
  refine List.map_congr_left fun v hv => ?_
  obtain ⟨u, e, hsupplies⟩ := h.supplied hv
  simp [hsupplies.read, hval _ e hsupplies.read]

/-- Evaluation gives the node the meaning that it has on data of the types of its operands. -/
theorem exists_meaning (h : d.Ready T values id n ts t) (args : Array BitString) :
    ∃ data, List.Forall₂ Datum.Fits data ts ∧
      n.meaning args data ts = Eval.node ⟨d.graph, args, values⟩ id := by
  have hval (j : Nat) (e : Datum) (hj : values[j]? = some (some e)) :
      (values[j]?.join).getD (.scalar 0) = e := by
    rw [hj, Option.join_some, Option.getD_some]
  exact ⟨_, h.fits hval, h.meaning args hval⟩

/-- The node can be evaluated where it is defined. -/
theorem evaluates (h : d.Ready T values id n ts t) (args : Array BitString) (hequipped : n.Equipped)
    (hdefined : ∀ data, n.Defined args data ts) :
    ∃ e, Eval.node ⟨d.graph, args, values⟩ id = .ok e ∧ e.Fits t := by
  obtain ⟨data, hfits, hmeaning⟩ := h.exists_meaning args
  rw [← hmeaning]
  rcases n.meaning_settles args h.signature h.results hequipped h.operands.length_eq hfits with
    ⟨_, he⟩ | ⟨hundefined, _⟩
  · exact he
  · exact absurd (hdefined data) hundefined

/-- A comparison that can be evaluated has a predicate. -/
theorem exists_cond (h : d.Ready T values id n ts t) (hop : n.opcode = .setcc)
    (heval : Eval.node ⟨d.graph, args, values⟩ id = .ok e) : ∃ c, n.attr = .cond c := by
  cases hcond : n.cond? with
  | some c =>
    unfold Node.cond? at hcond
    split at hcond
    · next c' hattr => exact ⟨c', hattr⟩
    · cases hcond
  | none =>
    obtain ⟨data, _, hmeaning⟩ := h.exists_meaning args
    rw [← hmeaning, Node.meaning, h.results] at heval
    simp only [Eval.compute, hop, hcond] at heval
    split at heval <;> cases heval

/-- The attributes of a node that can be evaluated suit it, numbers and masks apart. -/
theorem attributed (h : d.Ready T values id n ts t)
    (heval : Eval.node ⟨d.graph, args, values⟩ id = .ok e)
    (hop : n.opcode ∉ [.argument, .constant, .constantFp, .vectorShuffle]) (hindexes : ¬ n.Indexes)
    (within : Nat → ValueType → Prop) : n.Attributed within ts := by
  unfold Node.Attributed
  split
  case h_4 hsetcc => exact h.exists_cond hsetcc heval
  case h_5 hextract => exact absurd (.inl hextract) hindexes
  case h_6 hinsert => exact absurd (.inr hinsert) hindexes
  case h_8 houtput => exact absurd houtput h.signature.ne_output
  case h_9 => trivial
  all_goals
    rename_i hother _
    simp [hother] at hop

/-- What is asked of a rule that rewrites the node and leaves graph `g`. -/
def rewriteSpec (h : d.Ready T values id n ts t) (hT : T.Regular) (hg : d.graph.Extends g)
    (args : Array BitString) {sem total : Prop} (htotal : total → sem)
    (hplain : total → T.Plain n.opcode (t :: ts))
    (hattr : sem → ¬ n.Indexes → n.Attributed (T.Within (.top False)) ts)
    (heval : sem → Eval.node ⟨d.graph, args, values⟩ id = .ok e) : RewriteSpec where
  toRuleSpec := evaluatedSpec hT h.traceable h.size hg args (T.burden n.opcode (n.results ++ ts))
    (fun er => (er.IsObstacle ∨ er = .fault .overflow ∧ d.replaced.Overflows T g n) ∧ ¬ total) htotal
  id := id
  node := n
  types := ts
  datum := e
  node_at := h.node_at
  reads := hg.reads h.reads
  typed := .inr ⟨t, h.results, .inl h.signature⟩
  outputs_of_output hop := absurd hop h.signature.ne_output
  ceiling_eq := rfl
  fails_iff _ := Iff.rfl
  supplies v hv u hu := by
    obtain ⟨u', e, hsupplies⟩ := h.supplied hv
    cases hu.symm.trans (hg.typeOf? hsupplies.source)
    exact hsupplies.evaluated
  attributed hs hindexes := hattr hs hindexes
  moderate := False.elim
  fixed := False.elim
  unmeasured := False.elim
  laned := False.elim
  plain ht := by
    rw [h.results]
    exact hplain ht
  means hs _ := by
    refine (h.meaning args fun j x hx => ?_).trans (heval hs)
    show (Eval.found g args values j).getD (.scalar 0) = x
    rw [Eval.found_of_value hx, Option.getD_some]
  constants _ := False.elim

section
variable {h : d.Ready T values id n ts t} {hT : T.Regular} {hg : d.graph.Extends g}
  {args : Array BitString} {sem total : Prop} {htotal : total → sem}
  {hplain : total → T.Plain n.opcode (t :: ts)}
  {hattr : sem → ¬ n.Indexes → n.Attributed (T.Within (.top False)) ts}
  {heval : sem → Eval.node ⟨d.graph, args, values⟩ id = .ok e}

/-- Operands have the data that are at hand. -/
theorem data_rewriteSpec {i : Nat} {x : Datum} (hv : n.operands[i]? = some v)
    (hx : values[v.node]? = some (some x)) :
    (h.rewriteSpec hT hg args htotal hplain hattr heval).data i = x := by
  show ((n.operands[i]?).map fun v => (Eval.found g args values v.node).getD (.scalar 0)).getD _ = x
  rw [hv, Option.map_some, Option.getD_some, Eval.found_of_value hx, Option.getD_some]

end

/-- What is shown of a rule for the node holds of its run, and the nodes that it has added can be
evaluated. -/
theorem of_ok (h : d.Ready T values id n ts t) {hT : T.Regular} {args : Array BitString} {total : Prop}
    {hplain : total → T.Plain n.opcode (t :: ts)}
    {hattr : True → ¬ n.Indexes → n.Attributed (T.Within (.top False)) ts}
    {heval : True → Eval.node ⟨d.graph, args, values⟩ id = .ok e} {α : Type} {x : Edit α}
    {Q : α → Prop} {a : α} (hrun : x.run d = .ok a d')
    (hx : (h.rewriteSpec hT (Edit.grows_of_ok hrun).graph args (fun _ => trivial) hplain hattr
      heval).Meets x Q) :
    Q a ∧ ∃ values', d'.graph.evaluateFrom args values = .ok values' ∧
      (h.rewriteSpec hT (Edit.grows_of_ok hrun).graph args (fun _ => trivial) hplain hattr
        heval).Ends d' values' := by
  obtain ⟨hQ, hends⟩ := evaluatedSpec_of_ok h.traceable h.size hrun hx
  exact ⟨hQ, hends trivial⟩

/-- Where the operation is plain, or the result is legal and no obstacle stops the rule, the rule
succeeds. -/
theorem exists_ok (h : d.Ready T values id n ts t) {hT : T.Regular} {args : Array BitString}
    {total : Prop} {hplain : total → T.Plain n.opcode (t :: ts)}
    {hattr : True → ¬ n.Indexes → n.Attributed (T.Within (.top False)) ts}
    {heval : True → Eval.node ⟨d.graph, args, values⟩ id = .ok e} {α : Type} {x : Edit α}
    {Q : ∀ g, d.graph.Extends g → α → Prop}
    (hx : ∀ g (hg : d.graph.Extends g),
      (h.rewriteSpec hT hg args (fun _ => trivial) hplain hattr heval).Meets x (Q g hg))
    (hsafe : ¬ total → T.classify t = .legal ∧
      ∀ er d', x.run d = .error er d' → ¬ er.IsObstacle) :
    ∃ a d' values', x.run d = .ok a d' ∧ d'.graph.evaluateFrom args values = .ok values' ∧
      ∃ hg : d.graph.Extends d'.graph, Q d'.graph hg a ∧
        (h.rewriteSpec hT hg args (fun _ => trivial) hplain hattr heval).Ends d' values' := by
  cases hrun : x.run d with
  | ok a d' =>
    have hg := (Edit.grows_of_ok hrun).graph
    obtain ⟨hQ, values', hvalues, hends⟩ := h.of_ok hrun (hx d'.graph hg)
    exact ⟨a, d', values', rfl, hvalues, hg, hQ, hends⟩
  | error er d' =>
    have hfails := (hx d'.graph (Edit.grows_of_error hrun).graph).error hrun rfl
    obtain ⟨hcause, htotal⟩ := hfails
    obtain ⟨hlegal, hfree⟩ := hsafe htotal
    rcases hcause with hobstacle | ⟨_, hoverflows⟩
    · exact absurd hobstacle (hfree er d' hrun)
    · -- only parts of arguments and of expanded lanes are numbered by what can overflow
      obtain ⟨t', hres, ⟨_, hillegal, _⟩ | ⟨_, hexpanded, _⟩⟩ := hoverflows
      · cases h.results.symm.trans hres
        exact absurd hlegal hillegal
      · cases h.results.symm.trans hres
        rw [hlegal] at hexpanded
        cases hexpanded

/-- What is asked of such a rule without data, for what can be told from types. -/
def outline (h : d.Ready T values id n ts t) (hT : T.Regular) (hg : d.graph.Extends g) :
    RewriteSpec :=
  h.rewriteSpec (e := .scalar 0) hT hg #[] (False.elim : False → False) False.elim False.elim
    False.elim

end Ready

end Draft

end Legal

end Dataflow
