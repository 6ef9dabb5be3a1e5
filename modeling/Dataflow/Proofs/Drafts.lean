import Dataflow.Proofs.Legality
import Dataflow.Proofs.Rules.Dispatch

/-!
# Well-typed drafts

In a well-typed draft every node reads values of types that suit it, redirections keep the type, and
the parts of a value are those that the target asks for. So it has all that a rule for one of its
nodes is specified with.
-/

namespace Dataflow

theorem Graph.typeOf?_congr {g g' : Graph} (h : g'.nodes = g.nodes) : g'.typeOf? = g.typeOf? := by
  funext v
  rw [Graph.typeOf?, Graph.typeOf?, h]

theorem Graph.reads_mono {g g' : Graph} (h : ∀ v t, g.typeOf? v = some t → g'.typeOf? v = some t)
    {vs : List Value} {ts : List ValueType} (hreads : vs.map g.typeOf? = ts.map some) :
    vs.map g'.typeOf? = ts.map some := by
  rw [← hreads]
  refine List.map_congr_left fun v hv => ?_
  have hmem : g.typeOf? v ∈ ts.map some := hreads ▸ List.mem_map_of_mem hv
  obtain ⟨t, _, ht⟩ := List.mem_map.1 hmem
  rw [← ht, h v t ht.symm]

theorem Graph.Extends.reads {g g' : Graph} (h : g.Extends g') {vs : List Value}
    {ts : List ValueType} (hreads : vs.map g.typeOf? = ts.map some) :
    vs.map g'.typeOf? = ts.map some :=
  Graph.reads_mono (fun _ _ => h.typeOf?) hreads

/-- A copy of a node reads values of the types that the node reads. -/
theorem Graph.Copy.Stands.reads {g h : Graph} {canonical : Value → Except Fault Value}
    {ids : List Nat} {id : Nat} {n m : Node} (hn : Stands g canonical ids id n)
    (hm : g.nodes[id]? = some m) (hsize : h.size = ids.length)
    (hstands : ∀ (k id : Nat) n, ids[k]? = some id → h.nodes[k]? = some n →
      Stands g canonical ids id n)
    (hcanonical : ∀ v w, canonical v = .ok w → g.typeOf? w = g.typeOf? v) :
    n.operands.map h.typeOf? = m.operands.map g.typeOf? := by
  obtain ⟨m', hm', _, hlen, hops⟩ := hn
  rw [hm] at hm'
  cases hm'
  refine List.ext_getElem? fun i => ?_
  rw [List.getElem?_map, List.getElem?_map]
  cases hu : n.operands[i]? with
  | none =>
    rw [List.getElem?_eq_none (hlen ▸ List.getElem?_eq_none_iff.1 hu)]
    rfl
  | some u =>
    obtain ⟨v, w, hv, hw, hslot, hnode⟩ := hops i u hu
    obtain ⟨n', hn'⟩ : ∃ n', h.nodes[u.node]? = some n' :=
      ⟨_, Array.getElem?_eq_getElem (show u.node < h.size from
        hsize ▸ (List.getElem?_eq_some_iff.1 hnode).1)⟩
    obtain ⟨m', hm', _, hres, _⟩ := (hstands _ _ n' hnode hn').node
    rw [hv, Option.map_some, Option.map_some, ← hcanonical v w hw, Graph.typeOf?, Graph.typeOf?, hn',
      hm', hslot]
    simp [hres]

namespace Legal

open Engine

variable {T : Target} {limit : Limit} {strict total : Prop} {g g' : Graph} {n : Node}
  {ts : List ValueType} {t : ValueType} {id : Nat}

/-- Node `n` of graph `g` reads values of types `ts`, which suit it. Where things are `strict`, so
does its attribute; where success is `total`, it is scalar integer code. Numbers are moderate where
the limit says so. -/
structure Suited (T : Target) (limit : Limit) (strict total : Prop) (g : Graph) (n : Node)
    (ts : List ValueType) : Prop where
  reads : n.operands.map g.typeOf? = ts.map some
  typed : n.Conforms (T.Signs limit) ts
  attributed : strict → n.Attributed (T.Within limit) ts
  moderate : limit.moderate → T.Moderate g ts n
  plain : total → T.Plain n.opcode (n.results ++ ts)

theorem Suited.typeOf? (h : Suited T limit strict total g n ts) {v : Value} (hv : v ∈ n.operands) :
    ∃ t ∈ ts, g.typeOf? v = some t := by
  have hmem : g.typeOf? v ∈ ts.map some := h.reads ▸ List.mem_map_of_mem hv
  obtain ⟨t, hts, ht⟩ := List.mem_map.1 hmem
  exact ⟨t, hts, ht.symm⟩

theorem Suited.extends (h : Suited T limit strict total g n ts) (hg : g.Extends g') :
    Suited T limit strict total g' n ts := by
  refine ⟨hg.reads h.reads, h.typed, h.attributed, fun hl => (h.moderate hl).congr fun v hv m hm => ?_,
    h.plain⟩
  obtain ⟨t, _, ht⟩ := h.typeOf? hv
  rwa [hg.getElem?_eq (Graph.lt_size_of_typeOf? ht)] at hm

/-- A copy of a node suits it, if canonical forms have the same types and are new for legal ones
only. -/
theorem Suited.stands {m : Node} {canonical : Value → Except Fault Value} {ids : List Nat} {h : Graph}
    (hts : Suited T limit strict total g m ts) (hn : Graph.Copy.Stands g canonical ids id n)
    (hm : g.nodes[id]? = some m) (hsize : h.size = ids.length)
    (hstands : ∀ (k id : Nat) n, ids[k]? = some id → h.nodes[k]? = some n →
      Graph.Copy.Stands g canonical ids id n)
    (hcanonical : ∀ v w, canonical v = .ok w → g.typeOf? w = g.typeOf? v)
    (hfixed : ∀ v w t, canonical v = .ok w → g.typeOf? v = some t → T.classify t ≠ .legal → w = v) :
    Suited T limit strict total h n ts := by
  have hreads := hn.reads hm hsize hstands hcanonical
  obtain ⟨m', hm', hn', hlen, hops⟩ := hn
  cases hm.symm.trans hm'
  refine ⟨hreads.trans hts.reads, ?_, fun hs => ?_, fun hl => ?_, fun ht => ?_⟩
  · rw [hn']
    exact hts.typed
  · rw [hn']
    exact hts.attributed hs
  · have hmoderate := hts.moderate hl
    refine ⟨by rw [hn']; exact hmoderate.argument, by rw [hn']; exact hmoderate.constant, ?_⟩
    intro vector index u i hop hoperands hts' p k hi hillegal hp hconstant hattr
    obtain ⟨v, w, hv, hw, _, hnode⟩ := hops 1 index (by rw [hoperands]; rfl)
    obtain ⟨q, hq, hop', _, hattr'⟩ := (hstands _ _ p hnode hp).node
    obtain ⟨a, hpair⟩ : ∃ a, m.operands = [a, v] := by
      rw [hoperands] at hlen
      obtain ⟨a, b, heq⟩ := List.length_eq_two.1 hlen.symm
      rw [heq] at hv
      cases hv
      exact ⟨a, heq⟩
    have htype : g.typeOf? v = some i := by
      have := hts.reads
      rw [hpair, hts'] at this
      simpa using (List.cons.inj (List.cons.inj this).2).1
    cases hfixed v w i hw htype hillegal
    exact hmoderate.index a v u i (by rw [hn'] at hop; exact hop) hpair hts' q k hi hillegal hq
      (hop' ▸ hconstant) (hattr' ▸ hattr)
  · rw [hn']
    exact hts.plain ht

theorem Parts.rel_map (f : Value → Value) (p : Parts) :
    p.Rel (fun v w => w = f v) (p.map f) := by
  cases p with
  | one v => rfl
  | two lo hi => exact ⟨rfl, rfl⟩

theorem Parts.all_map {low low' : Value → Prop} {f : Value → Value} {p : Parts}
    (h : Tracked.all low p) (hf : ∀ v, low v → low' (f v)) : Tracked.all low' (p.map f) := by
  cases p with
  | one v => exact hf v h
  | two lo hi => exact ⟨hf lo h.1, hf hi h.2⟩

theorem Parts.assemble_rel {val : Nat → Datum} {R : Value → Value → Prop} {p q : Parts}
    (h : p.Rel R q) (hR : ∀ v w, R v w → val w.node = val v.node) (T : Target) (t : ValueType) :
    q.assemble T val t = p.assemble T val t := by
  cases p <;> cases q <;> simp only [Parts.Rel] at h
  · rw [assemble, assemble, hR _ _ h]
  · rw [assemble, assemble, hR _ _ h.1, hR _ _ h.2]

namespace Conversion.Suits

variable {τ τ' : Value → Option ValueType} {c : Conversion}

/-- Parts may move to values of the same types. -/
theorem moves (h : c.Suits T τ t) {R : Value → Value → Prop} (hR : ∀ v w, R v w → τ w = τ v)
    {q : Parts} (hq : c.parts.Rel R q) : Suits T τ t ⟨c.kind, q⟩ := by
  obtain ⟨hkind, hpair, hparts⟩ := h
  obtain ⟨kind, p⟩ := c
  cases p <;> cases q <;> simp only [Parts.Rel] at hq
  · exact ⟨hkind, hpair, (hR _ _ hq).trans hparts⟩
  · exact ⟨hkind, hpair, (hR _ _ hq.1).trans hparts.1, (hR _ _ hq.2).trans hparts.2⟩

theorem mono (h : c.Suits T τ t) (hτ : ∀ v u, τ v = some u → τ' v = some u) : c.Suits T τ' t :=
  ⟨h.kind, h.pair, Tracked.mono (fun v hv => hτ v _ hv) h.parts⟩

theorem illegal (h : c.Suits T τ t) : T.classify t ≠ .legal := fun hlegal => by
  have := h.kind
  rw [hlegal] at this
  cases this

end Conversion.Suits

/-! ### Drafts -/

namespace Draft

variable {d d' : Draft} {rank : Nat → Nat}

/-- Rules convert nothing. -/
theorem Grows.get?_eq_none (hg : d.Grows d') {v : Value} (h : d.conversions.get? v = none) :
    d'.conversions.get? v = none := by
  rcases hg.conversions v with ⟨_, hnone⟩ | ⟨_, _, _, hp, _⟩
  · exact hnone
  · rw [h] at hp
    cases hp

theorem Grows.get?_eq_some (hg : d.Grows d') {v : Value} {c : Conversion}
    (h : d.conversions.get? v = some c) : ∃ c', d'.conversions.get? v = some c' := by
  rcases hg.conversions v with ⟨hnone, _⟩ | ⟨_, _, _, _, hget, _⟩
  · rw [h] at hnone
    cases hnone
  · exact ⟨_, hget⟩

/-- Nodes are well typed, and so are redirections and conversions. -/
structure Typed (d : Draft) (T : Target) (limit : Limit) (strict total : Prop) : Prop where
  nodes : ∀ (id : Nat) n, d.graph.nodes[id]? = some n →
    ∃ ts, Suited T limit strict total d.graph n ts
  redirected : ∀ v, d.replaced.next? v ≠ none → ∃ t, d.graph.typeOf? v = some t ∧
    d.graph.typeOf? (d.replaced.canon v) = some t ∧ T.classify t = .legal
  converted : ∀ v c, d.conversions.get? v = some c →
    ∃ t, d.graph.typeOf? v = some t ∧ c.Suits T d.graph.typeOf? t

namespace Typed

theorem typeOf?_canon (h : d.Typed T limit strict total) (hd : d.replaced.Descends rank)
    (v : Value) : d.graph.typeOf? (d.replaced.canon v) = d.graph.typeOf? v := by
  cases hv : d.replaced.next? v with
  | none => rw [hd.canon_self hv]
  | some w =>
    obtain ⟨t, ht, hc, _⟩ := h.redirected v (by rw [hv]; simp)
    rw [ht, hc]

theorem typeOf?_reaches (h : d.Typed T limit strict total) (hd : d.replaced.Descends rank)
    {v w : Value} (hr : d.replaced.Reaches v w) : d.graph.typeOf? w = d.graph.typeOf? v := by
  rw [← h.typeOf?_canon hd w, ← h.typeOf?_canon hd v, hd.canon_of_reaches hr]

/-- A typed value is the only result of a node. -/
theorem node_of_typeOf? (h : d.Typed T limit strict total) {v : Value}
    (hv : d.graph.typeOf? v = some t) : ∃ n ts, d.graph.nodes[v.node]? = some n ∧
      Suited T limit strict total d.graph n ts ∧ n.results = [t] ∧ v = ⟨v.node, 0⟩ := by
  obtain ⟨n, hn, hslot⟩ := Option.bind_eq_some_iff.1 hv
  obtain ⟨ts, hts⟩ := h.nodes v.node n hn
  rcases hts.typed with ⟨_, hres⟩ | ⟨u, hres, _⟩
  · rw [hres] at hslot
    cases hslot
  · rw [hres] at hslot
    obtain ⟨node, slot⟩ := v
    obtain rfl : slot = 0 := by simpa using (List.getElem?_eq_some_iff.1 hslot).1
    cases hslot
    exact ⟨n, ts, hn, hts, hres, rfl⟩

/-- Values of illegal types are their own canonical forms. -/
theorem canon_of_illegal (h : d.Typed T limit strict total) (hd : d.replaced.Descends rank)
    {v : Value} (hv : d.graph.typeOf? v = some t) (ht : T.classify t ≠ .legal) :
    d.replaced.canon v = v := by
  refine hd.canon_self ?_
  by_contra hne
  obtain ⟨u, hu, _, hlegal⟩ := h.redirected v hne
  cases hv.symm.trans hu
  exact ht hlegal

/-- New nodes that are well typed leave a draft well typed. -/
theorem grows (h : d.Typed T limit strict total) (hd : d.replaced.Descends rank) (hg : d.Grows d')
    (hnew : ∀ (j : Nat) n, d.graph.size ≤ j → d'.graph.nodes[j]? = some n →
      ∃ ts, Suited T limit strict total d'.graph n ts) : d'.Typed T limit strict total where
  nodes j n hn := by
    by_cases hj : d.graph.size ≤ j
    · exact hnew j n hj hn
    · rw [hg.graph.getElem?_eq (Nat.lt_of_not_le hj)] at hn
      obtain ⟨ts, hts⟩ := h.nodes j n hn
      exact ⟨ts, hts.extends hg.graph⟩
  redirected v hv := by
    obtain ⟨t, ht, hc, hlegal⟩ :=
      h.redirected v fun hnone => hv ((hg.replaced.next?_eq_none v).2 hnone)
    rw [hd.canon_shortens hg.replaced]
    exact ⟨t, hg.graph.typeOf? ht, hg.graph.typeOf? hc, hlegal⟩
  converted v c hc := by
    rcases hg.conversions v with ⟨_, hnone⟩ | ⟨kind, p, q, hp, hq, hpq⟩
    · rw [hc] at hnone
      cases hnone
    · rw [hc] at hq
      cases hq
      obtain ⟨t, ht, hsuits⟩ := h.converted v _ hp
      exact ⟨t, hg.graph.typeOf? ht, (hsuits.moves (fun _ _ => h.typeOf?_reaches hd) hpq).mono
        fun _ _ => hg.graph.typeOf?⟩

/-- Redirections and conversions may change within the types. -/
theorem update (h : d.Typed T limit strict total) (hnodes : d'.graph.nodes = d.graph.nodes)
    (hredirected : ∀ v, d'.replaced.next? v ≠ none → ∃ t, d.graph.typeOf? v = some t ∧
      d.graph.typeOf? (d'.replaced.canon v) = some t ∧ T.classify t = .legal)
    (hconverted : ∀ v c, d'.conversions.get? v = some c → d.conversions.get? v = some c ∨
      ∃ t, d.graph.typeOf? v = some t ∧ c.Suits T d.graph.typeOf? t) :
    d'.Typed T limit strict total := by
  have htype := Graph.typeOf?_congr hnodes
  refine ⟨fun j n hn => ?_, fun v hv => ?_, fun v c hc => ?_⟩
  · rw [hnodes] at hn
    obtain ⟨ts, hts⟩ := h.nodes j n hn
    exact ⟨ts, by rw [htype]; exact hts.reads, hts.typed, hts.attributed,
      fun hl => (hts.moderate hl).congr fun v _ m hm => hnodes ▸ hm, hts.plain⟩
  · rw [htype]
    exact hredirected v hv
  · rw [htype]
    exact (hconverted v c hc).elim (h.converted v c) id

theorem shortens (h : d.Typed T limit strict total) (hd : d.replaced.Descends rank)
    (hnodes : d'.graph.nodes = d.graph.nodes) (hr : d.replaced.Shortens d'.replaced)
    (hc : d'.conversions = d.conversions) : d'.Typed T limit strict total :=
  h.update hnodes (fun v hv => by
      rw [hd.canon_shortens hr]
      exact h.redirected v fun hnone => hv ((hr.next?_eq_none v).2 hnone))
    fun v c hv => .inl (hc ▸ hv)

end Typed

/-- A rule may look at node `id` of a draft: it is well typed, and its operands of illegal types
have parts. -/
structure Visits (d : Draft) (T : Target) (limit : Limit) (strict total : Prop) (id : Nat)
    (n : Node) (ts : List ValueType) : Prop where
  regular : T.Regular
  typed : d.Typed T limit strict total
  descends : ∃ rank, d.replaced.Descends rank
  node_at : d.graph.nodes[id]? = some n
  suited : Suited T limit strict total d.graph n ts
  complete : ∀ v ∈ n.operands, ∀ t, d.graph.typeOf? v = some t → T.classify t ≠ .legal →
    ∃ c, d.conversions.get? (d.replaced.canon v) = some c

/-- The data `val` fit the types in the graph `g` that a rule leaves, agree with redirections,
conversions and constants, and are allowed by the meanings of new nodes. -/
structure Valued (d : Draft) (T : Target) (limit : Limit) (args : Array BitString) (g : Graph)
    (val : Nat → Datum) : Prop where
  fits : ∀ v t, g.typeOf? v = some t → (val v.node).Fits t
  next : ∀ v w, d.replaced.next? v = some w → val w.node = val v.node
  entry : ∀ v c t, d.conversions.get? v = some c → g.typeOf? v = some t →
    val v.node = c.parts.assemble T val t
  obeys : ∀ (j : Nat) n ts e, d.graph.size ≤ j → g.nodes[j]? = some n →
    n.operands.map g.typeOf? = ts.map some →
    n.meaning args (n.operands.map (val ·.node)) ts = .ok e → n.Allows (T.Loose limit) ts e (val j)
  constants : ∀ v n t bits, g.nodes[v.node]? = some n → n.opcode = .constant →
    n.attr = .imm bits → g.typeOf? v = some t → t.isVector = false → val v.node = .scalar bits

theorem Valued.canon {args : Array BitString} {val : Nat → Datum} (h : d.Valued T limit args g val)
    (hd : d.replaced.Descends rank) (v : Value) : val (d.replaced.canon v).node = val v.node := by
  have hreaches {w : Value} (hr : d.replaced.Reaches v w) : val w.node = val v.node := by
    induction hr with
    | refl => rfl
    | step hnext _ ih => exact ih.trans (h.next _ _ hnext)
  exact hreaches (hd.reaches_canon v)

namespace Visits

theorem quiet (h : d.Visits T limit strict total id n ts) (hq : d.Quiet d') :
    d'.Visits T limit strict total id n ts := by
  obtain ⟨rank, hd⟩ := h.descends
  refine ⟨h.regular, h.typed.shortens hd (by rw [hq.graph]) hq.replaced hq.conversions,
    ⟨rank, hd.shortens hq.replaced⟩, hq.graph ▸ h.node_at, hq.graph ▸ h.suited,
    fun v hv t ht hc => ?_⟩
  rw [hd.canon_shortens hq.replaced, hq.conversions]
  exact h.complete v hv t (hq.graph ▸ ht) hc

/-- The type of an operand is that of its canonical form. -/
theorem type_at (h : d.Visits T limit strict total id n ts) {i : Nat} {v : Value}
    (hv : n.operands[i]? = some v) : ∃ u, ts[i]? = some u ∧
      d.graph.typeOf? (d.replaced.canon v) = some u := by
  obtain ⟨rank, hd⟩ := h.descends
  have hget := congrArg (·[i]?) h.suited.reads
  simp only [List.getElem?_map, hv, Option.map_some] at hget
  obtain ⟨u, hi, hu⟩ := Option.map_eq_some_iff.1 hget.symm
  exact ⟨u, hi, (h.typed.typeOf?_canon hd v).trans hu.symm⟩

section
variable (h : d.Visits T limit strict total id n ts) (hg : d.graph.Extends g)
  (hillegal : ∃ t ∈ n.results ++ ts, T.classify t ≠ .legal) (htotal : total → strict)
  (measured sem : Prop) (args : Array BitString) (val : Nat → Datum)
  (hsem : sem → strict ∧ d.Valued T limit args g val)

/-- What is asked of a rule that leaves graph `g`. -/
def ruleSpec : RuleSpec where
  T := T
  limit := limit
  base := d
  final := g
  strict := strict
  sem := sem
  numbered := True
  exact := False
  measured := measured
  total := total
  args := args
  val := val
  Known _ := True
  Fails e := (e.IsObstacle ∨ e = .fault .overflow ∧ d.replaced.Overflows T g n) ∧ ¬ total
  ceiling := T.burden n.opcode (n.results ++ ts)
  outputs := True
  regular := h.regular
  grown := hg
  descends := h.descends
  stands v w hv := by
    obtain ⟨t, ht, _⟩ := h.typed.redirected v (by rw [hv]; simp)
    exact Graph.lt_size_of_typeOf? ht
  strict_of_sem hs := (hsem hs).1
  strict_of_total := htotal
  ceiling_pos _ := by
    obtain ⟨t, ht, hc⟩ := hillegal
    exact Nat.lt_of_lt_of_le (charge_pos (Target.weight_pos hc)) (Target.charge_le_height ht)
  obeys hs j m us t e hj hm hres _ _ hreads _ _ he := by
    have hvalued := (hsem hs).2
    have htype : g.typeOf? ⟨j, 0⟩ = some t := by
      rw [Graph.typeOf?, hm]
      simp [hres]
    exact ⟨trivial, hvalued.fits ⟨j, 0⟩ t htype, hvalued.obeys j m us e hj hm hreads he, False.elim⟩

/-- Operands are at hand, with the parts that the draft has for them. -/
theorem ruleSpec_supplies (v : Value) (hv : v ∈ n.operands) (t : ValueType)
    (ht : g.typeOf? v = some t) :
    (h.ruleSpec hg hillegal htotal measured sem args val hsem).Supplies v t := by
  obtain ⟨rank, hd⟩ := h.descends
  have hcanon (hs : sem) (w : Value) := (hsem hs).2.canon hd w
  have htype (w : Value) (u : ValueType) (hw : d.graph.typeOf? w = some u) :
      g.typeOf? (d.replaced.canon w) = some u :=
    hg.typeOf? ((h.typed.typeOf?_canon hd w).trans hw)
  obtain ⟨u, _, hu⟩ := h.suited.typeOf? hv
  cases ht.symm.trans (hg.typeOf? hu)
  refine ⟨⟨htype v t hu, fun hs => hcanon hs v, fun hs => (hsem hs).2.fits v t ht,
    hd.canon_canon v, fun _ => trivial⟩, fun hc => ?_⟩
  obtain ⟨c, hget⟩ := h.complete v hv t hu hc
  obtain ⟨u, hu', hsuits⟩ := h.typed.converted _ c hget
  cases (htype v t hu).symm.trans (hg.typeOf? hu')
  refine ⟨c, hget, hsuits.kind, hsuits.pair, ?_, fun hs => ?_⟩
  · refine Parts.all_map hsuits.parts fun p hp => ?_
    have hp := htype p _ hp
    exact ⟨hp, fun _ => rfl, fun hs => (hsem hs).2.fits _ _ hp, hd.canon_canon p, fun _ => trivial⟩
  · refine Eq.trans ?_ (Parts.assemble_rel (c.parts.rel_map d.replaced.canon) ?_ T t).symm
    · exact (hcanon hs v).symm.trans ((hsem hs).2.entry _ c t hget (htype v t hu))
    · rintro p _ rfl
      exact hcanon hs p

/-- What is asked of a rule that rewrites the node and leaves graph `g`. -/
def rewriteSpec
    (hmeasured : measured → ¬ limit.liberal ∧ ∀ t ∈ n.results ++ ts, T.classify t = .legal →
      T.classify t.scalar = .legal) (e : Datum)
    (hmeans : sem → n.opcode ≠ .output →
      n.meaning args (n.operands.map (val ·.node)) ts = .ok e) : RewriteSpec where
  toRuleSpec := h.ruleSpec hg hillegal htotal measured sem args val hsem
  id := id
  node := n
  types := ts
  datum := e
  node_at := h.node_at
  reads := hg.reads h.suited.reads
  typed := h.suited.typed
  outputs_of_output _ := trivial
  ceiling_eq := rfl
  fails_iff _ := Iff.rfl
  supplies := h.ruleSpec_supplies hg hillegal htotal measured sem args val hsem
  attributed hs _ := h.suited.attributed hs
  moderate := (h.suited.extends hg).moderate
  fixed _ v hv t ht hc := by
    obtain ⟨rank, hd⟩ := h.descends
    obtain ⟨u, _, hu⟩ := h.suited.typeOf? hv
    cases ht.symm.trans (hg.typeOf? hu)
    exact h.typed.canon_of_illegal hd hu hc
  unmeasured hm := (hmeasured hm).1
  laned hm := (hmeasured hm).2
  plain := h.suited.plain
  means := hmeans
  constants hs _ := (hsem hs).2.constants

end

/-- What is asked of such a rule without data. -/
def typedSpec (h : d.Visits T limit strict total id n ts) (hg : d.graph.Extends g)
    (hillegal : ∃ t ∈ n.results ++ ts, T.classify t ≠ .legal) (htotal : total → strict)
    (measured : Prop) (hmeasured : measured → ¬ limit.liberal ∧
      ∀ t ∈ n.results ++ ts, T.classify t = .legal → T.classify t.scalar = .legal) : RewriteSpec :=
  h.rewriteSpec hg hillegal htotal measured False #[] (fun _ => .scalar 0) False.elim hmeasured
    (.scalar 0) False.elim

end Visits

end Draft

/-- What is shown of a rule under its specification holds of its run. -/
theorem RuleSpec.Meets.ok {V : RuleSpec} {α : Type} {x : Edit α} {Q : α → Prop} {a : α} {d' : Draft}
    (h : V.Meets x Q) (hrun : x.run V.base = .ok a d') (hfinal : V.final = d'.graph) :
    V.Fresh d'.graph ∧ Q a := by
  have hholds := EditSpec.Meets.holds h
    (by rw [show x.run V.editSpec.base = _ from hrun]; exact hfinal.symm)
  rwa [show x.run V.editSpec.base = _ from hrun] at hholds

theorem RuleSpec.Meets.error {V : RuleSpec} {α : Type} {x : Edit α} {Q : α → Prop} {e : Error}
    {d' : Draft} (h : V.Meets x Q) (hrun : x.run V.base = .error e d')
    (hfinal : V.final = d'.graph) : V.Fails e := by
  have hholds := EditSpec.Meets.holds h
    (by rw [show x.run V.editSpec.base = _ from hrun]; exact hfinal.symm)
  rwa [show x.run V.editSpec.base = _ from hrun] at hholds

namespace RewriteSpec

variable {V : RewriteSpec} {d : Draft} {e : Error}

theorem shows_of_results (h : V.node.results = [t]) :
    V.Shows V.node.opcode V.types t ∧ V.T.Signs V.limit V.node.opcode V.types t :=
  ⟨⟨rfl, rfl, h⟩, V.typed.sig_of_results h⟩

/-- What an operand rule gives in the place of the node. -/
def Replaces (V : RewriteSpec) (s : Successor) : Prop :=
  V.node.results = [] ∧ V.Observes s ∨ ∃ t, V.node.results = [t] ∧ V.Succeeds t s

end RewriteSpec

theorem RuleSpec.Meets.successor {V : RewriteSpec} {i : Nat} {u : ValueType} {rule : OperandRule}
    (hnumbered : V.node.opcode.readsConstants = true → V.sem → V.numbered)
    (hlegal : ∀ t ∈ V.node.results, V.T.classify t = .legal) (hi : V.types[i]? = some u)
    (hrule : operandRule? (V.T.classify u) V.node.opcode = some rule) :
    V.Meets (rule V.T V.id i) V.Replaces := by
  rcases V.typed with ⟨hop, hres⟩ | ⟨t, hres, hsig⟩
  · exact (Meets.outputRule hop hres hi (hop ▸ hrule)).mono fun s hs => .inl ⟨hres, hs⟩
  · exact (Meets.operandRule ⟨rfl, rfl, hres⟩ hsig (hlegal t (by simp [hres])) hi hnumbered hrule).mono
      fun s hs => .inr ⟨t, hres, hs⟩

/-! ### Visits -/

namespace Run

variable {s s' : Run} {rank : Nat → Nat}

/-- In a well-typed run the values of processed nodes that have illegal types have parts. -/
structure Typed (s : Run) (T : Target) (limit : Limit) (strict total : Prop) : Prop
    extends s.draft.Typed T limit strict total where
  complete : ∀ v t, s.states.get v.node = .processed → s.draft.graph.typeOf? v = some t →
    T.classify t ≠ .legal → ∃ c, s.draft.conversions.get? v = some c

theorem Typed.visits (h : s.Typed T limit strict total) (hT : T.Regular)
    (hs : s.Sound (some id) rank) (hn : s.draft.graph.nodes[id]? = some n) :
    ∃ ts, s.draft.Visits T limit strict total id n ts := by
  obtain ⟨ts, hts⟩ := h.nodes id n hn
  have hd := hs.ordered.descends
  refine ⟨ts, hT, h.toTyped, ⟨rank, hd⟩, hn, hts, fun v hv t ht hc => ?_⟩
  exact h.complete _ t (hs.source_processed (.inl (hs.scheduled.current id rfl)) hn hv)
    ((h.typeOf?_canon hd v).trans ht) hc

/-- So may a rule look at the next node of the worklist. -/
theorem Typed.visits_head (h : s.Typed T limit strict total) (hT : T.Regular)
    (hs : s.Sound none rank) {rest : List Nat} (hw : s.worklist = id :: rest)
    (hn : s.draft.graph.nodes[id]? = some n) :
    ∃ ts, s.draft.Visits T limit strict total id n ts := by
  have h' : ({ s with worklist := rest } : Run).Typed T limit strict total := ⟨h.toTyped, h.complete⟩
  exact h'.visits hT (sound_pop hs hw) hn

end Run

/-- The specification is that of a rule that rewrites node `id` of `d` and leaves `d'`, with
numbered data. -/
structure RewriteSpec.Describes (V : RewriteSpec) (T : Target) (id : Nat) (n : Node)
    (d d' : Draft) : Prop where
  target : V.T = T
  id : V.id = id
  node : V.node = n
  base : V.base = d
  final : V.final = d'.graph
  numbered : V.numbered

theorem RuleSpec.Meets.of_ok {V : RewriteSpec} {α : Type} {x : Target → Nat → Edit α} {Q : α → Prop}
    {d d' : Draft} {a : α} (h : V.Meets (x V.T V.id) Q) (hV : V.Describes T id n d d')
    (hrun : (x T id).run d = .ok a d') : V.Fresh d'.graph ∧ Q a := by
  obtain ⟨rfl, rfl, rfl, rfl, hfinal, _⟩ := hV
  exact h.ok hrun hfinal

theorem RuleSpec.Meets.of_error {V : RewriteSpec} {α : Type} {x : Target → Nat → Edit α}
    {Q : α → Prop}
    {d d' : Draft} {e : Error} (h : V.Meets (x V.T V.id) Q) (hV : V.Describes T id n d d')
    (hrun : (x T id).run d = .error e d') : V.Fails e := by
  obtain ⟨rfl, rfl, rfl, rfl, hfinal, _⟩ := hV
  exact h.error hrun hfinal

theorem RewriteSpec.describes_typedSpec {d d' : Draft} (h : d.Visits T limit strict total id n ts)
    (hg : d.graph.Extends d'.graph) (hillegal : ∃ t ∈ n.results ++ ts, T.classify t ≠ .legal)
    (htotal : total → strict) (measured : Prop) (hmeasured : measured → ¬ limit.liberal ∧
      ∀ t ∈ n.results ++ ts, T.classify t = .legal → T.classify t.scalar = .legal) :
    (h.typedSpec hg hillegal htotal measured hmeasured).Describes T id n d d' :=
  ⟨rfl, rfl, rfl, rfl, rfl, trivial⟩

theorem RuleSpec.Good.suited {V : RuleSpec} (h : V.Good n ts) (hnumbered : V.numbered) :
    Suited V.T V.limit V.strict V.total V.final n ts :=
  ⟨h.reads, h.typed, fun hs => h.attributed hs fun _ => hnumbered, h.moderate, h.admitted.plain⟩

/-- A rule that adds good nodes leaves a well-typed draft. -/
theorem Draft.Visits.typed_of_fresh {d d' : Draft} (h : d.Visits T limit strict total id n ts)
    (hg : d.Grows d') {hillegal : ∃ t ∈ n.results ++ ts, T.classify t ≠ .legal}
    {htotal : total → strict} {measured : Prop} {hmeasured : measured → ¬ limit.liberal ∧
      ∀ t ∈ n.results ++ ts, T.classify t = .legal → T.classify t.scalar = .legal}
    (hfresh : (h.typedSpec hg.graph hillegal htotal measured hmeasured).Fresh d'.graph) :
    d'.Typed T limit strict total := by
  obtain ⟨rank, hd⟩ := h.descends
  refine h.typed.grows hd hg fun j m hj hm => ?_
  obtain ⟨us, hgood⟩ := hfresh j m hj hm
  exact ⟨us, hgood.suited trivial⟩

end Legal

end Dataflow
