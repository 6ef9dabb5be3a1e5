import Dataflow.Proofs.Models

/-!
# Graphs that determine their result

Some operations leave bits of their result open. A graph determines its result when all data that
its nodes may have lead to the same observation. What a graph without such operations evaluates to
is determined, and what is determined is what the graph evaluates to.
-/

namespace Dataflow

namespace Eval

variable {g : Graph} {V : Nat → Option Datum} {n : Node} {ts : List ValueType} {data : List Datum}

/-- An output observes the data of its operands. -/
theorem observes_eq (hreads : n.operands.map g.typeOf? = ts.map some)
    (hdata : n.operands.map (V ·.node) = data.map some) (hfits : List.Forall₂ Datum.Fits data ts) :
    observes g V n = .ok (n.observation data ts) := by
  have hlen : n.operands.length = ts.length := by
    simpa only [List.length_map] using congrArg List.length hreads
  have hlen' := hfits.length_eq
  let part (i : Nat) : BitString := .ofNumber (((n.widths?.getD [])[i]?).getD (ts[i]?.getD .i1).bits)
    ((data[i]?.getD (.scalar 0)).number (ts[i]?.getD .i1))
  have hpart (p : Value × Nat) (hp : p ∈ n.operands.zipIdx) : (do
      let t ← g.typeOf p.1
      let d ← reads V n p.2
      return (BitString.ofDatum d t).resize ((n.widths?.getD [])[p.2]?.getD t.bits) :
        Except EvalError BitString) = .ok (part p.2) := by
    obtain ⟨v, i⟩ := p
    have hv : n.operands[i]? = some v := List.mem_zipIdx_iff_getElem?.1 hp
    have hi : i < n.operands.length := (List.getElem?_eq_some_iff.1 hv).1
    have ht := List.getElem?_eq_getElem (hlen ▸ hi : i < ts.length)
    have hd := List.getElem?_eq_getElem (by omega : i < data.length)
    have htype := congrArg (·[i]?) hreads
    simp only [List.getElem?_map, hv, ht, Option.map_some, Option.some.injEq] at htype
    have hfit : (data[i]).Fits ts[i] := List.Forall₂.get hfits _ _
    simp only [Graph.typeOf, htype, liftM_ok, ok_bind, reads_eq hdata, hd, Option.elim_some, part, ht,
      Option.getD_some, BitString.ofDatum_eq hfit, BitString.resize_ofNumber,
      Nat.mod_eq_of_lt hfit.number_lt]
    rfl
  unfold observes
  rw [mapM_of_ok hpart]
  show Except.ok _ = _
  unfold Node.observation
  congr 2
  refine List.ext_getElem? fun i => ?_
  rw [List.getElem?_map, List.getElem?_mapIdx, List.getElem?_zipIdx, Option.map_map]
  by_cases hi : i < ts.length
  · have hzip : (ts.zip data)[i]? = some (ts[i], data[i]) := by simp [hi, hlen' ▸ hi]
    rw [List.getElem?_eq_getElem (hlen ▸ hi), hzip]
    simp [part, hi, hlen' ▸ hi]
  · have hzip : (ts.zip data).length ≤ i := by simpa [hlen'] using hi
    rw [List.getElem?_eq_none (by omega), List.getElem?_eq_none hzip]
    rfl

end Eval

namespace Graph

variable {g : Graph} {loose : ValueType → Prop} {args : Array BitString} {root : Nat}
  {val : Nat → Datum} {bits : BitString}

/-- Data of the nodes in `p`, each of its type and allowed by the meaning of its node. -/
structure Models (g : Graph) (loose : ValueType → Prop) (args : Array BitString) (p : Nat → Prop)
    (val : Nat → Datum) : Prop where
  fits : ∀ v t, p v.node → g.typeOf? v = some t → (val v.node).Fits t
  obeys : ∀ (id : Nat) n ts e, p id → g.nodes[id]? = some n →
    n.operands.map g.typeOf? = ts.map some →
    n.meaning args (n.operands.map (val ·.node)) ts = .ok e → n.Allows loose ts e (val id)

/-- The data of operands are of their types. -/
theorem forall₂_fits {vs : List Value} {ts : List ValueType} (hreads : vs.map g.typeOf? = ts.map some)
    (h : ∀ v ∈ vs, ∀ t, g.typeOf? v = some t → (val v.node).Fits t) :
    List.Forall₂ Datum.Fits (vs.map (val ·.node)) ts := by
  obtain ⟨data, hdata, hfits⟩ := exists_data (V := fun j => some (val j)) hreads fun v hv t ht =>
    ⟨_, rfl, h v hv t ht⟩
  have hdata : (vs.map (val ·.node)).map some = data.map some := by
    rw [← hdata, List.map_map]
    rfl
  rwa [List.eq_of_map_some hdata]

/-- Whatever data the nodes have that the root reaches, they have meanings, and the root observes
`bits`. -/
def Determines (g : Graph) (loose : ValueType → Prop) (args : Array BitString) (root : Nat)
    (bits : BitString) : Prop :=
  ∀ val, g.Models loose args (g.Reached .ok root) val →
    g.Meaningful args (g.Reached .ok root) val ∧ g.Observes root val bits

/-! ### Copies -/

section
variable {h : Graph} {f : Value → Value} {ids : List Nat} {k id : Nat} {n : Node}
  {ts : List ValueType} {val' : Nat → Datum}

theorem Copies.typeOf? (hc : g.Copies f root ids h) {u w : Value} (hnode : ids[u.node]? = some w.node)
    (hslot : u.slot = w.slot) : h.typeOf? u = g.typeOf? w := by
  obtain ⟨n, us, hn, hm, _⟩ := hc.node _ _ hnode
  rw [Graph.typeOf?, Graph.typeOf?, hn, hm, hslot]
  rfl

/-- Every copy is reached from the copy of the root. -/
theorem Copies.reached (hc : g.Copies f root ids h)
    (hid : g.Reached (fun v => .ok (f v)) root id) (hk : ids[k]? = some id) :
    h.Reached .ok (ids.length - 1) k := by
  have hunique {i j x : Nat} (hi : ids[i]? = some x) (hj : ids[j]? = some x) : i = j :=
    (List.getElem?_inj (List.getElem?_eq_some_iff.1 hi).1 hc.nodup).1 (hi.trans hj.symm)
  induction hid generalizing k with
  | root =>
    rw [hunique hk (by rw [← List.getLast?_eq_getElem?]; exact hc.last)]
    exact .root
  | @operand id n v w hid hn hv hw ih =>
    cases hw
    obtain ⟨j, hj⟩ := List.getElem?_of_mem ((hc.mem_iff id).2 hid)
    obtain ⟨n', us, hn', hm, _, hops⟩ := hc.node j id hj
    rw [hn] at hn'
    cases hn'
    obtain ⟨i, hi⟩ := List.getElem?_of_mem hv
    obtain ⟨u, hu, _, hnode, _⟩ := hops i v hi
    rw [hunique hk hnode]
    exact .operand (ih hj) hm (List.mem_of_getElem? hu) rfl

/-- Data of the copies are of the types of the nodes. -/
theorem Copies.fits (hc : g.Copies f root ids h)
    (hval : h.Models loose args (h.Reached .ok (ids.length - 1)) val') {v : Value} {t : ValueType}
    (hv : v.node ∈ ids) (ht : g.typeOf? v = some t) :
    (val' (ids.idxOf v.node)).Fits t := by
  have hk : ids[ids.idxOf v.node]? = some v.node := List.getElem?_idxOf hv
  refine hval.fits ⟨ids.idxOf v.node, v.slot⟩ t (hc.reached ((hc.mem_iff _).1 hv) hk) ?_
  rw [hc.typeOf? (u := ⟨ids.idxOf v.node, v.slot⟩) (w := v) hk rfl, ht]

section
variable (hc : g.Copies f root ids h) (hf : ∀ v, g.typeOf? (f v) = g.typeOf? v)
include hc hf

/-- A copy reads values of the same types, with the data of the copies. -/
theorem Copies.copy (val' : Nat → Datum) (hk : ids[k]? = some id) : ∃ n us, g.nodes[id]? = some n ∧
    h.nodes[k]? = some { n with operands := us } ∧ us.length = n.operands.length ∧
    us.map h.typeOf? = n.operands.map g.typeOf? ∧
    us.map (val' ·.node) = n.operands.map fun v => val' (ids.idxOf (f v).node) := by
  obtain ⟨n, us, hn, hm, hlen, hops⟩ := hc.node k id hk
  have hpairs (i : Nat) (u v : Value) (hu : us[i]? = some u) (hv : n.operands[i]? = some v) :
      u.slot = (f v).slot ∧ ids[u.node]? = some (f v).node := by
    obtain ⟨u', hu', hslot, hnode, _⟩ := hops i v hv
    rw [hu] at hu'
    cases hu'
    exact ⟨hslot, hnode⟩
  have hmap {β : Type} (a b : Value → β) (hab : ∀ u v, u.slot = (f v).slot →
      ids[u.node]? = some (f v).node → a u = b v) : us.map a = n.operands.map b := by
    refine List.ext_getElem (by simpa using hlen) fun i hi hi' => ?_
    rw [List.length_map] at hi hi'
    obtain ⟨hslot, hnode⟩ := hpairs i _ _ (List.getElem?_eq_getElem hi)
      (List.getElem?_eq_getElem hi')
    rw [List.getElem_map, List.getElem_map, hab _ _ hslot hnode]
  refine ⟨n, us, hn, hm, hlen, hmap _ _ fun u v hslot hnode => ?_, hmap _ _ fun u v _ hnode => ?_⟩
  · rw [hc.typeOf? hnode hslot, hf]
  · obtain ⟨hlt, hget⟩ := List.getElem?_eq_some_iff.1 hnode
    rw [← hget, hc.nodup.idxOf_getElem _ hlt]

/-- Data of the copies are allowed by the meanings of the nodes. -/
theorem Copies.obeys (hval : h.Models loose args (h.Reached .ok (ids.length - 1)) val')
    (hid : id ∈ ids) (hn : g.nodes[id]? = some n)
    (hreads : n.operands.map g.typeOf? = ts.map some) {e : Datum}
    (he : n.meaning args (n.operands.map fun v => val' (ids.idxOf (f v).node)) ts = .ok e) :
    n.Allows loose ts e (val' (ids.idxOf id)) := by
  have hk : ids[ids.idxOf id]? = some id := List.getElem?_idxOf hid
  obtain ⟨n', us, hn', hm, hlen, htypes, hdata⟩ := hc.copy hf val' hk
  rw [hn] at hn'
  cases hn'
  have he' : Node.meaning args { n with operands := us } (us.map (val' ·.node)) ts = .ok e := by
    rw [Node.meaning_operands _ _ hlen, hdata]
    exact he
  exact hval.obeys _ { n with operands := us } ts e (hc.reached ((hc.mem_iff _).1 hid) hk) hm
    (htypes.trans hreads) he'

/-- Copies have meanings where the nodes have. -/
theorem Copies.meaningful (hmean : g.Meaningful args (· ∈ ids) val)
    (hval : ∀ id ∈ ids, ∀ n v, g.nodes[id]? = some n → v ∈ n.operands →
      val v.node = val' (ids.idxOf (f v).node)) (p : Nat → Prop) : h.Meaningful args p val' := by
  intro k m us _ hm hop hreads
  have hk : k < ids.length := hc.size_eq ▸ lt_size_of_getElem? hm
  have hid := List.getElem?_eq_getElem hk
  obtain ⟨n, ops, hn, hm', hlen, htypes, hdata⟩ := hc.copy hf val' hid
  rw [hm] at hm'
  cases hm'
  obtain ⟨e, he⟩ := hmean _ n us (List.getElem_mem hk) hn hop (htypes.symm.trans hreads)
  refine ⟨e, ?_⟩
  rw [Node.meaning_operands _ _ hlen, hdata, ← he]
  congr 1
  exact List.map_congr_left fun v hv => (hval _ (List.getElem_mem hk) n v hn hv).symm

/-- The copy of the root observes what the root observes. -/
theorem Copies.observes (hobs : g.Observes root val bits)
    (hval : ∀ id ∈ ids, ∀ n v, g.nodes[id]? = some n → v ∈ n.operands →
      val v.node = val' (ids.idxOf (f v).node)) : h.Observes (ids.length - 1) val' bits := by
  obtain ⟨n, ts, hn, hop, hreads, rfl⟩ := hobs
  have hk : ids[ids.length - 1]? = some root := by
    rw [← List.getLast?_eq_getElem?]
    exact hc.last
  obtain ⟨n', us, hn', hm, hlen, htypes, hdata⟩ := hc.copy hf val' hk
  rw [hn] at hn'
  cases hn'
  refine ⟨_, ts, hm, hop, htypes.trans hreads, ?_⟩
  rw [show us.map (val' ·.node) = n.operands.map (val ·.node) from
    hdata.trans (List.map_congr_left fun v hv =>
      (hval root (List.mem_of_getElem? hk) n v hn hv).symm)]
  rfl

end

/-- The live part of a graph determines what the graph determines. -/
theorem Determines.live (hdet : g.Determines loose args root bits)
    (hx : g.Extracts .ok root ids h) : h.Determines loose args (ids.length - 1) bits := by
  have hc : g.Copies (fun v => v) root ids h := hx.copies
  intro val' hval'
  have hmem (id : Nat) : id ∈ ids ↔ g.Reached .ok root id := hc.mem_iff id
  let val (j : Nat) : Datum := val' (ids.idxOf j)
  obtain ⟨hmean, hobs⟩ := hdet val
    ⟨fun v t hv ht => hc.fits hval' ((hmem _).2 hv) ht,
      fun id n ts e hid hn hreads he => hc.obeys (fun _ => rfl) hval' ((hmem _).2 hid) hn hreads he⟩
  have hval (id : Nat) (_ : id ∈ ids) (n : Node) (v : Value) (_ : g.nodes[id]? = some n)
      (_ : v ∈ n.operands) : val v.node = val' (ids.idxOf v.node) := rfl
  exact ⟨hc.meaningful (fun _ => rfl) (fun j n ts hj => hmean j n ts ((hmem j).1 hj)) hval _,
    hc.observes (fun _ => rfl) hobs hval⟩

end

end Graph

namespace Legal

open Engine Eval

variable {g : Graph} {root : NodeId} {loose : ValueType → Prop}

theorem Engine.Rooted.root_lt (hg : Rooted g root) : root < g.size := by
  obtain ⟨n, hn, _⟩ := hg.output
  exact Graph.lt_size_of_getElem? hn

/-- The root is the only output. -/
theorem Engine.Rooted.output_iff (hg : Rooted g root) {id : Nat} {n : Node} {ts : List ValueType}
    (hn : g.nodes[id]? = some n) (htyped : n.Conforms Sensible ts) :
    n.opcode = .output ↔ id = root := by
  constructor
  · intro hop
    by_contra hid
    have hone := hg.one id n hn hid
    rw [htyped.results_of_output hop] at hone
    cases hone
  · rintro rfl
    obtain ⟨m, hm, hop, _⟩ := hg.output
    rw [hn] at hm
    cases hm
    exact hop

/-- Graphs that leave no bits open: data of the type of a node that its meaning allows are what it
means. -/
structure Definite (g : Graph) (loose : ValueType → Prop) (root : NodeId) : Prop
    extends g.Evaluable root where
  exact : ∀ (id : Nat) n ts t d e, g.nodes[id]? = some n →
    n.operands.map g.typeOf? = ts.map some → n.results = [t] → d.Fits t → e.Fits t →
    n.Allows loose ts d e → e = d

/-- What such a graph evaluates to is determined. -/
theorem Definite.determines (hg : Definite g loose root) {args : List (ValueType × Datum)}
    {bits : BitString} (hbits : g.evaluate args = .ok bits) :
    g.Determines loose (buffers args) root bits := by
  obtain ⟨V, n, hV, hn, hop, hobserves⟩ := hg.evaluate_eq_ok hbits
  intro val hval
  have hclosed (id : Nat) (n : Node) (v : Value) (hid : g.Reached .ok root id)
      (hn : g.nodes[id]? = some n) (hv : v ∈ n.operands) : g.Reached .ok root v.node :=
    .operand hid hn hv rfl
  have hagree (v : Value) (t : ValueType) (hv : g.Reached .ok root v.node)
      (ht : g.typeOf? v = some t) : V v.node = some (val v.node) := by
    induction hid : v.node using Nat.strong_induction_on generalizing v t with
    | _ id ih =>
    subst hid
    obtain ⟨m, ts, hm, hop, hreads, hres, _, _⟩ := hg.operand_typed ht
    have hdata : m.operands.map (V ·.node) = (m.operands.map (val ·.node)).map some := by
      rw [List.map_map]
      refine List.map_congr_left fun w hw => ?_
      obtain ⟨_, u, hu⟩ := hg.built.operand hm hw
      exact ih w.node (hg.built.operand hm hw).1 w u (hclosed _ m w hv hm hw) hu rfl
    obtain ⟨d, hd, hsome⟩ := hV.datum v.node m hv hm hop
    rw [equation_eq_meaning hres hreads hdata] at hd
    obtain ⟨d', hd', hfits⟩ := hg.fits_of_solves hV hclosed hv ht
    rw [hsome] at hd'
    cases hd'
    rw [hsome, hg.exact _ m ts t d _ hm hreads hres hfits (hval.fits v t hv ht)
      (hval.obeys _ m ts d hv hm hreads hd)]
  have hdata (id : Nat) (n : Node) (hid : g.Reached .ok root id) (hn : g.nodes[id]? = some n) :
      n.operands.map (V ·.node) = (n.operands.map (val ·.node)).map some := by
    rw [List.map_map]
    refine List.map_congr_left fun w hw => ?_
    obtain ⟨_, u, hu⟩ := hg.built.operand hn hw
    exact hagree w u (hclosed _ n w hid hn hw) hu
  refine ⟨fun id m ts hid hm hop hreads => ?_, ?_⟩
  · obtain ⟨d, hd, _⟩ := hV.datum id m hid hm hop
    obtain ⟨_, _, htyped, _⟩ := hg.nodes id m hm
    rcases htyped with ⟨hout, _⟩ | ⟨t, hres, _⟩
    · exact absurd hout hop
    · exact ⟨d, equation_eq_meaning hres hreads (hdata id m hid hm) ▸ hd⟩
  · obtain ⟨ts, hreads, _, _⟩ := hg.nodes root n hn
    refine ⟨n, ts, hn, hop, hreads, ?_⟩
    rw [observes_eq hreads (hdata root n .root hn) (Graph.forall₂_fits hreads fun v hv t ht =>
      hval.fits v t (hclosed _ n v .root hn hv) ht)] at hobserves
    exact Except.ok.inj hobserves

/-- Code as it is written: the root is an output that observes at most the whole of each value. Every
other node computes one value from earlier values of types that suit it, and has the attribute that
its operation asks for. Lanes are read and written at exactly the lane type, and no bits are left
open. -/
structure Source (g : Graph) (root : NodeId) : Prop extends Rooted g root where
  built : g.Built
  nodes : ∀ (id : Nat) n, g.nodes[id]? = some n → n.opcode ≠ .anyExtend ∧
    ∃ ts, n.operands.map g.typeOf? = ts.map some ∧ n.Typed (fun _ _ => False) ts ∧
      n.Attributed (fun offset _ => offset < 2 ^ 31) ts

/-- Such code in which the operations in `p` may take liberties with types. -/
structure Liberal (p : Opcode → Prop) (g : Graph) (root : NodeId) : Prop extends Rooted g root where
  built : g.Built
  nodes : ∀ (id : Nat) n, g.nodes[id]? = some n → n.opcode ≠ .anyExtend ∧
    ∃ ts, n.operands.map g.typeOf? = ts.map some ∧
      n.Conforms (fun op ts t => Signature (fun _ _ => False) op ts t ∨ p op ∧ Liberty op ts t) ts ∧
      n.Attributed (fun offset _ => offset < 2 ^ 31) ts

theorem Liberal.evaluable {p : Opcode → Prop} (hg : Liberal p g root) : g.Evaluable root where
  built := hg.built
  root_eq := hg.root_eq
  output := hg.output.imp fun _ ⟨hn, hop, _⟩ => ⟨hn, hop⟩
  nodes id n hn := by
    obtain ⟨_, ts, hreads, htyped, hattr⟩ := hg.nodes id n hn
    have hsensible : n.Conforms Sensible ts :=
      htyped.imp fun _ _ h => h.imp (·.mono fun _ _ _ => trivial) (.inl ·.2)
    refine ⟨ts, hreads, hsensible, ?_⟩
    by_cases hop : n.opcode = .argument
    · rcases htyped with ⟨hout, _⟩ | ⟨t, hres, _⟩
      · rw [hop] at hout
        cases hout
      · unfold Node.Attributed at hattr
        unfold Node.Equipped
        rw [hop, hres] at hattr
        rw [hop]
        exact hattr
    · exact hattr.equipped hsensible hop

theorem Source.liberal (hg : Source g root) : Liberal (fun _ => False) g root where
  toRooted := hg.toRooted
  built := hg.built
  nodes id n hn := by
    obtain ⟨hop, ts, hreads, htyped, hattr⟩ := hg.nodes id n hn
    exact ⟨hop, ts, hreads, Node.Conforms.imp htyped fun _ _ => .inl, hattr⟩

theorem Source.definite (hg : Source g root) : Definite g loose root where
  toEvaluable := hg.liberal.evaluable
  exact id n ts t d e hn hreads hres hd he hallows := by
    obtain ⟨hop, ts', hreads', htyped, _⟩ := hg.nodes id n hn
    cases List.eq_of_map_some (hreads.symm.trans hreads')
    exact hallows.eq (htyped.signature hres) hop hd he

end Legal

end Dataflow
