import Dataflow.Proofs.Conversions
import Dataflow.Proofs.Safety

/-!
# Models of drafts

A model gives every node of a draft a datum: the same along redirections, put together from its parts
where a value was converted, and one that the meaning of the node allows where it is still in place.
A visit adds nodes and takes the visited one out of place, but every model of the draft that it leaves
is a model of the draft that it finds.
-/

namespace Dataflow

theorem List.eq_of_map_some {α : Type} {xs ys : List α} (h : xs.map some = ys.map some) : xs = ys :=
  List.map_injective_iff.2 (Option.some_injective _) h

/-! ### Meanings -/

namespace Node

variable {wide : ValueType → ValueType → Prop} {loose : ValueType → Prop} {args : Array BitString}
  {n : Node} {ts : List ValueType} {t : ValueType} {data : List Datum} {d e : Datum}

/-- Operations that fix the low bits only are those with scalar results. -/
theorem isVector_of_loose (h : Sensible n.opcode ts t)
    (hop : n.opcode = .anyExtend ∨ n.opcode = .extractElement) : t.isVector = false := by
  rcases hop with hop | hop <;> rw [hop] at h <;> rcases h with hsig | hlib | hroomy
  · cases hsig with
    | anyExtend _ ht _ => exact ht.2
  · cases hlib with
    | anyExtend _ _ ht => exact ht.2
  · cases hroomy
  · cases hsig with
    | extractElement _ hc _ => exact hc.isVector
  · cases hlib with
    | lane _ _ ht => exact ht.2
  · cases hroomy with
    | extractElement _ ht => exact ht

theorem Typed.signature (h : n.Typed wide ts) (hres : n.results = [t]) :
    Signature wide n.opcode ts t :=
  Conforms.sig_of_results h hres

theorem allows_self (hsig : Sensible n.opcode ts t) (hd : d.Fits t) : n.Allows loose ts d d := by
  unfold Allows
  split
  · next hop =>
    obtain ⟨x, rfl, _⟩ := hd.eq_scalar (isVector_of_loose hsig hop)
    exact ⟨x, x, rfl, rfl, fun _ _ => ⟨rfl, fun _ => rfl⟩⟩
  · rfl

/-- Where lanes are read at their own type, only extensions leave bits open. -/
theorem Allows.eq (hsig : Signature (fun _ _ => False) n.opcode ts t) (hop : n.opcode ≠ .anyExtend)
    (hd : d.Fits t) (he : e.Fits t) (h : n.Allows loose ts d e) : e = d := by
  unfold Allows at h
  split at h
  · next hloose =>
    have hextract := hloose.resolve_left hop
    obtain ⟨x, y, rfl, rfl, hlow⟩ := h
    rw [hextract] at hsig
    cases hsig with
    | extractElement _ hc _ =>
      obtain rfl := hc.resolve_right fun hw => hw.1
      have hx := (Datum.fits_scalar.1 hd).2
      have hy := (Datum.fits_scalar.1 he).2
      have := (hlow _ rfl).1
      rw [ValueType.bits_eq_laneBits (ValueType.isVector_scalar _), ValueType.laneBits_scalar]
        at hx hy
      rw [Nat.mod_eq_of_lt hx, Nat.mod_eq_of_lt hy] at this
      rw [this]
  · exact h

/-- Attributes of nodes other than arguments are of the kind that the operation reads. -/
theorem Attributed.equipped {within : Nat → ValueType → Prop} (h : n.Attributed within ts)
    (htyped : n.Conforms Sensible ts) (hop : n.opcode ≠ .argument) : n.Equipped := by
  obtain ⟨op, ops, results, attr⟩ := n
  rcases htyped with ⟨hout, _⟩ | ⟨t, hres, hsig | hlib | hroomy⟩
  · dsimp only at hout
    subst hout
    trivial
  · dsimp only at hsig hres hop
    subst hres
    unfold Attributed at h
    unfold Equipped
    cases hsig with
    | argument => exact absurd rfl hop
    | constant | constantFp =>
      obtain ⟨bits, hattr, _⟩ := h
      exact ⟨bits, hattr⟩
    | vectorShuffle =>
      obtain ⟨lanes, hattr, hlen, _⟩ := h
      exact ⟨lanes, hattr, by simpa using hlen⟩
    | setcc => exact h
    | _ => trivial
  · dsimp only at hlib
    unfold Equipped
    cases hlib <;> trivial
  · dsimp only at hroomy
    unfold Equipped
    cases hroomy <;> trivial

theorem Indexes.equipped (h : n.Indexes) : n.Equipped := by
  unfold Equipped
  rcases h with h | h <;> rw [h] <;> trivial

/-- A datum that a node means is of the type of the result, whatever the type of a lane index. -/
theorem fits_of_meaning {within : Nat → ValueType → Prop}
    (hattr : ¬ n.Indexes → n.Attributed within ts)
    (hwithin : ∀ offset t, within offset t → offset + t.bits ≤ 2 ^ 32)
    (hsig : Sensible n.opcode ts t) (hres : n.results = [t])
    (hlen : n.operands.length = ts.length) (hdata : List.Forall₂ Datum.Fits data ts)
    (h : n.meaning args data ts = .ok e) : e.Fits t := by
  by_cases hop : n.opcode = .argument
  · obtain ⟨op, ops, results, attr⟩ := n
    dsimp only at hsig hres hop
    subst hres hop
    obtain rfl : ts = [] := List.length_eq_zero_iff.1 (hsig.length_eq rfl)
    cases hdata
    obtain ⟨index, offset, rfl, hoffset⟩ := hattr (by simp [Indexes])
    cases hs : args[index]? with
    | none =>
      simp only [meaning, Eval.compute, arg?, hs] at h
      cases h
    | some s =>
      rw [meaning_argument hs (hwithin offset t hoffset)] at h
      cases h
      exact Datum.fits_ofNumber t _
  · have hequipped : n.Equipped := by
      by_cases hi : n.Indexes
      · exact hi.equipped
      · exact (hattr hi).equipped (.inr ⟨t, hres, hsig⟩) hop
    rcases n.settles args hsig hres hequipped hlen hdata with
      ⟨_, d, hd, hfits⟩ | ⟨_, e', he, _⟩
    · rw [hd] at h
      cases h
      exact hfits
    · rw [he] at h
      cases h

end Node

namespace Graph

variable {g g' : Graph} {args : Array BitString} {val : Nat → Datum} {root : Nat}

/-- The nodes in `p` have a meaning at the data of their operands. -/
def Meaningful (g : Graph) (args : Array BitString) (p : Nat → Prop) (val : Nat → Datum) : Prop :=
  ∀ (j : Nat) n (ts : List ValueType), p j → g.nodes[j]? = some n → n.opcode ≠ .output →
    n.operands.map g.typeOf? = ts.map some →
    ∃ e, n.meaning args (n.operands.map (val ·.node)) ts = .ok e

/-- The root is an output that observes `bits`. -/
def Observes (g : Graph) (root : Nat) (val : Nat → Datum) (bits : BitString) : Prop :=
  ∃ n, ∃ ts : List ValueType, g.nodes[root]? = some n ∧ n.opcode = .output ∧
    n.operands.map g.typeOf? = ts.map some ∧
    n.observation (n.operands.map (val ·.node)) ts = bits

theorem Meaningful.extends (h : g.Meaningful args (fun _ => True) val) (hg : g.Extends g')
    (hreads : ∀ (j : Nat) n, g.nodes[j]? = some n →
      ∃ ts : List ValueType, n.operands.map g.typeOf? = ts.map some)
    (hnew : ∀ (j : Nat) n, g.size ≤ j → g'.nodes[j]? = some n → n.opcode ≠ .output →
      ∃ ts : List ValueType, n.operands.map g'.typeOf? = ts.map some ∧
        ∃ e, n.meaning args (n.operands.map (val ·.node)) ts = .ok e) :
    g'.Meaningful args (fun _ => True) val := by
  intro j n ts _ hn hop hts
  by_cases hj : g.size ≤ j
  · obtain ⟨us, hus, hmean⟩ := hnew j n hj hn hop
    rwa [List.eq_of_map_some (hts.symm.trans hus)]
  · rw [hg.getElem?_eq (Nat.lt_of_not_le hj)] at hn
    obtain ⟨us, hus⟩ := hreads j n hn
    rw [List.eq_of_map_some (hts.symm.trans (hg.reads hus))]
    exact h j n us trivial hn hop hus

theorem Observes.mono {bits : BitString} (h : g.Observes root val bits)
    (hg : ∀ (j : Nat) n, g.nodes[j]? = some n → g'.nodes[j]? = some n) :
    g'.Observes root val bits := by
  obtain ⟨n, ts, hn, hop, hreads, hbits⟩ := h
  refine ⟨n, ts, hg root n hn, hop, reads_mono (fun v t hv => ?_) hreads, hbits⟩
  obtain ⟨m, hm, hslot⟩ := Option.bind_eq_some_iff.1 hv
  rw [typeOf?, hg _ m hm]
  exact hslot

end Graph

namespace Legal

open Engine

variable {T : Target} {limit : Limit} {strict total : Prop} {g g' : Graph} {n : Node}
  {ts : List ValueType} {t : ValueType} {id : Nat} {args : Array BitString} {val : Nat → Datum}

namespace Draft

variable {d d' : Draft} {rank : Nat → Nat} {p : Nat → Prop}

/-- Data of the types of the draft that agree with its redirections, conversions and constants, and
that the meanings of the nodes in `p` allow where these are in place. -/
structure Models (d : Draft) (T : Target) (limit : Limit) (args : Array BitString) (p : Nat → Prop)
    (val : Nat → Datum) : Prop where
  fits : ∀ v t, d.graph.typeOf? v = some t → (val v.node).Fits t
  canon : ∀ v, val (d.replaced.canon v).node = val v.node
  entry : ∀ v c t, d.conversions.get? v = some c → d.graph.typeOf? v = some t →
    val v.node = c.parts.assemble T val t
  obeys : ∀ (j : Nat) n ts e, p j → d.graph.nodes[j]? = some n →
    d.replaced.next? ⟨j, 0⟩ = none → d.conversions.get? ⟨j, 0⟩ = none →
    n.operands.map d.graph.typeOf? = ts.map some →
    n.meaning args (n.operands.map (val ·.node)) ts = .ok e → n.Allows (T.Loose limit) ts e (val j)
  constants : ∀ v n t bits, d.graph.nodes[v.node]? = some n → n.opcode = .constant →
    n.attr = .imm bits → d.graph.typeOf? v = some t → t.isVector = false →
    val v.node = .scalar bits

theorem Typed.reads (h : d.Typed T limit strict total) (id : Nat) (n : Node)
    (hn : d.graph.nodes[id]? = some n) :
    ∃ ts : List ValueType, n.operands.map d.graph.typeOf? = ts.map some := by
  obtain ⟨ts, hts⟩ := h.nodes id n hn
  exact ⟨ts, hts.reads⟩

namespace Models

theorem reaches (h : d.Models T limit args p val) (hd : d.replaced.Descends rank) {v w : Value}
    (hr : d.replaced.Reaches v w) : val w.node = val v.node := by
  rw [← h.canon w, ← h.canon v, hd.canon_of_reaches hr]

/-- Nodes that are not asked to be obeyed may be changed. -/
theorem mono {q : Nat → Prop} (h : d.Models T limit args p val) (hq : ∀ j, q j → p j) :
    d.Models T limit args q val :=
  { h with obeys := fun j n ts e hj => h.obeys j n ts e (hq j hj) }

/-- One more node is obeyed. -/
theorem insert (h : d.Models T limit args (· ≠ id) val)
    (hid : ∀ n ts e, d.graph.nodes[id]? = some n → n.operands.map d.graph.typeOf? = ts.map some →
      n.meaning args (n.operands.map (val ·.node)) ts = .ok e →
        n.Allows (T.Loose limit) ts e (val id)) :
    d.Models T limit args (fun _ => True) val :=
  { h with
    obeys := fun j n ts e _ hn hnext hget hreads he => by
      by_cases hj : j = id
      · subst hj
        exact hid n ts e hn hreads he
      · exact h.obeys j n ts e hj hn hnext hget hreads he }

/-- Compressed redirections have the same models. -/
theorem of_shortens (h : d'.Models T limit args p val) (hd : d.replaced.Descends rank)
    (hnodes : d'.graph.nodes = d.graph.nodes) (hr : d.replaced.Shortens d'.replaced)
    (hc : d'.conversions = d.conversions) : d.Models T limit args p val := by
  have htype := Graph.typeOf?_congr hnodes
  obtain ⟨hfits, hcanon, hentry, hobeys, hconstants⟩ := h
  rw [htype] at hfits hentry hobeys hconstants
  rw [hnodes] at hobeys hconstants
  rw [hc] at hentry hobeys
  rw [hd.canon_shortens hr] at hcanon
  exact ⟨hfits, hcanon, hentry, fun j n ts e hj hn hnext =>
    hobeys j n ts e hj hn ((hr.next?_eq_none _).2 hnext), hconstants⟩

/-- A model of a draft that has grown is a model of the draft before it. -/
theorem of_grows (h : d'.Models T limit args p val) (hd : d.replaced.Descends rank)
    (hg : d.Grows d') : d.Models T limit args p val where
  fits v t hv := h.fits v t (hg.graph.typeOf? hv)
  canon v := by
    rw [← hd.canon_shortens hg.replaced]
    exact h.canon v
  entry v c t hc hv := by
    rcases hg.conversions v with ⟨hnone, _⟩ | ⟨kind, p, q, hp, hq, hpq⟩
    · rw [hc] at hnone
      cases hnone
    · rw [hc] at hp
      cases hp
      rw [h.entry v _ t hq (hg.graph.typeOf? hv)]
      refine Parts.assemble_rel hpq (fun v w hr => ?_) T t
      rw [← h.canon w, ← h.canon v, hd.canon_shortens hg.replaced, hd.canon_of_reaches hr]
  obeys j n ts e hj hn hnext hget hreads he :=
    h.obeys j n ts e hj (hg.graph.getElem? hn) ((hg.replaced.next?_eq_none _).2 hnext)
      (hg.get?_eq_none hget) (hg.graph.reads hreads) he
  constants v n t bits hn hop hattr hv := h.constants v n t bits (hg.graph.getElem? hn) hop hattr
    (hg.graph.typeOf? hv)

/-- The new nodes of a draft that has grown are in place. -/
theorem valued (h : d'.Models T limit args p val) (hd : d.replaced.Descends rank)
    (ht : d.Typed T limit strict total) (hg : d.Grows d')
    (hp : ∀ j : Nat, d.graph.size ≤ j → p j) : d.Valued T limit args d'.graph val where
  fits := h.fits
  next v w hw := (h.of_grows hd hg).reaches hd (.step hw (.refl w))
  entry v c u hc hv := by
    obtain ⟨t, htype, _⟩ := ht.converted v c hc
    cases hv.symm.trans (hg.graph.typeOf? htype)
    exact (h.of_grows hd hg).entry v c u hc htype
  obeys j n ts e hj hn hreads he := by
    have huntyped : d.graph.typeOf? ⟨j, 0⟩ = none := by
      rw [Graph.typeOf?, Array.getElem?_eq_none hj]
      rfl
    refine h.obeys j n ts e (hp j hj) hn ?_ ?_ hreads he
    · rw [hg.replaced.next?_eq_none]
      by_contra hne
      obtain ⟨t, htype, _⟩ := ht.redirected _ hne
      rw [huntyped] at htype
      cases htype
    · refine hg.get?_eq_none (Option.eq_none_iff_forall_ne_some.2 fun c hc => ?_)
      obtain ⟨t, htype, _⟩ := ht.converted _ c hc
      rw [huntyped] at htype
      cases htype
  constants := h.constants

end Models

end Draft

/-! ### Visits -/

/-- What a model of the draft of `s'` says of an earlier run `s`: it is a model of its draft too, and
meanings and the observation carry over. -/
structure Run.Inherits (s s' : Run) (T : Target) (limit : Limit) (args : Array BitString)
    (val : Nat → Datum) : Prop where
  models : s.draft.Models T limit args (fun _ => True) val
  meaningful : s.draft.graph.Meaningful args (fun _ => True) val →
    s'.draft.graph.Meaningful args (fun _ => True) val
  observes : ∀ bits, s.draft.graph.Observes s.root val bits → s'.draft.graph.Observes s'.root val bits

theorem Run.Inherits.trans {s s' s'' : Run} (h : s.Inherits s' T limit args val)
    (h' : s'.Inherits s'' T limit args val) : s.Inherits s'' T limit args val :=
  ⟨h.models, fun hm => h'.meaningful (h.meaningful hm), fun bits hb =>
    h'.observes bits (h.observes bits hb)⟩

/-- The nodes that a rule adds have meanings. -/
theorem RuleSpec.Fresh.meaningful {V : RuleSpec} (h : V.Fresh V.final) (hs : V.sem) (j : Nat)
    (m : Node)
    (hj : V.base.graph.size ≤ j) (hm : V.final.nodes[j]? = some m) (hop : m.opcode ≠ .output) :
    ∃ us : List ValueType, m.operands.map V.final.typeOf? = us.map some ∧
      ∃ e, m.meaning V.args (m.operands.map (V.val ·.node)) us = .ok e := by
  obtain ⟨us, hgood⟩ := h j m hj hm
  exact ⟨us, hgood.reads, hgood.meaningful hs hop⟩

namespace Engine

variable {s s' : Run} {d d' : Draft} {rank : Nat → Nat} {i : Nat}

/-- A model of the draft in which `w` has taken the place of a value is a model of the draft before,
the replaced node apart, and gives the value the datum of `w`. -/
theorem Replaced.models {w : Value} (hrep : Replaced ⟨id, 0⟩ w s s')
    (hplain : s.draft.replaced.canon ⟨id, 0⟩ = ⟨id, 0⟩)
    (hfree : s.draft.conversions.get? ⟨id, 0⟩ = none)
    (h : s'.draft.Models T limit args (fun _ => True) val) :
    s.draft.Models T limit args (· ≠ id) val ∧ val id = val w.node := by
  have hid := h.canon ⟨id, 0⟩
  rw [hrep.canon, hplain, if_pos rfl] at hid
  have hval : val id = val w.node := by
    have hw := h.canon w
    rw [hrep.canon, ite_self] at hw
    exact hid.symm.trans hw
  have htype := Graph.typeOf?_congr hrep.nodes
  obtain ⟨hfits, hcanon, hentry, hobeys, hconstants⟩ := h
  rw [htype] at hfits hentry hobeys hconstants
  rw [hrep.nodes] at hobeys hconstants
  refine ⟨⟨hfits, fun v => ?_, fun v c t hc hv => hentry v c t ?_ hv,
    fun j m us e hj hm hnext hnone => hobeys j m us e trivial hm ?_ ?_, hconstants⟩, hval⟩
  · have hv := hcanon v
    rw [hrep.canon] at hv
    split at hv
    · next heq => rw [heq, ← hv, hid]
    · exact hv
  · rwa [hrep.conversions, if_neg fun heq => by rw [heq, hfree] at hc; cases hc]
  · exact (hrep.next _).2 ⟨fun heq => hj (congrArg Value.node heq), hnext⟩
  · rwa [hrep.conversions, if_neg fun heq => hj (congrArg Value.node heq)]

section
variable (hvisits : s.draft.Visits T limit True total id n ts)
include hvisits

/-- A rule made `d'` from `d` for the visited node, and then the node was taken out of place: where
the node has a meaning, the nodes of the rule have meanings, and the node has a datum that its
meaning allows. -/
theorem inherits_of_rule (hq : s.draft.Quiet d) (hg : d.Grows d')
    (hbut : d'.Models T limit args (· ≠ id) val) (hnodes : s'.draft.graph.nodes = d'.graph.nodes)
    (hrule : ∀ e, (n.opcode ≠ .output → n.meaning args (n.operands.map (val ·.node)) ts = .ok e) →
      (∀ (j : Nat) m, d.graph.size ≤ j → d'.graph.nodes[j]? = some m → m.opcode ≠ .output →
        ∃ us : List ValueType, m.operands.map d'.graph.typeOf? = us.map some ∧
          ∃ e, m.meaning args (m.operands.map (val ·.node)) us = .ok e) ∧
      (n.opcode ≠ .output → n.Allows (T.Loose limit) ts e (val id)))
    (hobserves : ∀ bits, s.draft.graph.Observes s.root val bits →
      s'.draft.graph.Observes s'.root val bits) : s.Inherits s' T limit args val := by
  obtain ⟨rank, hd⟩ := hvisits.descends
  have hd₁ := hd.shortens hq.replaced
  have hvisits' := hvisits.quiet hq
  refine ⟨((hbut.of_grows hd₁ hg).insert fun m us e hm hreads he => ?_).of_shortens hd
    (by rw [hq.graph]) hq.replaced hq.conversions, fun hmean => ?_, hobserves⟩
  · cases hvisits'.node_at.symm.trans hm
    cases List.eq_of_map_some (hvisits'.suited.reads.symm.trans hreads)
    refine (hrule e fun _ => he).2 fun hop => ?_
    rw [Node.meaning, hvisits.suited.typed.sensible.results_of_output hop] at he
    cases he
  · have hmean' : d'.graph.Meaningful args (fun _ => True) val := by
      obtain ⟨e, he⟩ : ∃ e, n.opcode ≠ .output →
          n.meaning args (n.operands.map (val ·.node)) ts = .ok e := by
        by_cases hop : n.opcode = .output
        · exact ⟨.scalar 0, fun hne => absurd hop hne⟩
        · obtain ⟨e, he⟩ := hmean id n ts trivial hvisits.node_at hop hvisits.suited.reads
          exact ⟨e, fun _ => he⟩
      rw [← hq.graph] at hmean
      exact hmean.extends hg.graph hvisits'.typed.reads (hrule e he).1
    intro j m us _ hm
    rw [hnodes] at hm
    rw [Graph.typeOf?_congr hnodes]
    exact hmean' j m us trivial hm

theorem Converted.inherits (hfree : s.draft.conversions.get? ⟨id, 0⟩ = none)
    (hres : n.results = [t]) (hillegal : T.classify t ≠ .legal)
    (hc : Converted T id n.opcode 0 t s s') (h : s'.draft.Models T limit args (fun _ => True) val) :
    s.Inherits s' T limit args val := by
  obtain ⟨rank, hd⟩ := hvisits.descends
  obtain ⟨d, d', kind, parts, hq, hg, hrule, hgraph, hshort, hkind, hroot, hget⟩ := hc.drafts hres
  have hvisits' := hvisits.quiet hq
  have hd₁ := hd.shortens hq.replaced
  have hd₂ := hd₁.shortens hg.replaced
  have hfree' := hg.get?_eq_none (by rw [hq.conversions]; exact hfree)
  have hbut : d'.Models T limit args (· ≠ id) val := by
    obtain ⟨hfits, hcanon, hentry, hobeys, hconstants⟩ := h
    rw [hgraph] at hfits hentry hobeys hconstants
    rw [hd₂.canon_shortens hshort] at hcanon
    refine ⟨hfits, hcanon, fun v c t hc hv => hentry v c t ?_ hv, fun j m us e hj hm hnext hnone =>
      hobeys j m us e trivial hm ((hshort.next?_eq_none _).2 hnext) ?_, hconstants⟩
    · rwa [hget, if_neg fun heq => by rw [heq, hfree'] at hc; cases hc]
    · rwa [hget, if_neg fun heq => hj (congrArg Value.node heq)]
  have hval : val id = parts.assemble T val t := by
    have hid : d'.graph.typeOf? ⟨id, 0⟩ = some t := by
      simp [Graph.typeOf?, hg.graph.getElem? hvisits'.node_at, hres]
    rw [h.entry ⟨id, 0⟩ _ t (by rw [hget, if_pos rfl]) (by rw [hgraph]; exact hid)]
    refine Parts.assemble_rel (parts.rel_map _) ?_ T t
    rintro v _ rfl
    exact hbut.canon v
  have hvalued := hbut.valued hd₁ hvisits'.typed hg fun j hj => Nat.ne_of_gt
    (Nat.lt_of_lt_of_le (Graph.lt_size_of_getElem? hvisits'.node_at) hj)
  refine inherits_of_rule hvisits hq hg hbut (by rw [hgraph]) (fun e he => ?_) fun bits hbits => ?_
  · obtain ⟨hfresh, hrepresents⟩ := hrule
      (hvisits'.rewriteSpec hg.graph ⟨t, by simp [hres], hillegal⟩ (fun _ => trivial) False True
        args val (fun _ => ⟨trivial, hvalued⟩) False.elim e fun _ => he)
      ⟨rfl, rfl, rfl, rfl, rfl, trivial⟩
    exact ⟨RuleSpec.Fresh.meaningful hfresh trivial, fun _ => hval ▸ hrepresents.datum trivial⟩
  · rw [hroot, hgraph]
    exact hbits.mono fun j m hm => hg.graph.getElem? (hq.graph ▸ hm)

theorem Revised.inherits (hplain : s.draft.replaced.next? ⟨id, 0⟩ = none)
    (hfree : s.draft.conversions.get? ⟨id, 0⟩ = none)
    (hlegal : ∀ t ∈ n.results, T.classify t = .legal) (hr : Revised T id n i s s')
    (h : s'.draft.Models T limit args (fun _ => True) val) : s.Inherits s' T limit args val := by
  obtain ⟨rank, hd⟩ := hvisits.descends
  obtain ⟨d, d', v, u, successor, hq, hg, hv, hu, hillegal, hrule, s₁, rfl, hroot, hgave⟩ :=
    hr.drafts hlegal
  obtain ⟨_, hi, hu'⟩ := hvisits.type_at hv
  cases hu.symm.trans hu'
  have hvisits' := hvisits.quiet hq
  have hd₁ := hd.shortens hq.replaced
  have hd₂ := hd₁.shortens hg.replaced
  have hex : ∃ t ∈ n.results ++ ts, T.classify t ≠ .legal :=
    ⟨u, List.mem_append_right _ (List.mem_of_getElem? hi), hillegal⟩
  have hnew (j : Nat) (hj : d.graph.size ≤ j) : j ≠ id := Nat.ne_of_gt
    (Nat.lt_of_lt_of_le (Graph.lt_size_of_getElem? hvisits'.node_at) hj)
  obtain ⟨_, ⟨hres, new, _, _, rfl, _⟩ | ⟨t, hres, w, rfl, _⟩⟩ := hrule _
    (RewriteSpec.describes_typedSpec hvisits' hg.graph hex (fun _ => trivial) False False.elim) hi
  · have hres : n.results = [] := hres
    have hquiet := hgave.empty hres
    have hbut : s₁.draft.Models T limit args (· ≠ id) val :=
      (h.of_shortens hd₂ (by rw [hquiet.graph]) hquiet.replaced hquiet.conversions).mono
        fun _ _ => trivial
    have hstage (e : Datum) (he : n.opcode ≠ .output →
        n.meaning args (n.operands.map (val ·.node)) ts = .ok e) :=
      hrule (hvisits'.rewriteSpec hg.graph hex (fun _ => trivial) False True args val
        (fun _ => ⟨trivial, hbut.valued hd₁ hvisits'.typed hg hnew⟩) False.elim e fun _ => he)
        ⟨rfl, rfl, rfl, rfl, rfl, trivial⟩ hi
    have hop : n.opcode = .output := by
      rcases hvisits.suited.typed with ⟨hop, _⟩ | ⟨t, hres', _⟩
      · exact hop
      · rw [hres] at hres'
        cases hres'
    refine inherits_of_rule hvisits hq hg hbut hgave.nodes (fun e he => ?_) fun bits hbits => ?_
    · exact ⟨RuleSpec.Fresh.meaningful (hstage e he).1 trivial, fun hne => absurd hop hne⟩
    · rw [hgave.root, hroot]
      have hkeep (j : Nat) (m : Node) (hm : s₁.draft.graph.nodes[j]? = some m) :
          s'.draft.graph.nodes[j]? = some m := hgave.nodes ▸ hm
      split
      · next hid =>
        obtain ⟨_, ⟨_, new', m, us, hnew', hm, hop', hus, hobserves⟩ | ⟨t, hres', _⟩⟩ :=
          hstage (.scalar 0) fun hne => absurd hop hne
        · cases hnew'
          obtain ⟨n', ts', hn', _, hreads', rfl⟩ := hbits
          rw [hid, hvisits.node_at] at hn'
          cases hn'
          cases List.eq_of_map_some (hvisits.suited.reads.symm.trans hreads')
          exact Graph.Observes.mono ⟨m, us, hm, hop', hus, hobserves trivial⟩ hkeep
        · have hres' : n.results = [t] := hres'
          rw [hres] at hres'
          cases hres'
      · exact hbits.mono fun j m hm => hkeep j m (hg.graph.getElem? (hq.graph ▸ hm))
  · have hres : n.results = [t] := hres
    obtain ⟨_, hrep⟩ := hgave
    have hplain' : s₁.draft.replaced.next? ⟨id, 0⟩ = none := by
      rw [hg.replaced.next?_eq_none, hq.replaced.next?_eq_none]
      exact hplain
    have hfree' := hg.get?_eq_none (by rw [hq.conversions]; exact hfree)
    obtain ⟨hbut, hval⟩ := hrep.models (hd₂.canon_self hplain') hfree' h
    refine inherits_of_rule hvisits hq hg hbut hrep.nodes (fun e he => ?_) fun bits hbits => ?_
    · obtain ⟨hfresh, ⟨hres', _⟩ | ⟨t', _, w', hw', hstands⟩⟩ := hrule
        (hvisits'.rewriteSpec hg.graph hex (fun _ => trivial) False True args val (fun _ =>
          ⟨trivial, hbut.valued hd₁ hvisits'.typed hg hnew⟩) False.elim e fun _ => he)
        ⟨rfl, rfl, rfl, rfl, rfl, trivial⟩ hi
      · have hres' : n.results = [] := hres'
        rw [hres] at hres'
        cases hres'
      · cases hw'
        exact ⟨RuleSpec.Fresh.meaningful hfresh trivial, fun _ => hval ▸ hstands.datum trivial⟩
    · rw [hrep.root, hroot]
      exact hbits.mono fun j m hm => hrep.nodes ▸ hg.graph.getElem? (hq.graph ▸ hm)

/-- A model of the draft after a visit is a model of the draft before it. -/
theorem Visited.inherits (hplain : s.draft.replaced.next? ⟨id, 0⟩ = none)
    (hfree : s.draft.conversions.get? ⟨id, 0⟩ = none) (hv : Visited T id n s s')
    (h : s'.draft.Models T limit args (fun _ => True) val) : s.Inherits s' T limit args val := by
  cases hv with
  | converted t hres hillegal hc => exact hc.inherits hvisits hfree hres hillegal h
  | kept _ hq _ =>
    obtain ⟨rank, hd⟩ := hvisits.descends
    refine ⟨h.of_shortens hd (by rw [hq.graph]) hq.replaced hq.conversions, ?_, ?_⟩
    · rw [hq.graph]
      exact fun h => h
    · rw [hq.graph, hq.root]
      exact fun _ h => h
  | revised i hlegal hr => exact hr.inherits hvisits hplain hfree hlegal h

end

/-! ### Runs -/

variable {config : Config} {root : NodeId} {ids : List NodeId}

theorem Stepped.inherits (h : s.Typed T limit True total) (hT : T.Regular) (hs : s.Sound none rank)
    {rest : List Nat} (hw : s.worklist = id :: rest) (hn : s.draft.graph.nodes[id]? = some n)
    (hstep : Stepped T id n s s') (hm : s'.draft.Models T limit args (fun _ => True) val) :
    s.Inherits s' T limit args val := by
  obtain ⟨ts, hvisits⟩ := h.visits_head hT hs hw hn
  have hpop := sound_pop hs hw
  have hplain := plain_head hs hw
  have hfree : s.draft.conversions.get? ⟨id, 0⟩ = none := by
    refine Option.eq_none_iff_forall_ne_some.2 fun c hc => ?_
    have := (hs.converted _ c hc).resolve_right (by simp)
    rw [hs.ready_head hw] at this
    cases this
  obtain ⟨worklist, visited, s₁, rank₁, hvisited, h₁, hk⟩ := hstep
  have hgraph : s'.draft.graph = s₁.draft.graph := hk.graph
  have hroot : s'.root = s₁.root := hk.root
  have hinherits := Visited.inherits (s := { s with worklist, visited }) hvisits (hplain 0) hfree
    hvisited (hm.of_shortens h₁.ordered.descends (by rw [hgraph]) hk.replaced hk.conversions)
  obtain ⟨hmodels, hmeaningful, hobserves⟩ := hinherits
  rw [← hgraph] at hmeaningful hobserves
  rw [← hroot] at hobserves
  exact ⟨hmodels, hmeaningful, hobserves⟩

/-- A model of a draft of a run is a model of its first draft. -/
theorem Head.inherits (hT : T.Regular) (htotal : total → True) (hg : Rooted g root)
    (hnodes : ∀ (id : Nat) n, g.nodes[id]? = some n → ∃ ts, Suited T limit True total g n ts)
    (hs : Head T config g ids s) (args : Array BitString) : ∃ s₀ s₁, Run.start g = .ok s₀ ∧
      prepare config s₀ = .ok () s₁ ∧
        ∀ val, s.draft.Models T limit args (fun _ => True) val → s₁.Inherits s T limit args val := by
  induction hs with
  | @seeded s₀ s₁ hs hp =>
    exact ⟨s₀, s₁, hs, hp, fun val hm => ⟨hm, fun h => h, fun _ h => h⟩⟩
  | @visited ids rest id s s' hhead hw hstep ih =>
    obtain ⟨s₀, s₁, hstart, hprepare, hinherits⟩ := ih
    obtain ⟨n, rank, hn, hsound, hends⟩ := hhead.next hg hw
    have hstepped := (hends (E := fun _ => True) fun _ _ => trivial).of_ok hstep
    refine ⟨s₀, s₁, hstart, hprepare, fun val hm => ?_⟩
    have hlast := hstepped.inherits (hhead.typed hT htotal hg hnodes) hT hsound hw hn hm
    exact (hinherits val hlast.models).trans hlast

end Engine

end Legal

end Dataflow
