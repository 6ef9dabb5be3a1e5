import Dataflow.Proofs.Canonical
import Dataflow.Proofs.Flow

/-!
# What is asked of an edit

An edit is judged against the graph that it leaves: what is known of that graph can be read at any
time while the edit goes on. The judgement follows the edit step by step and says of every node
that is added that it is good. What is good, and which errors may end the edit, is left open.
-/

namespace Dataflow

theorem typeOf_of_typeOf? {g : Graph} {v : Value} {t : ValueType} (h : g.typeOf? v = some t) :
    g.typeOf v = .ok t := by
  rw [Graph.typeOf, h]

/-- A request is for the same node in a graph that has the types that it asks for. -/
theorem Instr.node_mono {f f' : Value → Except Fault ValueType}
    (hf : ∀ v t, f v = .ok t → f' v = .ok t) {i : Instr} {n : Node} (h : i.node f = .ok n) :
    i.node f' = .ok n := by
  have hbind (v : Value) (k : ValueType → Node) (h : (do return k (← f v)) = Except.ok n) :
      (do return k (← f' v)) = Except.ok n := by
    cases hv : f v with
    | error e => rw [hv] at h; cases h
    | ok t => rw [hv] at h; rw [hf v t hv]; exact h
  cases i with
  | binary op lhs rhs => exact hbind lhs _ h
  | unary op v => exact hbind v _ h
  | select cond a b => exact hbind a _ h
  | extract vector index => exact hbind vector (fun t => ⟨_, _, [t.scalar], _⟩) h
  | insert vector element index => exact hbind vector _ h
  | _ => exact h

namespace Legal

/-- A node that reads the canonical forms of its operands. -/
def Replacements.update (r : Replacements) (n : Node) : Node :=
  { n with operands := n.operands.map r.canon }

structure EditSpec where
  /-- The draft that the edit starts from. -/
  base : Draft
  /-- The graph that it leaves. -/
  final : Graph
  /-- The nodes that it may add, by number. -/
  Good : Nat → Node → Prop
  /-- The errors that may end it. -/
  Fails : Error → Prop
  descends : ∃ rank, base.replaced.Descends rank

namespace EditSpec

variable (C : EditSpec) {α β : Type}

/-- The nodes that were added to a graph are good. -/
def Fresh (g : Graph) : Prop :=
  ∀ (j : Nat) n, C.base.graph.size ≤ j → g.nodes[j]? = some n → C.Good j n

/-- An edit ends on the way to the graph that is left or, when it fails, with that graph. -/
def Leads : Edited α → Prop
  | .ok _ d => d.graph.Extends C.final
  | .error _ d => d.graph = C.final

/-- `x` adds good nodes; its result satisfies `Q`. -/
def Meets (x : Edit α) (Q : α → Prop) : Prop :=
  ∀ d, C.base.Grows d → C.Fresh d.graph → C.Leads (x.run d) →
    (x.run d).Holds (fun a d' => C.Fresh d'.graph ∧ Q a) (fun e _ => C.Fails e)

/-- Nothing is asked of new nodes and errors. -/
def lax : EditSpec :=
  { C with Good := fun _ _ => True, Fails := fun _ => True }

variable {C}

theorem Leads.extends {r : Edited α} (h : C.Leads r) : r.draft.graph.Extends C.final := by
  cases r with
  | ok a d => exact h
  | error e d => exact h ▸ .refl

namespace Meets

variable {x : Edit α} {f : α → Edit β} {P : α → Prop} {Q : β → Prop}

/-- An edit that is judged against the graph that it leaves. -/
theorem holds (hx : C.Meets x P) (hfinal : (x.run C.base).draft.graph = C.final) :
    (x.run C.base).Holds (fun a d' => C.Fresh d'.graph ∧ P a) (fun e _ => C.Fails e) := by
  refine hx C.base (.refl _) (fun j n hj hn => ?_) ?_
  · rw [Array.getElem?_eq_none hj] at hn
    cases hn
  · cases hr : x.run C.base with
    | ok a d =>
      rw [hr] at hfinal
      have hend : d.graph = C.final := hfinal
      show d.graph.Extends C.final
      rw [hend]
      exact .refl
    | error e d =>
      rw [hr] at hfinal
      exact hfinal

theorem bind (hx : C.Meets x P) (hf : ∀ a, P a → C.Meets (f a) Q) : C.Meets (x >>= f) Q := by
  intro d hd hfresh hleads
  have h := hx d hd hfresh
  have hg := x.grows d
  rw [Edit.run_bind] at hleads ⊢
  cases hr : x.run d with
  | ok a d' =>
    rw [hr] at h hg hleads
    obtain ⟨hfresh', hP⟩ := h (((f a).grows d').graph.trans hleads.extends)
    exact hf a hP d' (hd.trans hg) hfresh' hleads
  | error e d' =>
    rw [hr] at h hleads
    exact h hleads

theorem mono {P' : α → Prop} (hx : C.Meets x P) (h : ∀ a, P a → P' a) : C.Meets x P' := by
  intro d hd hfresh hleads
  have hx := hx d hd hfresh hleads
  cases hr : x.run d with
  | ok a d' => rw [hr] at hx; exact ⟨hx.1, h a hx.2⟩
  | error e d' => rw [hr] at hx; exact hx

/-- What is known of a result may be shown without regard to new nodes. -/
theorem and_lax {P' : α → Prop} (hx : C.Meets x P) (hy : C.lax.Meets x P') :
    C.Meets x fun a => P a ∧ P' a := by
  intro d hd hfresh hleads
  have hx := hx d hd hfresh hleads
  have hy := hy d hd (fun _ _ _ _ => trivial) hleads
  cases hr : x.run d with
  | ok a d' =>
    rw [hr] at hx hy
    exact ⟨hx.1, hx.2, hy.2⟩
  | error e d' =>
    rw [hr] at hx
    exact hx

theorem pure {a : α} (h : P a) : C.Meets (Pure.pure a : Edit α) P :=
  fun _ _ hfresh _ => ⟨hfresh, h⟩

theorem throw {e : Error} (he : C.Fails e) : C.Meets (MonadExcept.throw e : Edit α) P :=
  fun _ _ _ _ => he

/-- What is known of the graph that is left can be read while the edit goes on. -/
theorem read (y : Graph → Except Fault α) {a : α} (ha : y C.final = .ok a)
    (hy : ∀ g b, g.Extends C.final → y g = .ok b → b = a) :
    C.Meets (Edit.draft >>= fun d => (liftM (y d.graph) : Edit α)) (· = a) := by
  intro d hd hfresh hleads
  have hrun : (Edit.draft >>= fun d => (liftM (y d.graph) : Edit α)).run d =
      (liftM (y d.graph) : Edit α).run d := rfl
  rw [hrun] at hleads ⊢
  cases hr : y d.graph with
  | ok b =>
    rw [hr] at hleads
    exact ⟨hfresh, hy d.graph b hleads hr⟩
  | error f =>
    rw [hr] at hleads
    rw [show d.graph = C.final from hleads, ha] at hr
    cases hr

theorem node {id : Nat} {n : Node} (hn : C.final.nodes[id]? = some n) :
    C.Meets (Edit.node id) (· = n) :=
  read (Graph.node · id) (Graph.node_of_getElem? hn) fun g m hg hm => by
    have := hg.getElem? (Graph.node_eq_ok hm)
    rw [hn] at this
    exact (Option.some.inj this).symm

theorem typeOf {v : Value} {t : ValueType} (ht : C.final.typeOf? v = some t) :
    C.Meets (Edit.typeOf v) (· = t) :=
  read (Graph.typeOf · v) (typeOf_of_typeOf? ht) fun g u hg hu => by
    have := hg.typeOf? (Graph.typeOf_eq_ok hu)
    rw [ht] at this
    exact (Option.some.inj this).symm

theorem typeOf_bind {g : ValueType → Edit β} {v : Value} {t : ValueType}
    (ht : C.final.typeOf? v = some t) (hg : C.Meets (g t) Q) : C.Meets (Edit.typeOf v >>= g) Q := by
  refine .bind (typeOf ht) ?_
  rintro _ rfl
  exact hg

/-- A list of edits with results that are known beforehand. -/
theorem mapM {f : α → Edit β} {r : α → β} {as : List α}
    (hf : ∀ a ∈ as, C.Meets (f a) (· = r a)) : C.Meets (as.mapM f) (· = as.map r) := by
  induction as with
  | nil => exact .pure rfl
  | cons a as ih =>
    rw [List.mapM_cons]
    refine .bind (hf a List.mem_cons_self) ?_
    rintro _ rfl
    refine .bind (ih fun b hb => hf b (List.mem_cons_of_mem a hb)) ?_
    rintro _ rfl
    exact .pure rfl

/-! ### Canonical forms -/

/-- Canonical forms do not change. -/
theorem canonical (v : Value) : C.Meets (Edit.canonical v) (· = C.base.replaced.canon v) := by
  intro d hd hfresh _
  obtain ⟨rank, hdesc⟩ := C.descends
  have hshort := hd.replaced
  obtain ⟨r', hr, _⟩ := (hdesc.shortens hshort).resolve_eq v
  rw [hdesc.canon_shortens hshort] at hr
  unfold Edit.canonical
  simp only [hr]
  exact ⟨hfresh, rfl⟩

theorem canonicals (vs : List Value) :
    C.Meets (vs.mapM Edit.canonical) (· = vs.map C.base.replaced.canon) :=
  mapM fun v _ => canonical v

theorem operand {id i : Nat} {n : Node} {v : Value} (hn : C.final.nodes[id]? = some n)
    (hv : n.operands[i]? = some v) :
    C.Meets (Edit.operand id i) (· = C.base.replaced.canon v) := by
  have hat : C.final.operand id i = .ok v := by
    simp only [Graph.operand, Graph.node_of_getElem? hn, Bind.bind, Except.bind, hv]
  have hread : C.Meets (Edit.draft >>= fun d => (liftM (d.graph.operand id i) : Edit Value))
      (· = v) := by
    refine read (Graph.operand · id i) hat fun g w hg hw => ?_
    obtain ⟨m, hm, hi⟩ := Graph.operand_eq_ok hw
    have := hg.getElem? hm
    rw [hn] at this
    cases this
    rw [hv] at hi
    exact (Option.some.inj hi).symm
  have hassoc : Edit.operand id i =
      (Edit.draft >>= fun d => (liftM (d.graph.operand id i) : Edit Value)) >>=
        Edit.canonical := by
    rw [bind_assoc]
    rfl
  rw [hassoc]
  refine .bind hread ?_
  rintro _ rfl
  exact canonical _

end Meets

/-! ### Parts -/

/-- The parts of a value while the edit goes on are those at its start, moved on. -/
theorem get?_of_grows {d : Draft} (hd : C.base.Grows d) {v : Value} {c : Conversion}
    (hc : C.base.conversions.get? v = some c) :
    ∃ q, d.conversions.get? v = some ⟨c.kind, q⟩ ∧ c.parts.Rel C.base.replaced.Reaches q := by
  rcases hd.conversions v with ⟨hnone, _⟩ | ⟨kind, p, q, hp, hq, hpq⟩
  · rw [hc] at hnone
    cases hnone
  · rw [hc] at hp
    cases hp
    exact ⟨q, hq, hpq⟩

/-- The canonical form of a part that was moved on is that of the part. -/
theorem canon_of_grows {d : Draft} (hd : C.base.Grows d) {p q : Value}
    (hpq : C.base.replaced.Reaches p q) : d.replaced.canon q = C.base.replaced.canon p := by
  obtain ⟨rank, hdesc⟩ := C.descends
  rw [hdesc.canon_shortens hd.replaced, hdesc.canon_of_reaches hpq]

namespace Meets

theorem currentOne {v p : Value} {kind : ConversionKind}
    (hc : C.base.conversions.get? v = some ⟨kind, .one p⟩) :
    C.Meets (Edit.currentOne kind v) (· = C.base.replaced.canon p) := by
  intro d hd hfresh _
  obtain ⟨rank, hdesc⟩ := C.descends
  obtain ⟨q, hq, hrel⟩ := get?_of_grows hd hc
  cases q with
  | two lo hi => cases hrel
  | one stored =>
    have hone : d.conversions.one kind v = .ok stored := Conversions.one_eq_ok.2 hq
    obtain ⟨r', hr, _⟩ := (hdesc.shortens hd.replaced).resolve_eq stored
    rw [canon_of_grows hd hrel] at hr
    unfold Edit.currentOne
    simp only [hone, hr]
    split
    · exact ⟨hfresh, rfl⟩
    · exact ⟨hfresh, rfl⟩

theorem currentTwo {v lo hi : Value} {kind : ConversionKind}
    (hc : C.base.conversions.get? v = some ⟨kind, .two lo hi⟩) :
    C.Meets (Edit.currentTwo kind v)
      (· = (C.base.replaced.canon lo, C.base.replaced.canon hi)) := by
  intro d hd hfresh _
  obtain ⟨rank, hdesc⟩ := C.descends
  obtain ⟨q, hq, hrel⟩ := get?_of_grows hd hc
  cases q with
  | one stored => cases hrel
  | two storedLo storedHi =>
    have htwo : d.conversions.two kind v = .ok (storedLo, storedHi) := Conversions.two_eq_ok.2 hq
    have hdesc₁ := hdesc.shortens hd.replaced
    obtain ⟨r₁, hr₁, hshort⟩ := hdesc₁.resolve_eq storedLo
    obtain ⟨r₂, hr₂, _⟩ := (hdesc₁.shortens hshort).resolve_eq storedHi
    rw [hdesc₁.canon_shortens hshort, canon_of_grows hd hrel.2] at hr₂
    rw [canon_of_grows hd hrel.1] at hr₁
    unfold Edit.currentTwo
    simp only [htwo, hr₁, hr₂]
    split
    · exact ⟨hfresh, rfl⟩
    · exact ⟨hfresh, rfl⟩

/-! ### New nodes -/

/-- A node with operands that exist can be appended. -/
theorem append {n : Node} (hops : ∀ v ∈ n.operands, (C.final.typeOf? v).isSome)
    (hgood : ∀ id, C.base.graph.size ≤ id → C.final.nodes[id]? = some n → C.Good id n) :
    C.Meets (Edit.append n) fun id => C.base.graph.size ≤ id ∧ C.final.nodes[id]? = some n := by
  intro d hd hfresh hleads
  unfold Edit.append at hleads ⊢
  dsimp only at hleads ⊢
  split
  · next hadmits =>
    rw [if_pos hadmits] at hleads
    have hpush : (d.graph.push n).nodes[d.graph.size]? = some n := by
      rw [Graph.getElem?_push, if_pos rfl]
    have hat := hleads.getElem? hpush
    refine ⟨fun j m hj hm => ?_, hd.graph.size_le, hat⟩
    simp only [Graph.getElem?_push] at hm
    split at hm
    · next hj' =>
      cases hm
      exact hj' ▸ hgood _ hd.graph.size_le hat
    · exact hfresh j m hj hm
  · next hadmits =>
    -- the graph that is left has all the operands
    rw [if_neg hadmits] at hleads
    have hfinal : d.graph = C.final := hleads
    exact absurd (List.all_eq_true.2 fun v hv => hfinal ▸ hops v hv) hadmits

section
variable {n : Node}
  (hops : ∀ v ∈ n.operands, (C.final.typeOf? (C.base.replaced.canon v)).isSome)
  (hgood : ∀ id, C.base.graph.size ≤ id →
    C.final.nodes[id]? = some (C.base.replaced.update n) → C.Good id (C.base.replaced.update n))
include hops hgood

theorem add : C.Meets (Edit.add n) fun id => C.base.graph.size ≤ id ∧
    C.final.nodes[id]? = some (C.base.replaced.update n) := by
  refine .bind (canonicals _) ?_
  rintro _ rfl
  refine append (fun v hv => ?_) hgood
  obtain ⟨u, hu, rfl⟩ := List.mem_map.1 hv
  exact hops u hu

theorem build {i : Instr} (hi : i.node C.final.typeOf = .ok n) :
    C.Meets (Edit.build i) fun v => v.slot = 0 ∧ C.base.graph.size ≤ v.node ∧
      C.final.nodes[v.node]? = some (C.base.replaced.update n) := by
  have hread : C.Meets (Edit.draft >>= fun d => (liftM (i.node d.graph.typeOf) : Edit Node))
      (· = n) := by
    refine .read (fun g => i.node g.typeOf) hi fun g m hg hm => ?_
    have := Instr.node_mono (fun v t ht => typeOf_of_typeOf? (hg.typeOf? (Graph.typeOf_eq_ok ht))) hm
    rw [hi] at this
    exact (Except.ok.inj this).symm
  have hassoc : Edit.build i =
      (Edit.draft >>= fun d => (liftM (i.node d.graph.typeOf) : Edit Node)) >>=
        fun n => do return ⟨← Edit.add n, 0⟩ := by
    rw [bind_assoc]
    rfl
  rw [hassoc]
  refine .bind hread ?_
  rintro _ rfl
  exact .bind (add hops hgood) fun id hid => .pure ⟨rfl, hid⟩

end

end Meets

end EditSpec

end Legal

end Dataflow
