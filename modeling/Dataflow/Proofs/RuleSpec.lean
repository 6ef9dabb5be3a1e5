import Dataflow.Proofs.Burden
import Dataflow.Proofs.EditSpec
import Dataflow.Proofs.Liberties
import Dataflow.Proofs.Meaning
import Dataflow.Proofs.Visit

/-!
# What is asked of a rule

A rule adds nodes to a graph. What is asked of it is stated about the graph that it leaves, so that
the type of every value is settled from the start.

How much is asked differs. Types are always right. Where `strict`, attributes suit the operations.
Where `measured`, new nodes stay below a ceiling. Where `total`, they are scalar integer code. With
`sem` there is a datum for every node that is known, one that new nodes agree with: one that their
meaning allows and, where the data are `exact`, the one that they mean. Where data are `numbered`,
constants have their bits as data and lanes are read by indices that can name all of them.
-/

namespace Dataflow

namespace Target

/-- A constant index of type `i` names a lane of type `u` that ends within a word of 128 bits. Only
wider indices than registers may be out of it. -/
def Names (T : Target) (g : Graph) (u i : ValueType) (index : Value) : Prop :=
  ∀ n k, i = .i128 → T.classify i ≠ .legal → g.nodes[index.node]? = some n → n.opcode = .constant →
    n.attr = .imm k → (k + 1) * u.laneBits ≤ 2 ^ 128

theorem names_of_legal {T : Target} {g : Graph} {u i : ValueType} {index : Value}
    (h : T.classify i = .legal) : T.Names g u i index :=
  fun _ _ _ hi => absurd h hi

theorem Names.of_laneBits_eq {T : Target} {g : Graph} {u u' i : ValueType} {index : Value}
    (h : T.Names g u i index) (hu : u'.laneBits = u.laneBits) : T.Names g u' i index :=
  fun n k hi hillegal hn hop hattr => hu ▸ h n k hi hillegal hn hop hattr

theorem names_of_opcode {T : Target} {g : Graph} {u i : ValueType} {index : Value} {n : Node}
    (hn : g.nodes[index.node]? = some n) (hop : n.opcode ≠ .constant) : T.Names g u i index := by
  intro m k _ _ hm hconstant
  cases hn.symm.trans hm
  exact absurd hconstant hop

theorem names_of_attr {T : Target} {g : Graph} {u i : ValueType} {index : Value} {n : Node} {k : Nat}
    (hn : g.nodes[index.node]? = some n) (hattr : n.attr = .imm k)
    (hk : i = .i128 → T.classify i ≠ .legal → (k + 1) * u.laneBits ≤ 2 ^ 128) :
    T.Names g u i index := by
  intro m k' hi hillegal hm _ hattr'
  cases hn.symm.trans hm
  cases hattr.symm.trans hattr'
  exact hk hi hillegal

/-- The numbers of a node are moderate: an argument that is to be converted ends at a position of 32
bits, the bits of a constant are in range, and the index of a lane that is read names one. -/
structure Moderate (T : Target) (g : Graph) (ts : List ValueType) (n : Node) : Prop where
  argument : ∀ t index offset, n.opcode = .argument → n.results = [t] →
    n.attr = .arg index offset → T.classify t ≠ .legal → offset + t.bits ≤ 2 ^ 32
  constant : ∀ t k, n.opcode = .constant → n.results = [t] → n.attr = .imm k → k < 2 ^ t.laneBits
  index : ∀ vector index u i, n.opcode = .extractElement → n.operands = [vector, index] →
    ts = [u, i] → T.Names g u i index

theorem Moderate.congr {T : Target} {g g' : Graph} {ts : List ValueType} {n : Node}
    (h : T.Moderate g ts n) (hnodes : ∀ v ∈ n.operands, ∀ m, g'.nodes[v.node]? = some m →
      g.nodes[v.node]? = some m) : T.Moderate g' ts n where
  argument := h.argument
  constant := h.constant
  index vector index u i hop hoperands hts m k hi hillegal hm :=
    h.index vector index u i hop hoperands hts m k hi hillegal
      (hnodes index (by simp [hoperands]) m hm)

theorem moderate_of_ne {T : Target} {g : Graph} {ts : List ValueType} {n : Node}
    (h : ¬(n.opcode = .extractElement ∨ n.opcode = .argument ∨ n.opcode = .constant)) :
    T.Moderate g ts n where
  argument _ _ _ hop := absurd (.inr (.inl hop)) h
  constant _ _ hop := absurd (.inr (.inr hop)) h
  index _ _ _ _ hop := absurd (.inl hop) h

end Target

namespace Node

/-- Nodes that take the index of a lane. -/
def Indexes (n : Node) : Prop :=
  n.opcode = .extractElement ∨ n.opcode = .insertElement

end Node

namespace Legal

structure RuleSpec where
  T : Target
  limit : Limit
  /-- The draft that the rule starts from. -/
  base : Draft
  /-- The graph that it leaves. -/
  final : Graph
  strict : Prop
  sem : Prop
  numbered : Prop
  exact : Prop
  measured : Prop
  total : Prop
  args : Array BitString
  val : Nat → Datum
  /-- The nodes that have data. -/
  Known : Nat → Prop
  /-- How the rule may fail. -/
  Fails : Error → Prop
  /-- The burden that new nodes stay below. -/
  ceiling : Nat ×ₗ Nat
  /-- Whether outputs may be among the new nodes. -/
  outputs : Prop
  regular : T.Regular
  grown : base.graph.Extends final
  descends : ∃ rank, base.replaced.Descends rank
  stands : ∀ v w, base.replaced.next? v = some w → v.node < base.graph.size
  strict_of_sem : sem → strict
  strict_of_total : total → strict
  ceiling_pos : measured → 0 < (ofLex ceiling).1
  obeys : sem → ∀ (j : Nat) n ts t d, base.graph.size ≤ j → final.nodes[j]? = some n →
    n.results = [t] → T.Signs limit n.opcode ts t →
    ((n.Indexes → numbered) → n.Attributed (T.Within limit) ts) →
    n.operands.map final.typeOf? = ts.map some → (∀ v ∈ n.operands, Known v.node) →
    List.Forall₂ Datum.Fits (n.operands.map (val ·.node)) ts →
    n.meaning args (n.operands.map (val ·.node)) ts = .ok d →
    Known j ∧ (val j).Fits t ∧ n.Allows (T.Loose limit) ts d (val j) ∧ (exact → val j = d)

namespace RuleSpec

variable (V : RuleSpec) {α β : Type}

/-- Value `v` is canonical and has type `t` and, where data are fixed, datum `d`. -/
structure Is (v : Value) (t : ValueType) (d : Datum) : Prop where
  type : V.final.typeOf? v = some t
  val : V.sem → V.val v.node = d
  fits : V.sem → d.Fits t
  canonical : V.base.replaced.canon v = v
  known : V.sem → V.Known v.node

/-- The values that a node reads, and their types. -/
def Reads (vs : List Value) (ts : List ValueType) : Prop :=
  List.Forall₂ (fun v t => V.Is v t (V.val v.node)) vs ts

/-- The rule may add such an operation. The types are those of the operands, after that of the
result. -/
structure Admits (op : Opcode) (ts : List ValueType) : Prop where
  lighter : V.measured → V.T.burden op ts < V.ceiling
  plain : V.total → V.T.Plain op ts

/-- The attributes of a node suit it. Where data are not numbered, any index will do. -/
def Attributed (n : Node) (ts : List ValueType) : Prop :=
  (n.Indexes → V.numbered) → n.Attributed (V.T.Within V.limit) ts

/-- A node that the rule may add, with operands of types `ts`. -/
structure Good (n : Node) (ts : List ValueType) : Prop where
  operands : V.Reads n.operands ts
  typed : n.Conforms (V.T.Signs V.limit) ts
  admitted : V.Admits n.opcode (n.results ++ ts)
  attributed : V.strict → V.Attributed n ts
  moderate : V.limit.moderate → V.T.Moderate V.final ts n
  observed : n.opcode = .output → V.outputs
  meaningful : V.sem → n.opcode ≠ .output →
    ∃ d, n.meaning V.args (n.operands.map (V.val ·.node)) ts = .ok d

/-- What is asked of the edit that the rule is. -/
def editSpec : EditSpec where
  base := V.base
  final := V.final
  Good _ n := ∃ ts, V.Good n ts
  Fails := V.Fails
  descends := V.descends

/-- The nodes that the rule has added to a graph are good. -/
def Fresh (g : Graph) : Prop :=
  V.editSpec.Fresh g

/-- As a part of the rule, `x` adds good nodes; its result satisfies `Q`. -/
def Meets (x : Edit α) (Q : α → Prop) : Prop :=
  V.editSpec.Meets x Q

variable {V}

namespace Meets

variable {x : Edit α} {f : α → Edit β} {P : α → Prop} {Q : β → Prop}

theorem bind (hx : V.Meets x P) (hf : ∀ a, P a → V.Meets (f a) Q) : V.Meets (x >>= f) Q :=
  EditSpec.Meets.bind hx hf

theorem mono {P' : α → Prop} (hx : V.Meets x P) (h : ∀ a, P a → P' a) : V.Meets x P' :=
  EditSpec.Meets.mono hx h

theorem pure {a : α} (h : P a) : V.Meets (Pure.pure a : Edit α) P :=
  EditSpec.Meets.pure h

theorem map {g : α → β} (hx : V.Meets x P) (h : ∀ a, P a → Q (g a)) : V.Meets (g <$> x) Q :=
  .bind hx fun a ha => .pure (h a ha)

theorem node {id : Nat} {n : Node} (hn : V.final.nodes[id]? = some n) :
    V.Meets (Edit.node id) (· = n) :=
  EditSpec.Meets.node hn

theorem typeOf {v : Value} {t : ValueType} (ht : V.final.typeOf? v = some t) :
    V.Meets (Edit.typeOf v) (· = t) :=
  EditSpec.Meets.typeOf ht

/-- Only the canonical form of a value is returned, and it is the one at the start of the rule. -/
theorem canonical (v : Value) : V.Meets (Edit.canonical v) (· = V.base.replaced.canon v) :=
  EditSpec.Meets.canonical v

end Meets

/-! ### Values -/

section
variable {a : Value} {t : ValueType} {x : Nat} {d e : Datum}

theorem Is.lt (h : V.Is a t (.scalar x)) (hs : V.sem) : x < 2 ^ t.bits :=
  (Datum.fits_scalar.1 (h.fits hs)).2

theorem Is.congr (h : V.Is a t d) (he : V.sem → d = e) : V.Is a t e :=
  { h with val := fun hs => (h.val hs).trans (he hs), fits := fun hs => he hs ▸ h.fits hs }

/-- A value has its own datum. -/
theorem Is.self (h : V.Is a t d) : V.Is a t (V.val a.node) :=
  h.congr fun hs => (h.val hs).symm

/-- A value of a scalar type has a scalar datum. -/
theorem Is.scalar (h : V.Is a t d) (ht : t.isVector = false) :
    ∃ x, V.Is a t (.scalar x) ∧ (V.sem → d = .scalar x) := by
  have hd (hs : V.sem) : d = .scalar (d.number t) := by
    obtain ⟨x, rfl, _⟩ := (h.fits hs).eq_scalar ht
    rw [Datum.number_scalar]
  exact ⟨d.number t, h.congr hd, hd⟩

/-- A value of a vector type has a lane for each lane of the type. -/
theorem Is.vector (h : V.Is a t d) (ht : t.isVector = true) :
    ∃ l, V.Is a t (.vector l) ∧ (V.sem → d = .vector l) := by
  have hd (hs : V.sem) : d = .vector d.lanes := by
    obtain ⟨l, rfl, _⟩ := (h.fits hs).eq_vector ht
    rfl
  exact ⟨d.lanes, h.congr hd, hd⟩

theorem canon_canon (V : RuleSpec) (v : Value) :
    V.base.replaced.canon (V.base.replaced.canon v) = V.base.replaced.canon v := by
  obtain ⟨rank, hdesc⟩ := V.descends
  exact hdesc.canon_canon v

/-- New values are canonical. -/
theorem canon_new (V : RuleSpec) {v : Value} (hv : V.base.graph.size ≤ v.node) :
    V.base.replaced.canon v = v := by
  obtain ⟨rank, hdesc⟩ := V.descends
  refine hdesc.canon_self ?_
  cases hnext : V.base.replaced.next? v with
  | none => rfl
  | some w => exact absurd (V.stands v w hnext) (Nat.not_lt_of_le hv)

end

/-! ### New nodes -/

namespace Reads

variable {vs : List Value} {ts : List ValueType}

theorem types (h : V.Reads vs ts) : vs.map V.final.typeOf? = ts.map some := by
  induction h with
  | nil => rfl
  | cons hv _ ih => rw [List.map_cons, List.map_cons, hv.type, ih]

theorem fits (h : V.Reads vs ts) (hs : V.sem) :
    List.Forall₂ Datum.Fits (vs.map (V.val ·.node)) ts := by
  rw [List.forall₂_map_left_iff]
  exact h.imp fun _ _ hv => hv.fits hs

theorem of_mem (h : V.Reads vs ts) {v : Value} (hv : v ∈ vs) :
    ∃ t, V.Is v t (V.val v.node) := by
  induction h with
  | nil => cases hv
  | cons hw _ ih =>
    rcases List.mem_cons.1 hv with rfl | hv
    · exact ⟨_, hw⟩
    · exact ih hv

theorem isSome (h : V.Reads vs ts) {v : Value} (hv : v ∈ vs) :
    (V.final.typeOf? (V.base.replaced.canon v)).isSome := by
  obtain ⟨t, ht⟩ := h.of_mem hv
  rw [ht.canonical, ht.type]
  rfl

/-- Operands that are canonical are read as they are. -/
theorem update_eq {n : Node} (h : V.Reads n.operands ts) : V.base.replaced.update n = n := by
  have hmap : n.operands.map V.base.replaced.canon = n.operands.map id :=
    List.map_congr_left fun v hv => (h.of_mem hv).choose_spec.canonical
  rw [Replacements.update, hmap, List.map_id]

end Reads

theorem Good.reads {n : Node} {ts : List ValueType} (h : V.Good n ts) :
    n.operands.map V.final.typeOf? = ts.map some :=
  h.operands.types

namespace Meets

section
variable {i : Instr} {op : Opcode} {vs : List Value} {attr : Attr} {t : ValueType} {d : Datum}

/-- A requested node has the type of its result, and a datum that its meaning allows. -/
theorem build (ts : List ValueType) (hi : i.node V.final.typeOf = .ok ⟨op, vs, [t], attr⟩)
    (hreads : V.Reads vs ts) (hsig : V.T.Signs V.limit op ts t) (hadmits : V.Admits op (t :: ts))
    (hattr : V.strict → V.Attributed ⟨op, vs, [t], attr⟩ ts)
    (hmoderate : V.limit.moderate → V.T.Moderate V.final ts ⟨op, vs, [t], attr⟩)
    (hmean : V.sem →
      Node.meaning V.args ⟨op, vs, [t], attr⟩ (vs.map (V.val ·.node)) ts = .ok d) :
    V.Meets (Edit.build i) fun v => ∃ e, V.Is v t e ∧
      (V.sem → Node.Allows (V.T.Loose V.limit) ⟨op, vs, [t], attr⟩ ts d e ∧ (V.exact → e = d)) := by
  have hgood : V.Good ⟨op, vs, [t], attr⟩ ts :=
    ⟨hreads, .inr ⟨t, rfl, hsig⟩, hadmits, hattr, hmoderate, fun h => absurd h hsig.ne_output,
      fun hs _ => ⟨d, hmean hs⟩⟩
  have hupdate : V.editSpec.base.replaced.update ⟨op, vs, [t], attr⟩ = ⟨op, vs, [t], attr⟩ :=
    hgood.operands.update_eq
  refine (EditSpec.Meets.build (C := V.editSpec) (fun v hv => hreads.isSome hv)
    (fun _ _ _ => ⟨ts, hupdate.symm ▸ hgood⟩) hi).mono ?_
  rintro ⟨id, slot⟩ ⟨rfl, hsize, hat⟩
  have hat : V.final.nodes[id]? = some ⟨op, vs, [t], attr⟩ := hat.trans (congrArg some hupdate)
  have hobeys (hs : V.sem) := V.obeys hs id _ ts t d hsize hat rfl hsig
    (hattr (V.strict_of_sem hs)) hreads.types
    (fun v hv => (hreads.of_mem hv).choose_spec.known hs) (hreads.fits hs) (hmean hs)
  refine ⟨V.val id, ⟨?_, fun _ => rfl, fun hs => (hobeys hs).2.1, V.canon_new hsize,
    fun hs => (hobeys hs).1⟩, fun hs => (hobeys hs).2.2⟩
  rw [Graph.typeOf?, hat]
  rfl

/-- Operations other than extensions and lane reads have one meaning. -/
theorem build_exact (ts : List ValueType) (hexact : ¬(op = .anyExtend ∨ op = .extractElement))
    (hi : i.node V.final.typeOf = .ok ⟨op, vs, [t], attr⟩) (hreads : V.Reads vs ts)
    (hsig : V.T.Signs V.limit op ts t) (hadmits : V.Admits op (t :: ts))
    (hattr : V.strict → V.Attributed ⟨op, vs, [t], attr⟩ ts)
    (hmoderate : V.limit.moderate → V.T.Moderate V.final ts ⟨op, vs, [t], attr⟩)
    (hmean : V.sem →
      Node.meaning V.args ⟨op, vs, [t], attr⟩ (vs.map (V.val ·.node)) ts = .ok d) :
    V.Meets (Edit.build i) fun v => V.Is v t d := by
  refine (build ts hi hreads hsig hadmits hattr hmoderate hmean).mono ?_
  rintro v ⟨e, hv, he⟩
  refine hv.congr fun hs => ?_
  have hallows := (he hs).1
  rwa [Node.Allows, if_neg hexact] at hallows

/-- Most operations have no numbers either. -/
theorem build_signed (ts : List ValueType) (hop : ¬(op = .anyExtend ∨ op = .extractElement ∨
      op = .argument ∨ op = .constant))
    (hi : i.node V.final.typeOf = .ok ⟨op, vs, [t], attr⟩) (hreads : V.Reads vs ts)
    (hsig : V.T.Signs V.limit op ts t) (hadmits : V.Admits op (t :: ts))
    (hattr : V.strict → V.Attributed ⟨op, vs, [t], attr⟩ ts)
    (hmean : V.sem →
      Node.meaning V.args ⟨op, vs, [t], attr⟩ (vs.map (V.val ·.node)) ts = .ok d) :
    V.Meets (Edit.build i) fun v => V.Is v t d :=
  build_exact ts (fun h => hop (h.imp_right .inl)) hi hreads hsig hadmits hattr
    (fun _ => Target.moderate_of_ne fun h => hop (.inr h)) hmean

/-- Most operations have types by their signatures. -/
theorem build_is (ts : List ValueType) (hop : ¬(op = .anyExtend ∨ op = .extractElement ∨
      op = .argument ∨ op = .constant))
    (hi : i.node V.final.typeOf = .ok ⟨op, vs, [t], attr⟩) (hreads : V.Reads vs ts)
    (hsig : Signature V.T.Wide op ts t) (hadmits : V.Admits op (t :: ts))
    (hattr : V.strict → V.Attributed ⟨op, vs, [t], attr⟩ ts)
    (hmean : V.sem →
      Node.meaning V.args ⟨op, vs, [t], attr⟩ (vs.map (V.val ·.node)) ts = .ok d) :
    V.Meets (Edit.build i) fun v => V.Is v t d :=
  build_signed ts hop hi hreads (.inl hsig) hadmits hattr hmean

end

end Meets

/-! ### What the rule may add -/

/-- The greatest charge that new nodes stay below. -/
def height (V : RuleSpec) : Nat :=
  (ofLex V.ceiling).1

/-- Operations up to stage `c` may work at type `t`. -/
def Small (V : RuleSpec) (c : Nat) (t : ValueType) : Prop :=
  V.measured → charge c (V.T.weight t) < V.height

/-- Operations up to stage `c` may work at the scalar integer type `t`. -/
def Word (V : RuleSpec) (c : Nat) (t : ValueType) : Prop :=
  t.IsWord ∧ V.Small c t

section
variable {c c' : Nat} {t : ValueType} {op : Opcode} {ts : List ValueType}

theorem Small.mono (h : V.Small c t) (hc : c' ≤ c) : V.Small c' t :=
  fun hm => Nat.lt_of_le_of_lt (charge_mono hc (Nat.le_refl _)) (h hm)

theorem Small.legal (h : V.T.classify t = .legal) : V.Small c t := fun hm => by
  rw [Target.weight_of_legal h, charge_zero]
  exact V.ceiling_pos hm

theorem Word.mono (h : V.Word c t) (hc : c' ≤ c) : V.Word c' t :=
  ⟨h.1, h.2.mono hc⟩

theorem Admits.of_height_lt (h : V.measured → V.T.height op ts < V.height)
    (hplain : V.total → V.T.Plain op ts) : V.Admits op ts where
  lighter hm := Prod.Lex.lt_iff.2 (.inl (h hm))
  plain := hplain

theorem Admits.of_small (hop : op ≠ .buildPair) (hsmall : ∀ t ∈ ts, V.Small op.stage t)
    (hplain : V.total → V.T.Plain op ts) : V.Admits op ts := by
  refine .of_height_lt (fun hm => (Target.height_lt_iff (V.ceiling_pos hm)).2 ⟨?_, fun t ht =>
    hsmall t ht hm⟩) hplain
  rw [Target.jointWeight_of_ne hop, charge_zero]
  exact V.ceiling_pos hm

theorem Admits.words (hop : op.isPlain = true) (hpair : op ≠ .buildPair)
    (hwords : ∀ t ∈ ts, V.Word op.stage t)
    (hmulhu : op = .int .mulhu → ∀ t ∈ ts, V.T.classify t ≠ .promoteInteger)
    (hsetcc : op = .setcc → ∀ t ∈ ts.head?, V.T.classify t ≠ .expandInteger) : V.Admits op ts :=
  .of_small hpair (fun t ht => (hwords t ht).2) fun _ =>
    ⟨hop, fun t ht => (hwords t ht).1, hmulhu, hsetcc⟩

end

end RuleSpec

end Legal

end Dataflow
