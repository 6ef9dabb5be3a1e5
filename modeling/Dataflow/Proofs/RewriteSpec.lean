import Dataflow.Proofs.RuleSpec

/-!
# What is asked of a rule that rewrites a node

A rule looks at one node of a typed graph. What is asked of it comes with this node: the types of
its operands are known, and operands of illegal types have parts. New nodes are lighter than the
node. Where `total`, the node is scalar integer code, and the rule does not fail. With data, the
rule is correct when the data of the parts that it returns make up the meaning of the node.
-/

namespace Dataflow

namespace Legal

/-- The datum of a value of type `t`, from the data of its parts. -/
def Parts.assemble (T : Target) (val : Nat → Datum) (t : ValueType) : Parts → Datum
  | .one w => .ofNumber t ((val w.node).number (T.transform t))
  | .two lo hi => .ofNumber t ((val lo.node).number (T.transform t) +
      2 ^ (T.transform t).bits * (val hi.node).number (T.transform t))

/-- What a target makes of a value of type `t`: the kind, the number and the types of the parts. -/
structure Conversion.Suits (T : Target) (typeOf? : Value → Option ValueType) (t : ValueType)
    (c : Conversion) : Prop where
  kind : (T.classify t).kind? = some c.kind
  pair : c.parts.isPair = c.kind.isPair
  parts : Tracked.all (fun p => typeOf? p = some (T.transform t)) c.parts

/-- The canonical forms of the parts make up datum `d` of a value of type `t`. -/
structure Conversion.Makes (V : RuleSpec) (t : ValueType) (d : Datum) (c : Conversion) : Prop where
  kind : (V.T.classify t).kind? = some c.kind
  pair : c.parts.isPair = c.kind.isPair
  parts : Tracked.all (fun p => V.Is p (V.T.transform t) (V.val p.node))
    (c.parts.map V.base.replaced.canon)
  datum : V.sem → d = (c.parts.map V.base.replaced.canon).assemble V.T V.val t

/-- A value of type `t` is at hand in canonical form, and its parts are where the type is illegal. -/
structure RuleSpec.Supplies (V : RuleSpec) (v : Value) (t : ValueType) : Prop where
  is : V.Is (V.base.replaced.canon v) t (V.val v.node)
  parts : V.T.classify t ≠ .legal →
    ∃ c, V.base.conversions.get? (V.base.replaced.canon v) = some c ∧ c.Makes V t (V.val v.node)

/-- Errors of a rule that cannot convert what it is given. -/
def Error.IsObstacle : Error → Prop
  | .unsupported .. | .unsupportedType .. => True
  | _ => False

/-- The numbers that node `n` is converted with leave their words: the second half of an argument
does not start at a position of 32 bits, or a lane that is to be halved has a constant index whose
double has more than 128 bits. -/
def Replacements.Overflows (r : Replacements) (T : Target) (g : Graph) (n : Node) : Prop :=
  ∃ t, n.results = [t] ∧
    ((n.opcode = .argument ∧ T.classify t ≠ .legal ∧ t.bits = 2 * (T.transform t).bits ∧
        ∃ index offset, n.attr = .arg index offset ∧ 2 ^ 32 ≤ offset + (T.transform t).bits) ∨
      n.opcode = .extractElement ∧ T.classify t = .expandInteger ∧
        ∃ v m k, n.operands[1]? = some v ∧ g.nodes[(r.canon v).node]? = some m ∧
          m.opcode = .constant ∧ m.attr = .imm k ∧ 2 ^ 128 ≤ 2 * k)

structure RewriteSpec extends RuleSpec where
  id : Nat
  node : Node
  /-- The types of the operands of the node. -/
  types : List ValueType
  /-- The meaning of the node. -/
  datum : Datum
  node_at : base.graph.nodes[id]? = some node
  reads : node.operands.map final.typeOf? = types.map some
  typed : node.Conforms (T.Signs limit) types
  outputs_of_output : node.opcode = .output → outputs
  ceiling_eq : ceiling = T.burden node.opcode (node.results ++ types)
  fails_iff : ∀ e, Fails e ↔ (e.IsObstacle ∨ e = .fault .overflow ∧
    base.replaced.Overflows T final node) ∧ ¬ total
  supplies : ∀ v ∈ node.operands, ∀ t, final.typeOf? v = some t → toRuleSpec.Supplies v t
  attributed : strict → toRuleSpec.Attributed node types
  moderate : limit.moderate → T.Moderate final types node
  fixed : limit.moderate → ∀ v ∈ node.operands, ∀ t, final.typeOf? v = some t →
    T.classify t ≠ .legal → base.replaced.canon v = v
  unmeasured : measured → ¬ limit.liberal
  laned : measured → ∀ t ∈ node.results ++ types, T.classify t = .legal →
    T.classify t.scalar = .legal
  plain : total → T.Plain node.opcode (node.results ++ types)
  means : sem → node.opcode ≠ .output →
    node.meaning args (node.operands.map (val ·.node)) types = .ok datum
  constants : sem → numbered → ∀ v n t bits, final.nodes[v.node]? = some n →
    n.opcode = .constant → n.attr = .imm bits → final.typeOf? v = some t → t.isVector = false →
    val v.node = .scalar bits

namespace RuleSpec.Meets

variable {V : RewriteSpec} {α : Type} {P : α → Prop}

theorem throw {e : Error} (he : e.IsObstacle) (ht : ¬ V.total) :
    V.Meets (MonadExcept.throw e : Edit α) P :=
  EditSpec.Meets.throw ((V.fails_iff e).2 ⟨.inl he, ht⟩)

theorem overflow (h : V.base.replaced.Overflows V.T V.final V.node) (ht : ¬ V.total) :
    V.Meets (MonadExcept.throw (.fault .overflow) : Edit α) P :=
  EditSpec.Meets.throw ((V.fails_iff _).2 ⟨.inr ⟨rfl, h⟩, ht⟩)

end RuleSpec.Meets

namespace RewriteSpec

variable {V : RewriteSpec}

theorem node_final (V : RewriteSpec) : V.final.nodes[V.id]? = some V.node :=
  V.grown.getElem? V.node_at

/-! ### Operands -/

/-- The canonical form of an operand of the node. -/
def Source (V : RewriteSpec) (v : Value) : Prop :=
  ∃ u ∈ V.node.operands, v = V.base.replaced.canon u

/-- The datum of operand `i`. -/
def data (V : RewriteSpec) (i : Nat) : Datum :=
  ((V.node.operands[i]?).map (V.val ·.node)).getD (.scalar 0)

/-- The bits of scalar operand `i`. -/
def bitsOf (V : RewriteSpec) (i : Nat) : Nat :=
  (V.data i).lanes.headD 0

/-- The lanes of operand `i`. -/
def lanesOf (V : RewriteSpec) (i : Nat) : List Nat :=
  (V.data i).lanes

theorem length_operands (V : RewriteSpec) : V.node.operands.length = V.types.length := by
  simpa using congrArg List.length V.reads

theorem operand_at (V : RewriteSpec) {i : Nat} {t : ValueType} (ht : V.types[i]? = some t) :
    ∃ v, V.node.operands[i]? = some v ∧ V.Is (V.base.replaced.canon v) t (V.data i) := by
  have hi : i < V.node.operands.length := by
    rw [V.length_operands]
    exact (List.getElem?_eq_some_iff.1 ht).1
  have hv := List.getElem?_eq_getElem hi
  have htype : V.final.typeOf? V.node.operands[i] = some t := by
    have h := congrArg (·[i]?) V.reads
    simpa [hv, ht] using h
  refine ⟨_, hv, (V.supplies _ (List.getElem_mem hi) t htype).is.congr fun _ => ?_⟩
  simp [data, hv]

theorem map_val_operands (V : RewriteSpec) :
    V.node.operands.map (V.val ·.node) = (List.range V.types.length).map V.data := by
  refine List.ext_getElem? fun i => ?_
  by_cases hi : i < V.types.length
  · have hv : i < V.node.operands.length := V.length_operands ▸ hi
    simp [data, List.getElem?_eq_getElem hv, List.getElem?_range hi]
  · have hv : V.node.operands.length ≤ i := V.length_operands ▸ Nat.le_of_not_lt hi
    rw [List.getElem?_eq_none (by simpa using hv), List.getElem?_eq_none (by simpa using hi)]

/-- The meaning of the node, from the data of its operands. -/
theorem means_data (V : RewriteSpec) (hs : V.sem) (hop : V.node.opcode ≠ .output) :
    V.node.meaning V.args ((List.range V.types.length).map V.data) V.types = .ok V.datum :=
  V.map_val_operands ▸ V.means hs hop

theorem data_fits (V : RewriteSpec) (hs : V.sem) {i : Nat} {t : ValueType}
    (ht : V.types[i]? = some t) :
    (V.data i).Fits t := by
  obtain ⟨v, _, hv⟩ := V.operand_at ht
  exact hv.fits hs

theorem data_scalar (V : RewriteSpec) (hs : V.sem) {i : Nat} {t : ValueType}
    (ht : V.types[i]? = some t)
    (hscalar : t.isVector = false) : V.data i = .scalar (V.bitsOf i) := by
  obtain ⟨x, hx, _⟩ := (V.data_fits hs ht).eq_scalar hscalar
  rw [bitsOf, hx]
  rfl

theorem data_vector (V : RewriteSpec) (hs : V.sem) {i : Nat} {t : ValueType}
    (ht : V.types[i]? = some t)
    (hvector : t.isVector = true) : V.data i = .vector (V.lanesOf i) := by
  obtain ⟨l, hl, _⟩ := (V.data_fits hs ht).eq_vector hvector
  rw [lanesOf, hl]
  rfl

theorem bitsOf_lt (V : RewriteSpec) (hs : V.sem) {i : Nat} {t : ValueType}
    (ht : V.types[i]? = some t)
    (hscalar : t.isVector = false) : V.bitsOf i < 2 ^ t.bits := by
  have hfits := V.data_fits hs ht
  rw [V.data_scalar hs ht hscalar] at hfits
  exact (Datum.fits_scalar.1 hfits).2

end RewriteSpec

namespace RuleSpec.Meets

variable {V : RewriteSpec} {α : Type}

theorem resultType {t : ValueType} (ht : V.node.results = [t]) :
    V.Meets (Edit.resultType V.id 0) (t = ·) := by
  refine .bind (.node V.node_final) ?_
  rintro _ rfl
  rw [ht]
  exact .pure rfl

theorem obstacle {P : α → Prop} (o : Obstacle) (ht : ¬ V.total) :
    V.Meets (Edit.obstacle V.id o : Edit α) P := by
  refine .bind (.node V.node_final) ?_
  rintro _ rfl
  exact .throw trivial ht

theorem operand {i : Nat} {t : ValueType} (ht : V.types[i]? = some t) :
    V.Meets (Edit.operand V.id i) fun w => V.Source w ∧ V.Is w t (V.data i) := by
  obtain ⟨v, hv, his⟩ := V.operand_at ht
  refine (EditSpec.Meets.operand (C := V.editSpec) V.node_final hv).mono ?_
  rintro _ rfl
  exact ⟨⟨v, List.mem_of_getElem? hv, rfl⟩, his⟩

theorem operandWord {i : Nat} {t : ValueType} (ht : V.types[i]? = some t)
    (hscalar : t.isVector = false) : V.Meets (Edit.operand V.id i) fun w =>
      V.Source w ∧ V.Is w t (.scalar (V.bitsOf i)) :=
  (operand ht).mono fun _ hw => ⟨hw.1, hw.2.congr fun hs => V.data_scalar hs ht hscalar⟩

theorem operandLanes {i : Nat} {t : ValueType} (ht : V.types[i]? = some t)
    (hvector : t.isVector = true) : V.Meets (Edit.operand V.id i) fun w =>
      V.Source w ∧ V.Is w t (.vector (V.lanesOf i)) :=
  (operand ht).mono fun _ hw => ⟨hw.1, hw.2.congr fun hs => V.data_vector hs ht hvector⟩

end RuleSpec.Meets

/-! ### Parts -/

section
variable {V : RewriteSpec} {v : Value} {t : ValueType} {d : Datum} {kind : ConversionKind}

theorem RewriteSpec.Source.canonical (hv : V.Source v) : V.base.replaced.canon v = v := by
  obtain ⟨u, _, rfl⟩ := hv
  exact V.canon_canon u

/-- An operand of an illegal type has parts, the right ones. -/
theorem RewriteSpec.Source.entry (hv : V.Source v) (h : V.Is v t d) (hc : V.T.classify t ≠ .legal) :
    ∃ c, V.base.conversions.get? v = some c ∧ c.Makes V.toRuleSpec t d := by
  obtain ⟨u, hu, rfl⟩ := hv
  obtain ⟨i, hi, rfl⟩ := List.mem_iff_getElem.1 hu
  have hread := congrArg (·[i]?) V.reads
  simp only [List.getElem?_map, List.getElem?_eq_getElem hi, Option.map_some] at hread
  obtain ⟨t', _, ht'⟩ := Option.map_eq_some_iff.1 hread.symm
  have hsupplies := V.supplies _ hu t' ht'.symm
  cases h.type.symm.trans hsupplies.is.type
  obtain ⟨c, hget, hmakes⟩ := hsupplies.parts hc
  refine ⟨c, hget, { hmakes with datum := fun hs => ?_ }⟩
  rw [← hmakes.datum hs, ← h.val hs, hsupplies.is.val hs]

namespace RuleSpec.Meets

/-- The single part of an operand. -/
theorem one (hv : V.Source v) (h : V.Is v t d) (hk : (V.T.classify t).kind? = some kind)
    (hp : kind.isPair = false) : V.Meets (Edit.one kind v) fun w =>
      ∃ e, V.Is w (V.T.transform t) e ∧
        (V.sem → d = .ofNumber t (e.number (V.T.transform t))) := by
  have hillegal : V.T.classify t ≠ .legal := fun hlegal => by rw [hlegal] at hk; cases hk
  obtain ⟨⟨kind', parts⟩, hget, hmakes⟩ := hv.entry h hillegal
  have hkind := hmakes.kind
  rw [hk] at hkind
  cases hkind
  have hpair := hmakes.pair
  rw [hp] at hpair
  cases parts with
  | two lo hi => cases hpair
  | one p =>
    refine .bind (.canonical v) ?_
    rintro _ rfl
    rw [hv.canonical]
    refine (EditSpec.Meets.currentOne (C := V.editSpec) hget).mono ?_
    rintro _ rfl
    exact ⟨_, hmakes.parts, hmakes.datum⟩

/-- The two parts of an operand. -/
theorem two (hv : V.Source v) (h : V.Is v t d) (hk : (V.T.classify t).kind? = some kind)
    (hp : kind.isPair = true) : V.Meets (Edit.two kind v) fun w =>
      ∃ e e', V.Is w.1 (V.T.transform t) e ∧ V.Is w.2 (V.T.transform t) e' ∧
        (V.sem → d = .ofNumber t (e.number (V.T.transform t) +
          2 ^ (V.T.transform t).bits * e'.number (V.T.transform t))) := by
  have hillegal : V.T.classify t ≠ .legal := fun hlegal => by rw [hlegal] at hk; cases hk
  obtain ⟨⟨kind', parts⟩, hget, hmakes⟩ := hv.entry h hillegal
  have hkind := hmakes.kind
  rw [hk] at hkind
  cases hkind
  have hpair := hmakes.pair
  rw [hp] at hpair
  cases parts with
  | one p => cases hpair
  | two lo hi =>
    refine .bind (.canonical v) ?_
    rintro _ rfl
    rw [hv.canonical]
    refine (EditSpec.Meets.currentTwo (C := V.editSpec) hget).mono ?_
    rintro _ rfl
    exact ⟨_, _, hmakes.parts.1, hmakes.parts.2, hmakes.datum⟩

end RuleSpec.Meets

end

/-! ### What the rule may add -/

section
variable {V : RewriteSpec} {c : Nat} {t u : ValueType} {op : Opcode} {ts : List ValueType}

namespace RewriteSpec

theorem mem_types (V : RewriteSpec) {i : Nat} (h : V.types[i]? = some t) :
    t ∈ V.node.results ++ V.types :=
  List.mem_append_right _ (List.mem_of_getElem? h)

theorem height_eq (V : RewriteSpec) :
    V.height = V.T.height V.node.opcode (V.node.results ++ V.types) := by
  rw [RuleSpec.height, V.ceiling_eq]
  rfl

theorem charge_le (V : RewriteSpec) (h : t ∈ V.node.results ++ V.types) :
    charge V.node.opcode.stage (V.T.weight t) ≤ V.height :=
  V.height_eq ▸ Target.charge_le_height h

end RewriteSpec

namespace RuleSpec

/-- Lighter types than those of the node are free for all operations. -/
theorem Small.lighter (hu : u ∈ V.node.results ++ V.types) (h : V.T.weight t < V.T.weight u)
    (hc : c ≤ 5) : V.Small c t :=
  fun _ => Nat.lt_of_lt_of_le (charge_lt_of_lt hc h) (V.charge_le hu)

theorem Small.narrower (hu : u ∈ V.node.results ++ V.types) (hillegal : V.T.classify u ≠ .legal)
    (h : t.bits < u.bits) (hc : c ≤ 5) : V.Small c t :=
  .lighter hu (Target.weight_lt_of_bits_lt hillegal h) hc

/-- At the types of the node, operations of earlier stages may work. -/
theorem Small.earlier (ht : t ∈ V.node.results ++ V.types) (hc : c < V.node.opcode.stage) :
    V.Small c t := fun _ => by
  by_cases hlegal : V.T.classify t = .legal
  · exact Small.legal hlegal ‹_›
  · exact Nat.lt_of_lt_of_le
      (charge_lt_of_stage hc (Nat.le_refl _) (Target.weight_pos hlegal)) (V.charge_le ht)

/-- Where liberties are taken, nothing is measured. -/
theorem Admits.liberal (hl : V.limit.liberal) (ht : ¬ V.total) : V.Admits op ts where
  lighter hm := absurd hl (V.unmeasured hm)
  plain h := absurd h ht

/-- The same operation, or one of no later stage, with simpler types. -/
theorem Admits.of_forall₂ (hop : op ≠ .buildPair) (hs : op.stage ≤ V.node.opcode.stage)
    (h : List.Forall₂ (fun t u => V.T.weight t ≤ V.T.weight u) ts (V.node.results ++ V.types))
    (hload : V.T.load ts < V.T.load (V.node.results ++ V.types))
    (hplain : V.total → V.T.Plain op ts) : V.Admits op ts where
  lighter _ := V.ceiling_eq ▸ Target.burden_lt_of_forall₂ hop hs h hload
  plain := hplain

end RuleSpec

end

end Legal

end Dataflow
