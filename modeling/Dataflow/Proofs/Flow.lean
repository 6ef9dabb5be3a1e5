import Dataflow.Legal.Rules
import Dataflow.Proofs.Arena
import Dataflow.Proofs.Canonical

/-!
# What flows through a rule

A rule that looks at node `id` gets hold of values in three ways: as operands of `id`, as parts of
values it has, and as nodes it creates. So every set of values that contains the operands and the
new nodes, and is closed under redirection and parts, contains everything the rule returns and
everything its new nodes read. Nothing is asked of the graph or of the target: this holds of
ill-typed graphs too.
-/

namespace Dataflow.Legal

theorem Edit.grows_of_ok {α : Type} {x : Edit α} {d d' : Draft} {a : α}
    (h : x.run d = .ok a d') : d.Grows d' := by
  have hg := x.grows d
  rwa [h] at hg

theorem Edit.grows_of_error {α : Type} {x : Edit α} {d d' : Draft} {e : Error}
    (h : x.run d = .error e d') : d.Grows d' := by
  have hg := x.grows d
  rwa [h] at hg

/-- How to read the values that a result carries. -/
class Tracked (α : Type) where
  all : (Value → Prop) → α → Prop
  mono : ∀ {P Q : Value → Prop} {a : α}, (∀ v, P v → Q v) → all P a → all Q a

/-- Numbers, types and the like carry no values. -/
instance (priority := low) {α : Type} : Tracked α := ⟨fun _ _ => True, fun _ h => h⟩

instance : Tracked Value := ⟨fun low v => low v, fun h => h _⟩

instance {α β : Type} [Tracked α] [Tracked β] : Tracked (α × β) :=
  ⟨fun low p => Tracked.all low p.1 ∧ Tracked.all low p.2,
    fun h hp => ⟨Tracked.mono h hp.1, Tracked.mono h hp.2⟩⟩

instance {α : Type} [Tracked α] : Tracked (List α) :=
  ⟨fun low xs => ∀ x ∈ xs, Tracked.all low x, fun h hx x hm => Tracked.mono h (hx x hm)⟩

instance {α : Type} [Tracked α] : Tracked (Option α) :=
  ⟨fun low o => ∀ x ∈ o, Tracked.all low x, fun h hx x hm => Tracked.mono h (hx x hm)⟩

instance : Tracked Parts where
  all low
    | .one v => low v
    | .two lo hi => low lo ∧ low hi
  mono {_ _ p} h hp := by
    cases p with
    | one v => exact h v hp
    | two lo hi => exact ⟨h lo hp.1, h hi hp.2⟩

/-- A successor is a node with all its results, or a value. -/
instance : Tracked Successor where
  all low
    | .node id => low ⟨id, 0⟩
    | .value v => low v
  mono {_ _ p} h hp := by
    cases p with
    | node id => exact h _ hp
    | value v => exact h v hp

instance : Tracked Halve.ShiftCases :=
  ⟨fun low c => Tracked.all low c.small ∧ Tracked.all low c.big ∧ Tracked.all low c.out,
    fun h hc => ⟨Tracked.mono h hc.1, Tracked.mono h hc.2.1, Tracked.mono h hc.2.2⟩⟩

instance : Tracked Split.Quarters :=
  ⟨fun low q => ∀ k, low (q.get k), fun h hq k => h _ (hq k)⟩

section
variable (low : Value → Prop)

@[simp] theorem all_value (v : Value) : Tracked.all low v ↔ low v := Iff.rfl

@[simp] theorem all_nat (n : Nat) : Tracked.all low n ↔ True := Iff.rfl

@[simp] theorem all_valueType (t : ValueType) : Tracked.all low t ↔ True := Iff.rfl

@[simp] theorem all_node (n : Node) : Tracked.all low n ↔ True := Iff.rfl

@[simp] theorem all_condition (c : Condition) : Tracked.all low c ↔ True := Iff.rfl

@[simp] theorem all_draft (d : Draft) : Tracked.all low d ↔ True := Iff.rfl

@[simp] theorem all_unit (u : Unit) : Tracked.all low u ↔ True := Iff.rfl

@[simp] theorem all_prod {α β : Type} [Tracked α] [Tracked β] (p : α × β) :
    Tracked.all low p ↔ Tracked.all low p.1 ∧ Tracked.all low p.2 := Iff.rfl

@[simp] theorem all_list {α : Type} [Tracked α] (xs : List α) :
    Tracked.all low xs ↔ ∀ x ∈ xs, Tracked.all low x := Iff.rfl

@[simp] theorem all_option {α : Type} [Tracked α] (o : Option α) :
    Tracked.all low o ↔ ∀ x ∈ o, Tracked.all low x := Iff.rfl

@[simp] theorem all_one (v : Value) : Tracked.all low (Parts.one v) ↔ low v := Iff.rfl

@[simp] theorem all_two (lo hi : Value) :
    Tracked.all low (Parts.two lo hi) ↔ low lo ∧ low hi := Iff.rfl

@[simp] theorem all_successor_value (v : Value) :
    Tracked.all low (Successor.value v) ↔ low v := Iff.rfl

@[simp] theorem all_shiftCases (c : Halve.ShiftCases) :
    Tracked.all low c ↔
      Tracked.all low c.small ∧ Tracked.all low c.big ∧ Tracked.all low c.out := Iff.rfl

@[simp] theorem all_quarters (q : Split.Quarters) :
    Tracked.all low q ↔ ∀ k, low (q.get k) := Iff.rfl

end

/-- Errors that a rule may report; the others are those of the run. -/
def Error.FromRule : Error → Prop
  | .unsupported .. | .unsupportedType .. | .conversion (.missing ..) => True
  | .fault f => f ≠ .cyclic
  | _ => False

/-! ### Scopes -/

/-- The values that a visit of node `id` may get hold of. -/
structure Scope where
  id : Nat
  /-- Nodes from this one on are new. -/
  size : Nat
  /-- Number of nodes at the end of the visit. -/
  bound : Nat
  low : Value → Prop
  /-- The values that are not redirected. -/
  plain : Value → Prop
  id_lt : id < size
  low_new : ∀ v : Value, size ≤ v.node → v.node < bound → low v

/-- The set of a scope is closed in a draft, and new nodes read canonical values of it. -/
structure Scope.Closed (S : Scope) (d : Draft) : Prop where
  size_le : S.size ≤ d.graph.size
  plain_iff : ∀ v, S.plain v ↔ d.replaced.next? v = none
  operands : ∀ n, d.graph.nodes[S.id]? = some n → ∀ v ∈ n.operands, S.low v
  next : ∀ v w, d.replaced.next? v = some w → S.low v → S.low w
  parts : ∀ v c, d.conversions.get? v = some c → S.low v → Tracked.all S.low c.parts
  descends : ∃ rank, d.replaced.Descends rank
  fresh : ∀ (id : Nat) n, S.size ≤ id → d.graph.nodes[id]? = some n →
    n.Shaped ∧ ∀ v ∈ n.operands, S.low v ∧ S.plain v

namespace Scope

variable {S : Scope} {d d' : Draft}

theorem Closed.reaches (h : S.Closed d) {v w : Value} (hr : d.replaced.Reaches v w)
    (hv : S.low v) : S.low w := by
  induction hr with
  | refl => exact hv
  | step hn _ ih => exact ih (h.next _ _ hn hv)

/-- A draft that grows stays closed when the further nodes are as they should be. -/
theorem Closed.grow (h : S.Closed d) (hd : d.Grows d')
    (hfresh : ∀ (id : Nat) n, d.graph.size ≤ id → d'.graph.nodes[id]? = some n →
      n.Shaped ∧ ∀ v ∈ n.operands, S.low v ∧ S.plain v) : S.Closed d' where
  size_le := Nat.le_trans h.size_le hd.graph.size_le
  plain_iff v := (h.plain_iff v).trans (hd.replaced.next?_eq_none v).symm
  operands n hn := by
    rw [hd.graph.getElem?_eq (Nat.lt_of_lt_of_le S.id_lt h.size_le)] at hn
    exact h.operands n hn
  next v w hw hv := by
    obtain ⟨u, hu, hr⟩ := hd.replaced.reaches v w hw
    exact h.reaches hr (h.next v u hu hv)
  parts v c hc hv := by
    rcases hd.conversions v with ⟨_, hnone⟩ | ⟨kind, p, q, hp, hq, hpq⟩
    · rw [hnone] at hc; cases hc
    · rw [hq] at hc
      cases hc
      have hlow := h.parts v _ hp hv
      cases p <;> cases q <;> simp only [Parts.Rel] at hpq
      · exact h.reaches hpq hlow
      · exact ⟨h.reaches hpq.1 hlow.1, h.reaches hpq.2 hlow.2⟩
  descends := h.descends.imp fun _ hr => hr.shortens hd.replaced
  fresh id n hid hn := by
    by_cases hlt : id < d.graph.size
    · rw [hd.graph.getElem?_eq hlt] at hn
      exact h.fresh id n hid hn
    · exact hfresh id n (by omega) hn

theorem Closed.grow_same (h : S.Closed d) (hd : d.Grows d') (hg : d'.graph = d.graph) :
    S.Closed d' :=
  h.grow hd fun id n hid hn => by
    rw [hg] at hn
    exact absurd (Graph.lt_size_of_getElem? hn) (by omega)

end Scope

/-- One predicate for the result of an edit and one for its error. -/
def Edited.Holds {α : Type} (ok : α → Draft → Prop) (error : Error → Draft → Prop) :
    Edited α → Prop
  | .ok a d => ok a d
  | .error e d => error e d

namespace Scope

variable (S : Scope) {α β : Type}

/-- From a closed draft, `x` ends in a closed draft; its result satisfies `Q`. -/
def Yields (x : Edit α) (Q : α → Prop) : Prop :=
  ∀ d, S.Closed d → (x.run d).draft.graph.size ≤ S.bound →
    (x.run d).Holds (fun a d' => S.Closed d' ∧ Q a) (fun e d' => S.Closed d' ∧ e.FromRule)

/-- Everything that `x` returns is in the set of the scope. -/
def Flows [Tracked α] (x : Edit α) : Prop :=
  S.Yields x (Tracked.all S.low)

variable {S}

theorem Yields.bind {x : Edit α} {f : α → Edit β} {P : α → Prop} {Q : β → Prop}
    (hx : S.Yields x P) (hf : ∀ a, P a → S.Yields (f a) Q) : S.Yields (x >>= f) Q := by
  intro d hd hsize
  rw [Edit.run_bind] at hsize ⊢
  cases hr : x.run d with
  | ok a d' =>
    rw [hr] at hsize
    have h := hx d hd (by
      rw [hr]
      exact Nat.le_trans ((f a).grows d').graph.size_le hsize)
    rw [hr] at h
    exact hf a h.2 d' h.1 hsize
  | error e d' =>
    have h := hx d hd (by rw [hr] at hsize ⊢; exact hsize)
    rw [hr] at h
    exact h

theorem Yields.mono {x : Edit α} {P Q : α → Prop} (hx : S.Yields x P) (h : ∀ a, P a → Q a) :
    S.Yields x Q := by
  intro d hd hsize
  have hx := hx d hd hsize
  cases hr : x.run d with
  | ok a d' => rw [hr] at hx; exact ⟨hx.1, h a hx.2⟩
  | error e d' => rw [hr] at hx; exact hx

theorem Yields.pure {a : α} {Q : α → Prop} (h : Q a) : S.Yields (pure a) Q :=
  fun _ hd _ => ⟨hd, h⟩

theorem Yields.throw {e : Error} {Q : α → Prop} (h : e.FromRule) : S.Yields (throw e) Q :=
  fun _ hd _ => ⟨hd, h⟩

theorem Yields.ofFault {x : Except Fault α} (hx : x ≠ .error .cyclic) :
    S.Yields (liftM x : Edit α) (fun a => x = .ok a) := by
  cases x with
  | ok a => exact .pure rfl
  | error f => exact .throw fun hf => hx (by rw [hf])

theorem flows_bind [Tracked α] [Tracked β] {x : Edit α} {f : α → Edit β} (hx : S.Flows x)
    (hf : ∀ a, Tracked.all S.low a → S.Flows (f a)) : S.Flows (x >>= f) :=
  Yields.bind hx hf

@[simp] theorem flows_pure [Tracked α] {a : α} (h : Tracked.all S.low a) :
    S.Flows (pure a : Edit α) := .pure h

@[simp] theorem flows_fault [Tracked α] {f : Fault} (hf : f ≠ .cyclic) :
    S.Flows (throw (.fault f) : Edit α) := .throw hf

@[simp] theorem flows_unsupportedType [Tracked α] (t : ValueType) (a : Action) :
    S.Flows (throw (.unsupportedType t a) : Edit α) := .throw trivial

theorem flows_map [Tracked α] [Tracked β] {x : Edit α} {f : α → β} (hx : S.Flows x)
    (hf : ∀ a, Tracked.all S.low a → Tracked.all S.low (f a)) : S.Flows (f <$> x) :=
  flows_bind hx fun a ha => flows_pure (hf a ha)

theorem flows_mapM [Tracked α] [Tracked β] {f : α → Edit β} (xs : List α)
    (hf : ∀ x ∈ xs, S.Flows (f x)) : S.Flows (xs.mapM f) := by
  induction xs with
  | nil => exact flows_pure (by simp)
  | cons x xs ih =>
    rw [List.mapM_cons]
    refine flows_bind (hf x List.mem_cons_self) fun a ha => ?_
    refine flows_bind (ih fun y hy => hf y (List.mem_cons_of_mem x hy)) fun as has => ?_
    exact flows_pure (by simp_all)

/-! ### Reading the draft -/

theorem Yields.draft : S.Yields Edit.draft S.Closed :=
  fun _ hd _ => ⟨hd, hd⟩

theorem Yields.node (id : Nat) :
    S.Yields (Edit.node id) fun n => ∃ d, S.Closed d ∧ d.graph.nodes[id]? = some n := by
  refine .bind .draft fun d hd =>
    (Yields.ofFault (d.graph.node_ne_cyclic id)).mono fun n hn => ⟨d, hd, ?_⟩
  exact Graph.node_eq_ok hn

@[simp] theorem flows_node (id : Nat) : S.Flows (Edit.node id) :=
  (Yields.node id).mono fun _ _ => trivial

@[simp] theorem flows_typeOf (v : Value) : S.Flows (Edit.typeOf v) :=
  Yields.bind .draft fun d _ => (Yields.ofFault (d.graph.typeOf_ne_cyclic v)).mono fun _ _ => trivial

@[simp] theorem flows_resultType (id slot : Nat) : S.Flows (Edit.resultType id slot) := by
  refine flows_bind (flows_node id) fun n _ => ?_
  split
  · exact flows_pure trivial
  · exact flows_fault (by simp)

@[simp] theorem flows_obstacle [Tracked α] (id : Nat) (o : Obstacle) :
    S.Flows (Edit.obstacle id o : Edit α) :=
  flows_bind (flows_node id) fun _ _ => .throw trivial

@[simp] theorem flows_constant? (v : Value) : S.Flows (Edit.constant? v) :=
  flows_bind (flows_node v.node) fun _ _ => flows_pure (by simp)

/-! ### Canonical forms and parts -/

theorem Yields.canonical {v : Value} (hv : S.low v) :
    S.Yields (Edit.canonical v) fun w => S.low w ∧ S.plain w := by
  intro d hd _
  have hg := (Edit.canonical v).grows d
  obtain ⟨rank, hrank⟩ := hd.descends
  obtain ⟨replaced, hr, _⟩ := hrank.resolve_eq v
  have hspec := Replacements.resolve_spec hr
  simp only [Edit.canonical, hr] at hg ⊢
  exact ⟨hd.grow_same hg rfl, hd.reaches hspec.1 hv, (hd.plain_iff _).2 hspec.2.1⟩

@[simp] theorem flows_canonical {v : Value} (hv : S.low v) : S.Flows (Edit.canonical v) :=
  (Yields.canonical hv).mono fun _ hw => hw.1

@[simp] theorem flows_operand (i : Nat) : S.Flows (Edit.operand S.id i) := by
  refine Yields.bind .draft fun d hd => ?_
  refine Yields.bind (Yields.ofFault (d.graph.operand_ne_cyclic S.id i)) fun v hv =>
    flows_canonical ?_
  obtain ⟨n, hn, hi⟩ := Graph.operand_eq_ok hv
  exact hd.operands n hn v (List.mem_of_getElem? hi)

@[simp] theorem flows_operands : S.Flows (Edit.operands S.id) := by
  refine Yields.bind (Yields.node S.id) fun n hn => ?_
  obtain ⟨d, hd, hn⟩ := hn
  exact flows_mapM _ fun v hv => flows_canonical (hd.operands n hn v hv)

theorem flows_currentOne {key : Value} (kind : ConversionKind) (hk : S.low key) :
    S.Flows (Edit.currentOne kind key) := by
  intro d hd _
  have hg := (Edit.currentOne kind key).grows d
  obtain ⟨rank, hrank⟩ := hd.descends
  unfold Edit.currentOne at hg ⊢
  dsimp only at hg ⊢
  split
  · next e he =>
    rw [Conversions.one_eq_error he]
    exact ⟨hd, trivial⟩
  · next stored hs =>
    have hlow := hd.parts _ _ (Conversions.one_eq_ok.1 hs) hk
    obtain ⟨replaced, hr, _⟩ := hrank.resolve_eq stored
    have hcur := hd.reaches (Replacements.resolve_spec hr).1 hlow
    simp only [hs, hr] at hg ⊢
    split at hg
    · next h => simp only [h, if_true]; exact ⟨hd.grow_same hg rfl, h ▸ hcur⟩
    · next h => simp only [h, if_false]; exact ⟨hd.grow_same hg rfl, hcur⟩

theorem flows_currentTwo {key : Value} (kind : ConversionKind) (hk : S.low key) :
    S.Flows (Edit.currentTwo kind key) := by
  intro d hd _
  have hg := (Edit.currentTwo kind key).grows d
  obtain ⟨rank, hrank⟩ := hd.descends
  unfold Edit.currentTwo at hg ⊢
  dsimp only at hg ⊢
  split
  · next e he =>
    rw [Conversions.two_eq_error he]
    exact ⟨hd, trivial⟩
  · next storedLo storedHi hs =>
    have hlow := hd.parts _ _ (Conversions.two_eq_ok.1 hs) hk
    obtain ⟨replaced, hlo, hshort⟩ := hrank.resolve_eq storedLo
    obtain ⟨replaced', hhi, _⟩ := (hrank.shortens hshort).resolve_eq storedHi
    have hcur := hd.reaches (Replacements.resolve_spec hlo).1 hlow.1
    have hcur' := hd.reaches (hshort.reaches_of (Replacements.resolve_spec hhi).1) hlow.2
    simp only [hs, hlo, hhi] at hg ⊢
    split at hg
    · next h =>
      rw [if_pos h]
      exact ⟨hd.grow_same hg rfl, hcur, hcur'⟩
    · next h => simp only [h, if_false]; exact ⟨hd.grow_same hg rfl, hcur, hcur'⟩

@[simp] theorem flows_one {v : Value} (kind : ConversionKind) (hv : S.low v) :
    S.Flows (Edit.one kind v) :=
  flows_bind (flows_canonical hv) fun _ hw => flows_currentOne kind hw

@[simp] theorem flows_two {v : Value} (kind : ConversionKind) (hv : S.low v) :
    S.Flows (Edit.two kind v) :=
  flows_bind (flows_canonical hv) fun _ hw => flows_currentTwo kind hw

/-! ### Creating nodes -/

theorem Yields.append {n : Node} (hn : n.Shaped) (hv : ∀ v ∈ n.operands, S.low v ∧ S.plain v) :
    S.Yields (Edit.append n) fun id => S.low ⟨id, 0⟩ := by
  intro d hd hsize
  have hg := (Edit.append n).grows d
  unfold Edit.append at hg hsize ⊢
  dsimp only at hg hsize ⊢
  split
  · next h =>
    simp only [h, if_true, Edited.draft, Graph.size_push] at hg hsize
    refine ⟨hd.grow hg fun id m hid hm => ?_, S.low_new _ hd.size_le hsize⟩
    simp only [Graph.getElem?_push] at hm
    split at hm
    · cases hm; exact ⟨hn, hv⟩
    · exact absurd (Graph.lt_size_of_getElem? hm) (by omega)
  · exact ⟨hd, by simp [Error.FromRule]⟩

theorem Yields.canonicals {vs : List Value} (hv : ∀ v ∈ vs, S.low v) :
    S.Yields (vs.mapM Edit.canonical) fun ws => ∀ w ∈ ws, S.low w ∧ S.plain w := by
  induction vs with
  | nil => exact .pure (by simp)
  | cons v vs ih =>
    rw [List.mapM_cons]
    refine .bind (.canonical (hv v List.mem_cons_self)) fun w hw => ?_
    refine .bind (ih fun u hu => hv u (List.mem_cons_of_mem v hu)) fun ws hws => .pure ?_
    exact List.forall_mem_cons.2 ⟨hw, hws⟩

theorem Yields.add {n : Node} (hn : n.Shaped) (hv : ∀ v ∈ n.operands, S.low v) :
    S.Yields (Edit.add n) fun id => S.low ⟨id, 0⟩ :=
  .bind (.canonicals hv) fun _ hws => .append hn hws

end Scope

/-- The values that a request names are in a set. -/
def Instr.Within (low : Value → Prop) : Instr → Prop
  | .argument .. | .constant .. | .constantFp .. | .undef .. => True
  | .binary _ a b | .setcc a b .. | .buildPair a b _ | .extract a b | .extractAs a b _
  | .shuffle a b .. | .concat a b _ => low a ∧ low b
  | .unary _ v | .cast _ v _ => low v
  | .select a b c | .insert a b c => low a ∧ low b ∧ low c
  | .buildVector vs _ | .value _ vs .. => ∀ v ∈ vs, low v

theorem Instr.node_low {low : Value → Prop} {typeOf : Value → Except Fault ValueType} {i : Instr}
    {n : Node} (h : i.node typeOf = .ok n) (hi : Instr.Within low i) :
    n.Shaped ∧ ∀ v ∈ n.operands, low v := by
  have bound {x : Except Fault ValueType} {f : ValueType → Node}
      (h : (do return f (← x)) = Except.ok n) : ∃ t, n = f t := by
    cases x with
    | error e => cases h
    | ok t => exact ⟨t, by cases h; rfl⟩
  cases i with
  | binary | unary | select | extract | insert =>
    obtain ⟨t, rfl⟩ := bound h
    exact ⟨.inl rfl, by simp_all [Within]⟩
  | _ =>
    cases h
    exact ⟨.inl rfl, by simp_all [Within]⟩

theorem Instr.node_ne_cyclic {typeOf : Value → Except Fault ValueType}
    (h : ∀ v, typeOf v ≠ .error .cyclic) (i : Instr) : i.node typeOf ≠ .error .cyclic := by
  have bound {v : Value} {f : ValueType → Node} :
      (do return f (← typeOf v)) ≠ Except.error Fault.cyclic := by
    have hv := h v
    cases hx : typeOf v with
    | error e =>
      intro he
      cases he
      exact hv hx
    | ok t => exact nofun
  cases i with
  | binary | unary | select | extract | insert => exact bound
  | _ => exact nofun

namespace Scope

variable {S : Scope}

theorem flows_build {i : Instr} (hi : Instr.Within S.low i) : S.Flows (Edit.build i) := by
  refine Yields.bind .draft fun d _ =>
    Yields.bind (Yields.ofFault (Instr.node_ne_cyclic d.graph.typeOf_ne_cyclic i)) fun n hn => ?_
  obtain ⟨hshape, hlow⟩ := Instr.node_low hn hi
  exact .bind (.add hshape hlow) fun id hid => .pure hid

section Requests
variable {a b c : Value}

@[simp] theorem flows_argument (index offset : Nat) (t : ValueType) :
    S.Flows (Edit.argument index offset t) := flows_build trivial

@[simp] theorem flows_constant (bits : Nat) (t : ValueType) : S.Flows (Edit.constant bits t) :=
  flows_build trivial

@[simp] theorem flows_constantFp (bits : Nat) (t : ValueType) :
    S.Flows (Edit.constantFp bits t) := flows_build trivial

@[simp] theorem flows_undef (t : ValueType) : S.Flows (Edit.undef t) := flows_build trivial

@[simp] theorem flows_binary (op : Opcode) (ha : S.low a) (hb : S.low b) :
    S.Flows (Edit.binary op a b) := flows_build ⟨ha, hb⟩

@[simp] theorem flows_int (op : IntOp) (ha : S.low a) (hb : S.low b) :
    S.Flows (Edit.int op a b) := flows_build ⟨ha, hb⟩

@[simp] theorem flows_unary (op : Opcode) (ha : S.low a) : S.Flows (Edit.unary op a) :=
  flows_build ha

@[simp] theorem flows_cast (op : Opcode) (t : ValueType) (ha : S.low a) :
    S.Flows (Edit.cast op a t) := flows_build ha

@[simp] theorem flows_setcc (p : Condition) (t : ValueType) (ha : S.low a) (hb : S.low b) :
    S.Flows (Edit.setcc a b p t) := flows_build ⟨ha, hb⟩

@[simp] theorem flows_select (ha : S.low a) (hb : S.low b) (hc : S.low c) :
    S.Flows (Edit.select a b c) := flows_build ⟨ha, hb, hc⟩

@[simp] theorem flows_buildPair (t : ValueType) (ha : S.low a) (hb : S.low b) :
    S.Flows (Edit.buildPair a b t) := flows_build ⟨ha, hb⟩

@[simp] theorem flows_buildVector {vs : List Value} (t : ValueType) (h : ∀ v ∈ vs, S.low v) :
    S.Flows (Edit.buildVector vs t) := flows_build h

@[simp] theorem flows_extract (ha : S.low a) (hb : S.low b) : S.Flows (Edit.extract a b) :=
  flows_build ⟨ha, hb⟩

@[simp] theorem flows_extractAs (t : ValueType) (ha : S.low a) (hb : S.low b) :
    S.Flows (Edit.extractAs a b t) := flows_build ⟨ha, hb⟩

@[simp] theorem flows_insert (ha : S.low a) (hb : S.low b) (hc : S.low c) :
    S.Flows (Edit.insert a b c) := flows_build ⟨ha, hb, hc⟩

@[simp] theorem flows_shuffle (lanes : List (Option Nat)) (t : ValueType) (ha : S.low a)
    (hb : S.low b) : S.Flows (Edit.shuffle a b lanes t) := flows_build ⟨ha, hb⟩

@[simp] theorem flows_extractLane (T : Target) (lane : Nat) (ha : S.low a) :
    S.Flows (Edit.extractLane T a lane) :=
  flows_bind (flows_constant _ _) fun _ hi => flows_extract ha hi

end Requests

end Scope

end Dataflow.Legal
