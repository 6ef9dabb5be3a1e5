import Dataflow.Proofs.EditSpec
import Dataflow.Proofs.Order
import Dataflow.Proofs.Safety
import Dataflow.Proofs.WordLogic

/-!
# Isolated runs

A rule can be taken out of its run: started from a draft in which the values that it asks for are
at hand, with data of their own, it adds nodes, and evaluating these gives the data of what it
returns. Nothing is asked of the target, of the rest of the graph or of how the data came about.
-/

namespace Dataflow

/-- Evaluates the next `k` nodes. -/
def Graph.evaluateNext (g : Graph) (args : Array BitString) : Nat → Values →
    Except EvalError Values
  | 0, values => .ok values
  | k + 1, values => do
    let d ← Eval.node ⟨g, args, values⟩ values.size
    g.evaluateNext args k (values.push (some d))

/-- Evaluates the nodes of a graph after those that have been evaluated. -/
def Graph.evaluateFrom (g : Graph) (args : Array BitString) (values : Values) :
    Except EvalError Values :=
  g.evaluateNext args (g.size - values.size) values

namespace Eval

variable {g : Graph} {args : Array BitString} {values : Values} {k j : Nat}

/-- The data of the next `k` nodes, as far as they have any. -/
def fill (g : Graph) (args : Array BitString) : Nat → Values → Values
  | 0, values => values
  | k + 1, values =>
    fill g args k (values.push (node ⟨g, args, values⟩ values.size).toOption)

theorem getElem?_fill_of_lt (hj : j < values.size) : (fill g args k values)[j]? = values[j]? := by
  induction k generalizing values with
  | zero => rfl
  | succ k ih =>
    rw [fill, ih (by rw [Array.size_push]; omega), Array.getElem?_push_lt hj,
      Array.getElem?_eq_getElem hj]

/-- Every node is evaluated with the data of those before it. -/
theorem getElem?_fill (hj : values.size ≤ j) (hlt : j < values.size + k) :
    (fill g args k values)[j]? =
      some (node ⟨g, args, fill g args (j - values.size) values⟩ j).toOption := by
  induction k generalizing values with
  | zero => omega
  | succ k ih =>
    rcases Nat.eq_or_lt_of_le hj with rfl | hj
    · rw [fill, getElem?_fill_of_lt (by rw [Array.size_push]; omega), Array.getElem?_push_size,
        Nat.sub_self]
      rfl
    · have hsub : j - values.size = j - (values.size + 1) + 1 := by omega
      rw [fill, ih (by rw [Array.size_push]; omega) (by rw [Array.size_push]; omega), hsub, fill,
        Array.size_push]

theorem getElem?_fill_le {i : Nat} (hik : i ≤ k) (hj : j < values.size + i) :
    (fill g args k values)[j]? = (fill g args i values)[j]? := by
  by_cases hold : j < values.size
  · rw [getElem?_fill_of_lt hold, getElem?_fill_of_lt hold]
  · rw [getElem?_fill (by omega) (by omega), getElem?_fill (by omega) hj]

theorem evaluateNext_eq (h : ∀ j, values.size ≤ j → j < values.size + k →
      ∃ d, (fill g args k values)[j]? = some (some d)) :
    g.evaluateNext args k values = .ok (fill g args k values) := by
  induction k generalizing values with
  | zero => rfl
  | succ k ih =>
    obtain ⟨d, hd⟩ := h values.size (Nat.le_refl _) (by omega)
    rw [getElem?_fill (Nat.le_refl _) (by omega), Nat.sub_self] at hd
    simp only [fill] at hd
    cases hnode : node ⟨g, args, values⟩ values.size with
    | error e =>
      rw [hnode] at hd
      cases hd
    | ok d =>
      have hfill : fill g args (k + 1) values = fill g args k (values.push (some d)) := by
        rw [fill, hnode]
        rfl
      rw [hfill] at h ⊢
      rw [Graph.evaluateNext, hnode, ok_bind]
      exact ih fun j hj hlt => h j (by rw [Array.size_push] at hj; omega)
        (by rw [Array.size_push] at hlt; omega)

/-- The datum that evaluation finds for node `j`, from the data of the first nodes. -/
def found (g : Graph) (args : Array BitString) (values : Values) (j : Nat) : Option Datum :=
  (fill g args (g.size - values.size) values)[j]?.join

theorem found_of_lt (hj : j < values.size) : found g args values j = values[j]?.join := by
  rw [found, getElem?_fill_of_lt hj]

theorem found_of_value {e : Datum} (hj : values[j]? = some (some e)) :
    found g args values j = some e := by
  rw [found_of_lt (Array.getElem?_eq_some_iff.1 hj).1, hj, Option.join_some]

/-- A node that was added to a graph has the datum that it means, where its operands have data. -/
theorem found_eq_meaning {g₀ : Graph} (hg : g₀.Extends g) (hsize : values.size = g₀.size) {n : Node}
    {t : ValueType} {ts : List ValueType} {data : List Datum} {wide : ValueType → ValueType → Prop}
    (hj : g₀.size ≤ j) (hn : g.nodes[j]? = some n) (hres : n.results = [t])
    (hsig : Signature wide n.opcode ts t) (hreads : n.operands.map g.typeOf? = ts.map some)
    (hdata : n.operands.map (found g args values ·.node) = data.map some) :
    found g args values j = (n.meaning args data ts).toOption := by
  have hlt := Graph.lt_size_of_getElem? hn
  rw [found, getElem?_fill (by omega) (by omega), Option.join_some,
    node_eq_meaning hn hres hsig.sensible hreads]
  rw [← hdata]
  refine List.map_congr_left fun v hv => ?_
  have := hg.operand_lt hj hn hv
  rw [found, getElem?_fill_le (k := g.size - values.size) (i := j - values.size) (by omega)
    (by omega)]

/-- Evaluation gets through when every new node has a datum. -/
theorem evaluateFrom_eq (h : ∀ j, values.size ≤ j → j < g.size → (found g args values j).isSome) :
    g.evaluateFrom args values = .ok (fill g args (g.size - values.size) values) := by
  refine evaluateNext_eq fun j hj hlt => ?_
  obtain ⟨e, he⟩ := Option.isSome_iff_exists.1 (h j hj (by omega))
  exact ⟨e, Option.join_eq_some_iff.1 he⟩

end Eval

namespace Legal

/-- Redirections run in no circle and start from nodes of the graph. -/
structure Draft.Traceable (d : Draft) : Prop where
  descends : ∃ rank, d.replaced.Descends rank
  stands : ∀ v w, d.replaced.next? v = some w → v.node < d.graph.size

theorem Draft.traceable_of_replaced_eq {d : Draft} (h : d.replaced = {}) : d.Traceable := by
  have hnext (v w : Value) : d.replaced.next? v ≠ some w := by
    rw [h]
    intro hw
    cases hw
  exact ⟨⟨fun j => j, fun v w hw => absurd hw (hnext v w)⟩, fun v w hw => absurd hw (hnext v w)⟩

/-- Datum `e` of type `t` is at hand: it is the datum of the canonical form of `v`. -/
structure Draft.Has (d : Draft) (values : Values) (v : Value) (t : ValueType) (e : Datum) :
    Prop where
  type : d.graph.typeOf? (d.replaced.canon v) = some t
  value : values[(d.replaced.canon v).node]? = some (some e)
  fits : e.Fits t

/-- The word `x` of type `t` is at hand. -/
abbrev Draft.Holds (d : Draft) (values : Values) (v : Value) (t : ValueType) (x : Nat) : Prop :=
  d.Has values v t (.scalar x)

theorem Draft.Holds.lt {d : Draft} {values : Values} {v : Value} {t : ValueType} {x : Nat}
    (h : d.Holds values v t x) : x < 2 ^ t.bits :=
  (Datum.fits_scalar.1 h.fits).2

structure IsolatedRun where
  /-- The draft that the rule starts from. -/
  base : Draft
  /-- The graph that it leaves. -/
  final : Graph
  args : Array BitString
  /-- The data of the nodes that have any. -/
  val : Nat → Option Datum
  traceable : base.Traceable
  grown : base.graph.Extends final
  obeys : ∀ (j : Nat) n t ts data, base.graph.size ≤ j → final.nodes[j]? = some n →
    n.results = [t] → Signature (fun _ _ => False) n.opcode ts t →
    n.operands.map final.typeOf? = ts.map some → n.operands.map (val ·.node) = data.map some →
    val j = (n.meaning args data ts).toOption

namespace IsolatedRun

variable {B : IsolatedRun} {α β : Type}

def editSpec (B : IsolatedRun) : EditSpec where
  base := B.base
  final := B.final
  Good j _ := ∃ d, B.val j = some d
  Fails _ := False
  descends := B.traceable.descends

/-- `x` does not fail and adds nodes that have data; its result satisfies `Q`. -/
abbrev Meets (B : IsolatedRun) (x : Edit α) (Q : α → Prop) : Prop :=
  B.editSpec.Meets x Q

/-- A canonical value of type `t` with datum `x`. -/
structure Is (B : IsolatedRun) (v : Value) (t : ValueType) (x : Nat) : Prop where
  type : B.final.typeOf? v = some t
  val : B.val v.node = some (.scalar x)
  fits : (Datum.scalar x).Fits t
  canonical : B.base.replaced.canon v = v

theorem Is.lt {v : Value} {t : ValueType} {x : Nat} (h : B.Is v t x) : x < 2 ^ t.bits :=
  (Datum.fits_scalar.1 h.fits).2

/-! ### New nodes -/

theorem canon_new (B : IsolatedRun) {v : Value} (hv : B.base.graph.size ≤ v.node) :
    B.base.replaced.canon v = v := by
  obtain ⟨rank, hdesc⟩ := B.traceable.descends
  refine hdesc.canon_self ?_
  cases hnext : B.base.replaced.next? v with
  | none => rfl
  | some w => exact absurd (B.traceable.stands v w hnext) (Nat.not_lt_of_le hv)

/-- A requested node has the datum that it means. -/
theorem build {i : Instr} {op : Opcode} {vs : List Value} {attr : Attr} {t : ValueType} {x : Nat}
    (ts : List ValueType) (data : List Datum)
    (hi : i.node B.final.typeOf = .ok ⟨op, vs, [t], attr⟩)
    (hreads : vs.map B.final.typeOf? = ts.map some)
    (hdata : vs.map (B.val ·.node) = data.map some) (hcanon : ∀ v ∈ vs, B.base.replaced.canon v = v)
    (hsig : Signature (fun _ _ => False) op ts t)
    (hmean : Node.meaning B.args ⟨op, vs, [t], attr⟩ data ts = .ok (.scalar x))
    (hfits : (Datum.scalar x).Fits t) : B.Meets (Edit.build i) fun v => B.Is v t x := by
  have hupdate : B.base.replaced.update ⟨op, vs, [t], attr⟩ = ⟨op, vs, [t], attr⟩ := by
    rw [Replacements.update, List.map_congr_left (g := id) hcanon, List.map_id]
  have hval (id : Nat) (hid : B.base.graph.size ≤ id)
      (hat : B.final.nodes[id]? = some ⟨op, vs, [t], attr⟩) : B.val id = some (.scalar x) := by
    rw [B.obeys id _ t ts data hid hat rfl hsig hreads hdata, hmean]
    rfl
  refine (EditSpec.Meets.build (C := B.editSpec) (fun v hv => ?_) (fun id hid hat => ?_) hi).mono ?_
  · have hv : v ∈ vs := hv
    have hmem : B.final.typeOf? v ∈ ts.map some := hreads ▸ List.mem_map_of_mem hv
    obtain ⟨u, _, hu⟩ := List.mem_map.1 hmem
    show (B.final.typeOf? (B.base.replaced.canon v)).isSome = true
    rw [hcanon v hv, ← hu]
    rfl
  · exact ⟨_, hval id hid (hat.trans (congrArg some hupdate))⟩
  · rintro ⟨id, slot⟩ ⟨rfl, hid, hat⟩
    have hat : B.final.nodes[id]? = some ⟨op, vs, [t], attr⟩ := hat.trans (congrArg some hupdate)
    refine ⟨?_, hval id hid hat, hfits, B.canon_new hid⟩
    rw [Graph.typeOf?, hat]
    rfl

/-! ### Requests -/

section
variable {a b c : Value} {t u : ValueType} {x y k : Nat}

/-- A request for a node of the type of a value. -/
theorem Is.node_eq (h : B.Is a t x) (f : ValueType → Node) :
    (do return f (← B.final.typeOf a)) = Except.ok (f t) := by
  rw [typeOf_of_typeOf? h.type]
  rfl

theorem constant (ht : t.IsWord) (bits : Nat) :
    B.Meets (Edit.constant bits t) fun v => B.Is v t (bits % 2 ^ t.bits) := by
  have hlow : Word.low t.laneBits bits = bits % 2 ^ t.bits := by
    rw [Word.low_eq t.laneBits_le, ht.laneBits_eq]
  have hlt := Nat.mod_lt bits (Nat.two_pow_pos t.bits)
  refine build [] [] rfl rfl rfl (by simp) .constant ?_ (Datum.fits_scalar.2 ⟨ht.2, hlt⟩)
  rw [Node.meaning_literal (.inl rfl) ht.2, hlow, Nat.mod_eq_of_lt hlt]

theorem int {op : IntOp} (ht : t.IsWord) (ha : B.Is a t x) (hb : B.Is b t y) :
    B.Meets (Edit.int op a b) fun v => B.Is v t (Word.value op t.bits x y) :=
  build [t, t] [.scalar x, .scalar y] (ha.node_eq fun t => ⟨.int op, [a, b], [t], .none⟩)
    (by simp [ha.type, hb.type]) (by simp [ha.val, hb.val]) (by simp [ha.canonical, hb.canonical])
    (.int ht.1) (Node.meaning_int ht ha.lt hb.lt op _)
    (Datum.fits_scalar.2 ⟨ht.2, Word.value_lt op t.bits_pos ha.lt hb.lt⟩)

theorem count (ht : t.IsWord) (op : BitCount) (ha : B.Is a t x) :
    B.Meets (Edit.unary (.count op) a) fun v => B.Is v t (Word.count op t.bits x) :=
  build [t] [.scalar x] (ha.node_eq fun t => ⟨.count op, [a], [t], .none⟩) (by simp [ha.type])
    (by simp [ha.val]) (by simp [ha.canonical]) (.count ht.1) (Node.meaning_count ht ha.lt op _)
    (Datum.fits_scalar.2 ⟨ht.2, Word.count_lt ..⟩)

theorem setcc (ht : t.IsWord) (hu : u.IsWord) (p : Condition) (ha : B.Is a u x) (hb : B.Is b u y) :
    B.Meets (Edit.setcc a b p t) fun v => B.Is v t (p.test u.bits x y).toNat :=
  build [u, u] [.scalar x, .scalar y] rfl (by simp [ha.type, hb.type]) (by simp [ha.val, hb.val])
    (by simp [ha.canonical, hb.canonical]) (.setcc hu ht) (Node.meaning_setcc ht p x y)
    (Datum.fits_scalar.2 ⟨ht.2, Nat.lt_of_lt_of_le (Bool.toNat_lt _)
      (Nat.pow_le_pow_right Nat.two_pos t.bits_pos)⟩)

theorem select (hu : u.IsWord) (hc : B.Is c u k) (ha : B.Is a t x) (hb : B.Is b t y) :
    B.Meets (Edit.select c a b) fun v => B.Is v t (if k ≠ 0 then x else y) := by
  refine build [u, t, t] [.scalar k, .scalar x, .scalar y]
    (ha.node_eq fun t => ⟨.select, [c, a, b], [t], .none⟩) (by simp [hc.type, ha.type, hb.type])
    (by simp [hc.val, ha.val, hb.val]) (by simp [hc.canonical, ha.canonical, hb.canonical])
    (.select hu) ?_ ?_
  · rw [Node.meaning_select]
    split <;> rfl
  · split
    · exact ha.fits
    · exact hb.fits

/-- Casts of one word to another. -/
theorem cast {op : Opcode} (ht : t.IsWord) (ha : B.Is a u x)
    (hsig : Signature (fun _ _ => False) op [u] t)
    (hmean : ∀ types, types = [u] →
      Node.meaning B.args ⟨op, [a], [t], .none⟩ [.scalar x] types = .ok (.scalar y))
    (hy : y < 2 ^ t.bits) : B.Meets (Edit.cast op a t) fun v => B.Is v t y :=
  build [u] [.scalar x] rfl (by simp [ha.type]) (by simp [ha.val]) (by simp [ha.canonical]) hsig
    (hmean [u] rfl) (Datum.fits_scalar.2 ⟨ht.2, hy⟩)

theorem cut {op : Opcode} (hop : op = .truncate ∨ op = .zeroExtend ∨ op = .anyExtend)
    (ht : t.IsWord) (ha : B.Is a u x) (hsig : Signature (fun _ _ => False) op [u] t) :
    B.Meets (Edit.cast op a t) fun v => B.Is v t (x % 2 ^ t.bits) :=
  cast ht ha hsig (fun _ _ => Node.meaning_cut hop ht x _) (Nat.mod_lt _ (Nat.two_pow_pos _))

end

/-- Words in an isolated run. -/
def words (B : IsolatedRun) : WordLogic where
  sem := True
  Meets := B.Meets
  Is := B.Is
  Works _ t := t.IsWord
  Flag t := t.IsWord
  Product _ := True
  bind := .bind
  mono := .mono
  pure := .pure
  isWord h := h
  works_mono h _ := h
  works_flag h := h
  lt h _ := h.lt
  congr h hxy := hxy trivial ▸ h
  typeOf h := .typeOf h.type
  constant := constant
  intOf ht _ _ := int ht
  count := count
  setcc := setcc
  select hu _ := select hu
  truncate hu ht h ha _ := cut (.inl rfl) ht ha (.truncate hu ht h)
  zeroExtend hu ht h ha := cut (.inr (.inl rfl)) ht ha (.zeroExtend hu ht h)
  signExtend hu ht h ha := cast ht ha (.signExtend hu ht h)
    (fun _ htypes => htypes ▸ Node.meaning_signExtend ht hu h ha.lt)
    (Word.extend_lt (Nat.le_of_lt h) ha.lt)
  anyExtend hu ht h ha := (cut (.inr (.inr rfl)) ht ha (.anyExtend hu ht h)).mono fun _ hv =>
    ⟨_, hv, fun _ => by
      rw [Nat.mod_mod_of_dvd _ (Nat.pow_dvd_pow 2 (Nat.le_of_lt h)), Nat.mod_eq_of_lt ha.lt]⟩

/-! ### Runs -/

/-- The data that are known before the rule runs are those of the isolated run. -/
structure Starts (B : IsolatedRun) (d : Draft) (args : Array BitString) (values : Values) :
    Prop where
  base : B.base = d
  args : B.args = args
  val : ∀ j < d.graph.size, B.val j = values[j]?.join

/-- The data that the rule leaves are those of the isolated run. -/
structure Ends (B : IsolatedRun) (d : Draft) (values : Values) : Prop where
  final : B.final = d.graph
  val : ∀ j, B.val j = values[j]?.join
  canon : B.base.replaced.canon = d.replaced.canon

section
variable {d : Draft} {args : Array BitString} {values : Values} {v lo hi : Value} {t : ValueType}
  {x : Nat} {kind : ConversionKind}

theorem Starts.typeOf? (h : B.Starts d args values) (hv : d.graph.typeOf? v = some t) :
    B.final.typeOf? v = some t :=
  B.grown.typeOf? (h.base ▸ hv)

theorem Starts.is (h : B.Starts d args values) (hv : d.Holds values v t x) :
    B.Is (d.replaced.canon v) t x := by
  obtain ⟨rfl, rfl, hval⟩ := h
  obtain ⟨rank, hdesc⟩ := B.traceable.descends
  refine ⟨B.grown.typeOf? hv.type, ?_, hv.fits, hdesc.canon_canon v⟩
  rw [hval _ (Graph.lt_size_of_typeOf? hv.type), hv.value]
  rfl

theorem Ends.holds (h : B.Ends d values) (hv : B.Is v t x) : d.Holds values v t x := by
  rw [show v = B.base.replaced.canon v from hv.canonical.symm] at hv
  refine ⟨?_, ?_, hv.fits⟩
  · rw [← h.canon, ← h.final]
    exact hv.type
  · rw [← Option.join_eq_some_iff, ← h.canon, ← h.val]
    exact hv.val

theorem Starts.one (h : B.Starts d args values)
    (hc : d.conversions.get? (d.replaced.canon v) = some ⟨kind, .one lo⟩) :
    B.Meets (Edit.one kind (d.replaced.canon v)) (· = d.replaced.canon lo) := by
  obtain ⟨rfl, rfl, _⟩ := h
  obtain ⟨rank, hdesc⟩ := B.traceable.descends
  refine .bind (.canonical _) ?_
  rintro _ rfl
  refine EditSpec.Meets.currentOne (C := B.editSpec) ?_
  show B.base.conversions.get? (B.base.replaced.canon (B.base.replaced.canon v)) = _
  rw [hdesc.canon_canon, hc]

theorem Starts.two (h : B.Starts d args values)
    (hc : d.conversions.get? (d.replaced.canon v) = some ⟨kind, .two lo hi⟩) :
    B.Meets (Edit.two kind (d.replaced.canon v))
      (· = (d.replaced.canon lo, d.replaced.canon hi)) := by
  obtain ⟨rfl, rfl, _⟩ := h
  obtain ⟨rank, hdesc⟩ := B.traceable.descends
  refine .bind (.canonical _) ?_
  rintro _ rfl
  refine EditSpec.Meets.currentTwo (C := B.editSpec) ?_
  show B.base.conversions.get? (B.base.replaced.canon (B.base.replaced.canon v)) = _
  rw [hdesc.canon_canon, hc]

/-- The isolated run of a rule that leaves the graph `g`: every new node has the datum that
evaluation gives it. -/
def ofGraph (hd : d.Traceable) (args : Array BitString) (hsize : values.size = d.graph.size)
    {g : Graph} (hg : d.graph.Extends g) : IsolatedRun where
  base := d
  final := g
  args := args
  val := Eval.found g args values
  traceable := hd
  grown := hg
  obeys _ _ _ _ _ := Eval.found_eq_meaning hg hsize

/-- What is shown of every isolated run holds of the run of the rule, and of the evaluation of the
nodes that it adds. -/
theorem exists_run {α : Type} {x : Edit α} {Q : IsolatedRun → α → Prop} (hd : d.Traceable)
    (hsize : values.size = d.graph.size)
    (h : ∀ B : IsolatedRun, B.Starts d args values → B.Meets x (Q B)) :
    ∃ B a d' values', x.run d = .ok a d' ∧ d'.graph.evaluateFrom args values = .ok values' ∧
      Ends B d' values' ∧ Q B a := by
  have hg := x.grows d
  let B := ofGraph hd args hsize hg.graph
  have hstarts : B.Starts d args values := ⟨rfl, rfl, fun j hj => Eval.found_of_lt (by omega)⟩
  have hholds := (h B hstarts).holds rfl
  cases hr : x.run d with
  | error e d' =>
    rw [show x.run B.editSpec.base = x.run d from rfl, hr] at hholds
    exact hholds.elim
  | ok a d' =>
    rw [show x.run B.editSpec.base = x.run d from rfl, hr] at hholds
    rw [hr] at hg
    obtain ⟨hfresh, hQ⟩ := hholds
    have hfinal : B.final = d'.graph := by
      show (x.run d).draft.graph = d'.graph
      rw [hr]
      rfl
    obtain ⟨rank, hdesc⟩ := hd.descends
    refine ⟨B, a, d', Eval.fill d'.graph args (d'.graph.size - values.size) values, rfl, ?_,
      ⟨hfinal, fun j => ?_, (hdesc.canon_shortens hg.replaced).symm⟩, hQ⟩
    · refine Eval.evaluateFrom_eq fun j hj hlt => ?_
      have hn : d'.graph.nodes[j]? = some d'.graph.nodes[j] := Array.getElem?_eq_getElem hlt
      obtain ⟨e, he⟩ := hfresh j _ (hsize ▸ hj) hn
      rw [← hfinal]
      exact Option.isSome_iff_exists.2 ⟨e, he⟩
    · rw [← hfinal]
      rfl

end

end IsolatedRun

end Legal

end Dataflow
