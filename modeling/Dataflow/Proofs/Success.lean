import Dataflow.Proofs.Safety

/-!
# When evaluation succeeds

A graph whose operations are all total, apart from arguments and lane accesses, has a result exactly
when all arguments are supplied and all lanes exist. Indices are read as words of 64 bits, so an index
that does not fit into such a word may name a lane all the same.
-/

namespace Dataflow

/-- The vector and the index of a node that reads or writes one lane. -/
def Node.laneAccess? (n : Node) : Option (Value × Value) :=
  match n.opcode, n.operands with
  | .extractElement, [vector, index] => some (vector, index)
  | .insertElement, [vector, _, index] => some (vector, index)
  | _, _ => none

theorem Node.laneAccess?_eq_some {n : Node} {vector index : Value}
    (h : n.laneAccess? = some (vector, index)) :
    (n.opcode = .extractElement ∨ n.opcode = .insertElement) ∧ index ∈ n.operands := by
  unfold laneAccess? at h
  split at h
  · next hop hops =>
    cases h
    exact ⟨.inl hop, by simp [hops]⟩
  · next hop hops =>
    cases h
    exact ⟨.inr hop, by simp [hops]⟩
  · cases h

theorem Node.index_mem {n : Node} {vector index : Value}
    (h : n.laneAccess? = some (vector, index)) : index ∈ n.operands :=
  (n.laneAccess?_eq_some h).2

/-- Lane accesses report indices out of range only. -/
theorem Node.index_error {n : Node} {vector index : Value} {e : EvalError}
    (h : n.laneAccess? = some (vector, index)) (he : e.Reports n.opcode) :
    ∃ k t, e = .indexOutOfRange k t := by
  have hop := (n.laneAccess?_eq_some h).1
  cases e with
  | indexOutOfRange k t => exact ⟨k, t, rfl⟩
  | missingArgument _ =>
    have he : n.opcode = .argument := he
    simp [he] at hop
  | unsupported _ _ =>
    obtain ⟨_, _, he | ⟨f, he⟩⟩ := he <;> simp [he] at hop
  | _ => exact he.elim

theorem Sensible.index_of_extract {ts : List ValueType} {t : ValueType}
    (h : Sensible .extractElement ts t) : ∃ u i, ts = [u, i] ∧ i.IsWord := by
  rcases h with hsig | hlib | hroomy
  · cases hsig with
    | extractElement _ _ hi => exact ⟨_, _, rfl, hi⟩
  · cases hlib with
    | lane _ _ _ _ hi => exact ⟨_, _, rfl, hi⟩
  · cases hroomy with
    | extractElement _ _ _ hi => exact ⟨_, _, rfl, hi⟩

theorem Sensible.index_of_insert {ts : List ValueType} {t : ValueType}
    (h : Sensible .insertElement ts t) : ∃ e i, ts = [t, e, i] ∧ i.IsWord := by
  rcases h with hsig | hlib | hroomy
  · cases hsig with
    | insertElement _ _ hi => exact ⟨_, _, rfl, hi⟩
  · cases hlib with
    | element _ _ _ hi => exact ⟨_, _, rfl, hi⟩
  · cases hroomy with
    | insertElement _ _ _ hi => exact ⟨_, _, rfl, hi⟩

namespace Graph

open Eval

/-- Node `id` has datum `d`: so the data of its operands say. -/
inductive Yields (g : Graph) (args : List (ValueType × Datum)) : Nat → Datum → Prop
  | node {id : Nat} {n : Node} {data : Nat → Datum} {d : Datum} : g.nodes[id]? = some n →
    n.opcode ≠ .output → (∀ v ∈ n.operands, Yields g args v.node (data v.node)) →
    equation g (buffers args) (fun j => some (data j)) n = .ok d → Yields g args id d

variable {g : Graph} {root id : Nat} {n : Node} {V : Nat → Option Datum} {p : Nat → Prop}
  {args : List (ValueType × Datum)} {d d' : Datum}

theorem Yields.unique (h : g.Yields args id d) (h' : g.Yields args id d') : d = d' := by
  induction h generalizing d' with
  | @node id n data d hn _ _ hd ih =>
    cases h' with
    | @node _ n' data' _ hn' _ hops hd' =>
      cases hn.symm.trans hn'
      have hcongr : equation g (buffers args) (fun j => some (data j)) n =
          equation g (buffers args) (fun j => some (data' j)) n :=
        equation_congr fun v hv => congrArg some (ih v hv (hops v hv))
      rw [hcongr, hd'] at hd
      exact (Except.ok.inj hd).symm

/-- Operands have data in a solution. -/
theorem Evaluable.datum_of_solves (hg : g.Evaluable root) {args : Array BitString}
    (hV : Solves g args p V) (hn : g.nodes[id]? = some n) {v : Value} (hv : v ∈ n.operands)
    (hp : p v.node) : ∃ m d, g.nodes[v.node]? = some m ∧ V v.node = some d := by
  obtain ⟨_, t, ht⟩ := hg.built.operand hn hv
  obtain ⟨m, _, hm, hop, _⟩ := hg.operand_typed ht
  obtain ⟨d, _, hd⟩ := hV.datum v.node m hp hm hop
  exact ⟨m, d, hm, hd⟩

/-- The data of a solution are those of the nodes. -/
theorem Evaluable.yields_of_solves (hg : g.Evaluable root) (hV : Solves g (buffers args) p V)
    (hclosed : ∀ (id : Nat) n v, p id → g.nodes[id]? = some n → v ∈ n.operands → p v.node)
    (hid : p id) (hn : g.nodes[id]? = some n) (hd : V id = some d) : g.Yields args id d := by
  induction id using Nat.strong_induction_on generalizing n d with
  | _ id ih =>
  have hop : n.opcode ≠ .output := fun hop => by
    rw [(hV.output id n hid hn hop).1] at hd
    cases hd
  obtain ⟨e, he, hsome⟩ := hV.datum id n hid hn hop
  cases hd.symm.trans hsome
  have hdata (v : Value) (hv : v ∈ n.operands) : some ((V v.node).getD default) = V v.node := by
    obtain ⟨_, dv, _, hdv⟩ := hg.datum_of_solves hV hn hv (hclosed id n v hid hn hv)
    rw [hdv, Option.getD_some]
  refine @Yields.node g args id n (fun j => (V j).getD default) d hn hop (fun v hv => ?_) ?_
  · obtain ⟨m, _, hm, _⟩ := hg.datum_of_solves hV hn hv (hclosed id n v hid hn hv)
    exact ih v.node (hg.built.operand hn hv).1 (hclosed id n v hid hn hv) hm (hdata v hv).symm
  · exact (equation_congr hdata).trans he

/-- Every argument that the root needs is supplied. -/
def Supplied (g : Graph) (root : NodeId) (args : List (ValueType × Datum)) : Prop :=
  ∀ (id : Nat) n index offset, g.Reached .ok root id → g.nodes[id]? = some n →
    n.opcode = .argument → n.attr = .arg index offset → index < args.length

/-- Every lane that the root needs exists, where an index is taken for the lane `lane index`. -/
def Indexed (g : Graph) (root : NodeId) (args : List (ValueType × Datum)) (lane : Nat → Nat) :
    Prop :=
  ∀ (id : Nat) n vector index, g.Reached .ok root id → g.nodes[id]? = some n →
    n.laneAccess? = some (vector, index) →
    ∃ t k, g.typeOf? vector = some t ∧ g.Yields args index.node (.scalar k) ∧ lane k < t.lanes

/-- Well-typed graphs without arithmetic of double-doubles, in which shuffles read lanes that
exist. -/
structure Tame (g : Graph) (root : NodeId) : Prop extends Evaluable g root where
  float : ∀ (id : Nat) n, g.nodes[id]? = some n →
    (n.opcode = .fabs ∨ ∃ op, n.opcode = .float op) → .ppcf128 ∉ n.results
  mask : ∀ (id : Nat) n v u lanes l, g.nodes[id]? = some n → n.opcode = .vectorShuffle →
    v ∈ n.operands → g.typeOf? v = some u → n.attr = .mask lanes → some l ∈ lanes → l < 2 * u.lanes

theorem lane_iff {v w : Value} {u : ValueType} {x : Nat} (hv : g.typeOf? v = some u)
    (hw : V w.node = some (.scalar x)) :
    (∀ t k, some u = some t → some (Datum.scalar x) = some (.scalar k) → k % 2 ^ 64 < t.lanes) ↔
      ∃ t k, g.typeOf? v = some t ∧ V w.node = some (.scalar k) ∧ k % 2 ^ 64 < t.lanes := by
  rw [hv, hw]
  simp

/-- What a node of such a graph asks for. -/
theorem Tame.defined_iff (hg : g.Tame root) {ts : List ValueType} {data : List Datum}
    (hn : g.nodes[id]? = some n) (hreads : n.operands.map g.typeOf? = ts.map some)
    (hdata : n.operands.map (V ·.node) = data.map some) (hfits : List.Forall₂ Datum.Fits data ts) :
    n.Defined (buffers args) data ts ↔
      (∀ index offset, n.opcode = .argument → n.attr = .arg index offset → index < args.length) ∧
      ∀ vector index, n.laneAccess? = some (vector, index) → ∃ t k, g.typeOf? vector = some t ∧
        V index.node = some (.scalar k) ∧ k % 2 ^ 64 < t.lanes := by
  obtain ⟨ts', hreads', htyped, _⟩ := hg.nodes id n hn
  obtain rfl : ts = ts' := List.map_injective_iff.2 (Option.some_injective _) (hreads.symm.trans hreads')
  have hfloat := hg.float id n hn
  have hmask := hg.mask id n
  obtain ⟨op, ops, results, attr⟩ := n
  rcases htyped with ⟨hop, _⟩ | ⟨t, hres, hsig⟩
  · dsimp only at hop
    subst hop
    simp [Node.Defined, Node.laneAccess?]
  dsimp only at hres hsig hreads hdata hfloat hmask
  subst hres
  cases op with
  | argument => simp [Node.Defined, Node.laneAccess?, buffers]
  | extractElement =>
    obtain ⟨u, i, rfl, hi⟩ := hsig.index_of_extract
    obtain _ | ⟨_, _ | ⟨h₁, ⟨⟩⟩⟩ := hfits
    obtain ⟨x, rfl, _⟩ := h₁.eq_scalar hi.2
    obtain _ | ⟨v, _ | ⟨w, _ | _⟩⟩ := ops <;> simp only [List.map_cons, List.map_nil, List.cons.injEq,
      reduceCtorEq, and_true, and_false] at hreads hdata
    simpa [Node.Defined, Node.laneAccess?] using lane_iff hreads.1 hdata.2
  | insertElement =>
    obtain ⟨e, i, rfl, hi⟩ := hsig.index_of_insert
    obtain _ | ⟨_, _ | ⟨_, _ | ⟨h₂, ⟨⟩⟩⟩⟩ := hfits
    obtain ⟨x, rfl, _⟩ := h₂.eq_scalar hi.2
    obtain _ | ⟨v, _ | ⟨v', _ | ⟨w, _ | _⟩⟩⟩ := ops <;> simp only [List.map_cons, List.map_nil,
      List.cons.injEq, reduceCtorEq, and_true, and_false] at hreads hdata
    simpa [Node.Defined, Node.laneAccess?] using lane_iff hreads.1 hdata.2.2
  | vectorShuffle =>
    obtain ⟨u, u', rfl⟩ := List.length_eq_two.1 (hsig.length_eq rfl)
    obtain _ | ⟨v, ops⟩ := ops
    · cases hreads
    · have hv := (List.cons.inj hreads).1
      simp only [Node.laneAccess?, reduceCtorEq, false_implies, implies_true, and_self, iff_true]
      rintro u lanes l ⟨⟩ hattr hl
      exact hmask v _ lanes l hn rfl List.mem_cons_self hv hattr hl
  | float =>
    simp only [Node.laneAccess?, reduceCtorEq, false_implies, implies_true, and_self, iff_true]
    exact hfloat (.inr ⟨_, rfl⟩)
  | fabs =>
    simp only [Node.laneAccess?, reduceCtorEq, false_implies, implies_true, and_self, iff_true]
    exact hfloat (.inl rfl)
  | _ => simp [Node.Defined, Node.laneAccess?]

/-- A node that is evaluated is defined. -/
theorem Evaluable.defined_of_solves (hg : g.Evaluable root) {args : Array BitString}
    (hV : Solves g args p V)
    (hclosed : ∀ (id : Nat) n v, p id → g.nodes[id]? = some n → v ∈ n.operands → p v.node)
    (hid : p id) (hn : g.nodes[id]? = some n) :
    ∃ ts data, n.operands.map g.typeOf? = ts.map some ∧
      n.operands.map (V ·.node) = data.map some ∧ List.Forall₂ Datum.Fits data ts ∧
      n.Defined args data ts := by
  obtain ⟨ts, hreads, htyped, hequipped⟩ := hg.nodes id n hn
  obtain ⟨data, hdata, hfits⟩ := exists_data hreads fun v hv t ht =>
    hg.fits_of_solves hV hclosed (hclosed id n v hid hn hv) ht
  refine ⟨ts, data, hreads, hdata, hfits, ?_⟩
  rcases htyped with ⟨hop, _⟩ | ⟨t, hres, hsig⟩
  · unfold Node.Defined
    rw [hop]
    trivial
  · have hlen : n.operands.length = ts.length := by
      simpa only [List.length_map] using congrArg List.length hreads
    obtain ⟨d, hd, _⟩ := hV.datum id n hid hn hsig.ne_output
    rw [equation_eq_meaning hres hreads hdata] at hd
    rcases n.settles args hsig hres hequipped hlen hfits with ⟨hdef, _⟩ | ⟨_, e, he, _⟩
    · exact hdef
    · rw [he] at hd
      cases hd

/-- Where evaluation of such a graph fails: an argument is missing, or a lane. -/
theorem Tame.evaluate_eq_error (hg : g.Tame root) {e : EvalError}
    (he : g.evaluate args = .error e) :
    ¬ g.Supplied root args ∨ ¬ g.Indexed root args (· % 2 ^ 64) ∧
      ∃ k t, e = .indexOutOfRange k t := by
  obtain ⟨done, id, rest, V, n, ts, data, hneeded, hn, hreads, hV, hdata, hfits, hnot, hreports⟩ :=
    hg.toEvaluable.evaluate_eq_error he
  have hseq := hg.built.sequenced_needed hg.root_lt
  rw [hneeded] at hseq
  have hid : g.Reached .ok root id :=
    (hg.built.mem_needed_iff hg.root_lt id).1 (by simp [hneeded])
  rw [hg.defined_iff hn hreads hdata hfits, not_and_or] at hnot
  rcases hnot with harg | hlane
  · exact .inl fun hsupplied => harg fun index offset => hsupplied id n index offset hid hn
  simp only [not_forall] at hlane
  obtain ⟨vector, index, haccess, hlane⟩ := hlane
  refine .inr ⟨fun hindexed => hlane ?_, ?_⟩
  · obtain ⟨t, k, ht, hk, hlt⟩ := hindexed id n vector index hid hn haccess
    refine ⟨t, k, ht, ?_, hlt⟩
    have hmem := n.index_mem haccess
    have hdone := hseq.after done id rest rfl n index hn hmem
    obtain ⟨m, d, hm, hd⟩ := hg.datum_of_solves hV hn hmem hdone
    have hyields := hg.yields_of_solves hV (fun j m w hj hm hw => hseq.operand_mem hj hm hw)
      hdone hm hd
    rw [hd, hyields.unique hk]
  · exact n.index_error haccess hreports

/-- A graph has a result exactly when the arguments that it needs are supplied and the lanes that it
reads and writes exist, an index being read as a word of 64 bits. -/
theorem Tame.isOk_iff (hg : g.Tame root) (args : List (ValueType × Datum)) :
    (∃ bits, g.evaluate args = .ok bits) ↔
      g.Supplied root args ∧ g.Indexed root args (· % 2 ^ 64) := by
  have hclosed (id : Nat) (n : Node) (v : Value) (hid : g.Reached .ok root id)
      (hn : g.nodes[id]? = some n) (hv : v ∈ n.operands) : g.Reached .ok root v.node :=
    .operand hid hn hv rfl
  constructor
  · rintro ⟨bits, hbits⟩
    obtain ⟨V, _, hV, _⟩ := hg.evaluate_eq_ok hbits
    constructor
    · intro id n index offset hid hn hop hattr
      obtain ⟨ts, data, hreads, hdata, hfits, hdef⟩ := hg.defined_of_solves hV hclosed hid hn
      exact ((hg.defined_iff hn hreads hdata hfits).1 hdef).1 index offset hop hattr
    · intro id n vector index hid hn haccess
      obtain ⟨ts, data, hreads, hdata, hfits, hdef⟩ := hg.defined_of_solves hV hclosed hid hn
      obtain ⟨t, k, ht, hk, hlt⟩ :=
        ((hg.defined_iff hn hreads hdata hfits).1 hdef).2 vector index haccess
      have hindex := n.index_mem haccess
      have hreached := hclosed id n index hid hn hindex
      obtain ⟨m, _, hm, _⟩ := hg.datum_of_solves hV hn hindex hreached
      exact ⟨t, k, ht, hg.yields_of_solves hV hclosed hreached hm hk, hlt⟩
  · rintro ⟨hsupplied, hindexed⟩
    cases heval : g.evaluate args with
    | ok bits => exact ⟨bits, rfl⟩
    | error e =>
      rcases hg.evaluate_eq_error heval with hnot | ⟨hnot, _⟩
      · exact absurd hsupplied hnot
      · exact absurd hindexed hnot

/-- When evaluation of a well-typed graph succeeds: exactly when every argument that the root needs
is supplied and every lane that it reads or writes exists, where an index counts modulo `2 ^ 64`.
Where no index reaches `2 ^ 64`, it counts as it is. Once the arguments are supplied, any error is
that of an index out of range. -/
theorem evaluate_isOk_iff {g : Graph} {root : NodeId} (hg : g.Tame root)
    (args : List (ValueType × Datum)) :
    ((∃ bits, g.evaluate args = .ok bits) ↔
      g.Supplied root args ∧ g.Indexed root args (· % 2 ^ 64)) ∧
    ((∀ (id : Nat) n vector index k, g.Reached .ok root id → g.nodes[id]? = some n →
        n.laneAccess? = some (vector, index) → g.Yields args index.node (.scalar k) → k < 2 ^ 64) →
      ((∃ bits, g.evaluate args = .ok bits) ↔
        g.Supplied root args ∧ g.Indexed root args fun k => k)) ∧
    (g.Supplied root args → ∀ e, g.evaluate args = .error e → ∃ k t, e = .indexOutOfRange k t) := by
  refine ⟨hg.isOk_iff args, fun hsmall => ?_, fun hsupplied e he => ?_⟩
  · rw [hg.isOk_iff args]
    refine and_congr_right fun _ => ?_
    constructor
    · intro h id n vector index hid hn haccess
      obtain ⟨t, k, ht, hk, hlt⟩ := h id n vector index hid hn haccess
      dsimp only at hlt
      rw [Nat.mod_eq_of_lt (hsmall id n vector index k hid hn haccess hk)] at hlt
      exact ⟨t, k, ht, hk, hlt⟩
    · intro h id n vector index hid hn haccess
      obtain ⟨t, k, ht, hk, hlt⟩ := h id n vector index hid hn haccess
      exact ⟨t, k, ht, hk, Nat.lt_of_le_of_lt (Nat.mod_le k _) hlt⟩
  · rcases hg.evaluate_eq_error he with hnot | ⟨_, herror⟩
    · exact absurd hsupplied hnot
    · exact herror

/-- A lane of an argument, at an index of 128 bits. -/
def pickedLane : Graph :=
  ((((Graph.empty.push { opcode := .argument, results := [.v4i32], attr := .arg 0 0 }).push
    { opcode := .argument, results := [.i128], attr := .arg 1 0 }).push
    { opcode := .extractElement, operands := [⟨0, 0⟩, ⟨1, 0⟩], results := [.i32] }).push
    { opcode := .output, operands := [⟨2, 0⟩], attr := .widths [32] }).setRoot 3

theorem pickedLane_cases (hn : pickedLane.nodes[id]? = some n) :
    id = 0 ∨ id = 1 ∨ id = 2 ∨ id = 3 := by
  have hlt : id < 4 := lt_size_of_getElem? hn
  omega

theorem tame_pickedLane : pickedLane.Tame 3 := by
  have hbuilt : pickedLane.Built := built_of_pushAll? 3 rfl
  refine ⟨⟨hbuilt, rfl, ⟨_, rfl, rfl⟩, fun id n hn => ?_⟩, fun id n hn hop => ?_,
    fun id n v u lanes l hn hop => ?_⟩
  all_goals
    obtain rfl | rfl | rfl | rfl := pickedLane_cases hn
  all_goals cases hn
  · exact ⟨[], rfl, .inr ⟨.v4i32, rfl, .inl .argument⟩, 0, 0, rfl, by decide⟩
  · exact ⟨[], rfl, .inr ⟨.i128, rfl, .inl .argument⟩, 1, 0, rfl, by decide⟩
  · refine ⟨[.v4i32, .i128], rfl, .inr ⟨.i32, rfl, .inl ?_⟩, trivial⟩
    exact .extractElement rfl (.inl rfl) (by decide)
  · exact ⟨[.i32], rfl, .inl ⟨rfl, rfl⟩, trivial⟩
  iterate 4 rcases hop with hop | ⟨_, hop⟩ <;> cases hop
  all_goals cases hop

set_option maxRecDepth 4000 in
/-- There is no lane 7. -/
theorem evaluate_isOk_iff_pickedLane :
    pickedLane.Tame 3 ∧
    pickedLane.Supplied 3 [(.v4i32, .vector [5, 6, 7, 8]), (.i128, .scalar 7)] ∧
    ¬ pickedLane.Indexed 3 [(.v4i32, .vector [5, 6, 7, 8]), (.i128, .scalar 7)] (· % 2 ^ 64) := by
  have hsupplied : pickedLane.Supplied 3 [(.v4i32, .vector [5, 6, 7, 8]), (.i128, .scalar 7)] := by
    intro id n index offset _ hn hop hattr
    obtain rfl | rfl | rfl | rfl := pickedLane_cases hn
    all_goals cases hn
    · cases hattr
      decide
    · cases hattr
      decide
    · cases hop
    · cases hop
  refine ⟨tame_pickedLane, hsupplied, fun hindexed => ?_⟩
  obtain ⟨bits, hbits⟩ := (evaluate_isOk_iff tame_pickedLane _).1.2 ⟨hsupplied, hindexed⟩
  cases hbits

set_option maxRecDepth 4000 in
/-- Index `2 ^ 64` reads lane 0. -/
theorem evaluate_pickedLane_wraps :
    pickedLane.Tame 3 ∧
    pickedLane.evaluate [(.v4i32, .vector [5, 6, 7, 8]), (.i128, .scalar (2 ^ 64))] =
      .ok (.ofNumber 32 5) ∧
    ¬ pickedLane.Indexed 3 [(.v4i32, .vector [5, 6, 7, 8]), (.i128, .scalar (2 ^ 64))] fun k => k := by
  refine ⟨tame_pickedLane, rfl, fun hindexed => ?_⟩
  have hyields : pickedLane.Yields [(.v4i32, .vector [5, 6, 7, 8]), (.i128, .scalar (2 ^ 64))] 1
      (.scalar (2 ^ 64)) :=
    @Yields.node _ _ 1 _ (fun _ => default) _ rfl (by decide) (fun v hv => by cases hv) rfl
  have hreached : pickedLane.Reached .ok 3 2 :=
    .operand (v := ⟨2, 0⟩) .root rfl List.mem_cons_self rfl
  obtain ⟨t, k, ht, hk, hlt⟩ := hindexed 2 _ ⟨0, 0⟩ ⟨1, 0⟩ hreached rfl rfl
  cases ht
  cases hk.unique hyields
  exact absurd hlt (by decide)

end Graph

end Dataflow
