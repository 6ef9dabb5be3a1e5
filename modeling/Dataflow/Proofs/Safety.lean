import Dataflow.Proofs.Definedness
import Dataflow.Proofs.Extraction

/-!
# Safe evaluation

Evaluation of a well-typed graph keeps every datum within its type, so no operation meets an operand
that it cannot handle. It ends with the bits that the output observes or with an error that says
what is missing: an argument, a lane, or arithmetic of double-doubles.
-/

namespace Dataflow

theorem mapM_congr {α β ε : Type} {f f' : α → Except ε β} {xs : List α}
    (h : ∀ x ∈ xs, f x = f' x) : xs.mapM f = xs.mapM f' := by
  induction xs with
  | nil => rfl
  | cons x xs ih =>
    rw [List.mapM_cons, List.mapM_cons, h x List.mem_cons_self,
      ih fun y hy => h y (List.mem_cons_of_mem x hy)]

theorem exists_mapM_eq_ok {α β ε : Type} {f : α → Except ε β} {xs : List α}
    (h : ∀ x ∈ xs, ∃ y, f x = .ok y) : ∃ ys, xs.mapM f = .ok ys := by
  cases hm : xs.mapM f with
  | ok ys => exact ⟨ys, rfl⟩
  | error e =>
    obtain ⟨x, hx, he⟩ := mapM_eq_error hm
    obtain ⟨y, hy⟩ := h x hx
    rw [hy] at he
    cases he

theorem exists_bind_eq_ok {α β ε : Type} {x : Except ε α} {f : α → Except ε β}
    (hx : ∃ a, x = .ok a) (hf : ∀ a, ∃ b, f a = .ok b) : ∃ b, (x >>= f) = .ok b := by
  obtain ⟨a, rfl⟩ := hx
  exact hf a

/-- A run over a list that fails does so at some element. -/
theorem foldlM_eq_error {α σ ε : Type} {f : σ → α → Except ε σ} {l : List α} {s : σ} {e : ε}
    (h : l.foldlM f s = .error e) :
    ∃ done a rest s', l = done ++ a :: rest ∧ done.foldlM f s = .ok s' ∧ f s' a = .error e := by
  induction l generalizing s with
  | nil => cases h
  | cons a l ih =>
    rw [List.foldlM_cons] at h
    cases hs : f s a with
    | error e' =>
      rw [hs] at h
      cases h
      exact ⟨[], a, l, s, rfl, rfl, hs⟩
    | ok s₁ =>
      rw [hs, ok_bind] at h
      obtain ⟨done, b, rest, s', rfl, hdone, hb⟩ := ih h
      exact ⟨a :: done, b, rest, s', rfl, by rw [List.foldlM_cons, hs, ok_bind, hdone], hb⟩

theorem EvalError.Reports.cases {e : EvalError} {op : Opcode} (h : e.Reports op) :
    (∃ index, e = .missingArgument index) ∨ (∃ index t, e = .indexOutOfRange index t) ∨
      ∃ op, e = .unsupported op .ppcf128 ∧ (op = .fabs ∨ ∃ f, op = .float f) := by
  cases e with
  | missingArgument index => exact .inl ⟨index, rfl⟩
  | indexOutOfRange index t => exact .inr (.inl ⟨index, t, rfl⟩)
  | unsupported op' t =>
    obtain ⟨rfl, rfl, hop⟩ := h
    exact .inr (.inr ⟨op', rfl, hop⟩)
  | _ => exact h.elim

/-- The number of bits that an output observes of each operand: its width, or all of it. -/
def Node.outputWidths (n : Node) (types : List ValueType) : List Nat :=
  types.mapIdx fun i t => ((n.widths?.getD [])[i]?).getD t.bits

namespace Eval

variable {g : Graph} {args : Array BitString} {V : Nat → Option Datum} {n : Node} {id : Nat}
  {t : ValueType} {ts : List ValueType} {data : List Datum}

/-! ### Equations and meanings -/

theorem typeAt_eq (hreads : n.operands.map g.typeOf? = ts.map some) (t : ValueType) (i : Nat) :
    typeAt g n t i = .ok (ts[i]?.getD t) := by
  have hget := congrArg (·[i]?) hreads
  simp only [List.getElem?_map] at hget
  unfold typeAt
  cases hv : n.operands[i]? with
  | none =>
    rw [hv] at hget
    rw [Option.map_eq_none_iff.1 hget.symm]
    rfl
  | some v =>
    rw [hv, Option.map_some] at hget
    obtain ⟨u, hu, hv'⟩ := Option.map_eq_some_iff.1 hget.symm
    rw [Option.elim_some, Graph.typeOf, ← hv', hu]
    rfl

theorem reads_eq (hdata : n.operands.map (V ·.node) = data.map some) (i : Nat) :
    reads V n i = data[i]?.elim (.error (.missingOperand 0 i)) .ok := by
  have hget := congrArg (·[i]?) hdata
  simp only [List.getElem?_map] at hget
  unfold reads
  cases hv : n.operands[i]? with
  | none =>
    rw [hv] at hget
    rw [Option.map_eq_none_iff.1 hget.symm]
    rfl
  | some v =>
    rw [hv, Option.map_some] at hget
    obtain ⟨d, hd, hv'⟩ := Option.map_eq_some_iff.1 hget.symm
    rw [Option.bind_some, ← hv', hd]

/-- The equation of a node is its meaning at the data of its operands. -/
theorem equation_eq_meaning (hres : n.results = [t])
    (hreads : n.operands.map g.typeOf? = ts.map some)
    (hdata : n.operands.map (V ·.node) = data.map some) :
    equation g args V n = n.meaning args data ts := by
  simp only [equation, Node.resultType?, Node.meaning, hres, List.head?_cons, Option.elim_some]
  rw [funext (reads_eq hdata), funext (typeAt_eq hreads t)]

/-- A node whose types make sense looks at operands that it has. -/
theorem compute_congr (hsig : Sensible n.opcode ts t) (hlen : n.operands.length = ts.length)
    {op op' : Nat → Except EvalError Datum} {ot ot' : Nat → Except Fault ValueType}
    (hop : ∀ i < ts.length, op i = op' i) (hot : ∀ i < ts.length, ot i = ot' i) :
    compute args n t op ot = compute args n t op' ot' := by
  obtain ⟨opcode, operands, results, attr⟩ := n
  dsimp only at hsig hlen
  unfold compute
  dsimp only
  cases opcode with
  | argument | constant | constantFp | undef | output => rfl
  | buildVector =>
    dsimp only
    rw [hlen, mapM_congr fun i hi => by rw [hop i (List.mem_range.1 hi)]]
  | select | insertElement =>
    have hthree := hsig.length_eq rfl
    simp only [hop 0 (by omega), hop 1 (by omega), hop 2 (by omega)]
  | int | float | fcopysign | setcc | buildPair | extractElement | vectorShuffle | concatVectors =>
    have htwo := hsig.length_eq rfl
    simp only [hop 0 (by omega), hop 1 (by omega), hot 0 (by omega), hot 1 (by omega)]
  | count | fneg | fabs | zeroExtend | signExtend | anyExtend | truncate | bitcast | fpRound =>
    have hone := hsig.length_eq rfl
    simp only [hop 0 (by omega), hot 0 (by omega)]

theorem node_eq_meaning {values : Values} (hn : g.nodes[id]? = some n) (hres : n.results = [t])
    (hsig : Sensible n.opcode ts t) (hreads : n.operands.map g.typeOf? = ts.map some)
    (hdata : n.operands.map (fun v => values[v.node]?.join) = data.map some) :
    node ⟨g, args, values⟩ id = n.meaning args data ts := by
  have hlen : n.operands.length = ts.length := by
    simpa only [List.length_map] using congrArg List.length hreads
  have hoperand (i : Nat) (hi : i < ts.length) : Context.operand ⟨g, args, values⟩ id n i =
      data[i]?.elim (.error (.missingOperand 0 i)) .ok := by
    have hget := congrArg (·[i]?) hdata
    simp only [List.getElem?_map, List.getElem?_eq_getElem (hlen ▸ hi : i < n.operands.length),
      Option.map_some] at hget
    obtain ⟨d, hd, hv⟩ := Option.map_eq_some_iff.1 hget.symm
    simp only [Context.operand, List.getElem?_eq_getElem (hlen ▸ hi : i < n.operands.length),
      ← hv, hd]
    rfl
  have htype (i : Nat) (_ : i < ts.length) : Context.operandType ⟨g, args, values⟩ n t i =
      .ok (ts[i]?.getD t) := by
    rw [← typeAt_eq hreads t i]
    unfold Context.operandType typeAt
    cases n.operands[i]? <;> rfl
  unfold node
  simp only [Graph.node_of_getElem? hn, liftM_ok, ok_bind, Node.resultType?, hres,
    List.head?_cons]
  rw [compute_congr hsig hlen hoperand htype]
  simp only [Node.meaning, hres]

theorem Sequenced.left {done rest : List Nat} (h : Sequenced g (done ++ rest)) :
    Sequenced g done where
  nodup := (List.nodup_append.1 h.nodup).1
  stands j hj := h.stands j (List.mem_append_left _ hj)
  after l j r heq := h.after l j (r ++ rest) (by rw [heq]; simp)

/-- What evaluation has found after the nodes `done`. -/
theorem Sequenced.after_foldlM {done rest : List Nat} {s : State} (h : Sequenced g (done ++ rest))
    (hs : done.foldlM (step g args) { values := Array.replicate g.size none } = .ok s) :
    ∃ V, Solves g args (· ∈ done) V ∧ After g V done s := by
  have hstart : After g (fun _ => none) [] { values := Array.replicate g.size none } :=
    ⟨Array.size_replicate, by simp, fun j _ => Graph.join_replicate_none g.size j, rfl⟩
  exact hstart.of_foldlM h.left ⟨by simp, by simp⟩ (fun _ _ => rfl) hs

/-! ### Output -/

theorem length_resize (s : BitString) (w : Nat) : (s.resize w).length = w := by
  simp only [BitString.resize, BitString.length, List.length_append, List.length_take,
    List.length_replicate]
  omega

theorem length_join (l : List BitString) :
    (BitString.join l).length = (l.map BitString.length).sum := by
  induction l with
  | nil => rfl
  | cons s l ih =>
    rw [List.map_cons, List.sum_cons, ← ih]
    exact List.length_append

theorem length_observes (hreads : n.operands.map g.typeOf? = ts.map some) {b : BitString}
    (hb : observes g V n = .ok b) : b.length = (n.outputWidths ts).sum := by
  unfold observes at hb
  obtain ⟨parts, hparts, hb⟩ := bind_eq_ok_iff.1 hb
  cases hb
  rw [length_join]
  congr 1
  obtain ⟨hlen, hget⟩ := mapM_eq_ok hparts
  refine List.ext_getElem? fun i => ?_
  rw [List.getElem?_map, Node.outputWidths, List.getElem?_mapIdx]
  have htype := congrArg (·[i]?) hreads
  simp only [List.getElem?_map] at htype
  cases hp : parts[i]? with
  | none =>
    have hge : n.operands.length ≤ i := by
      rw [← List.length_zipIdx (l := n.operands), ← hlen]
      exact List.getElem?_eq_none_iff.1 hp
    rw [List.getElem?_eq_none hge] at htype
    rw [Option.map_eq_none_iff.1 htype.symm]
    rfl
  | some part =>
    obtain ⟨⟨v, j⟩, hv, hpart⟩ := hget i part hp
    rw [List.getElem?_zipIdx] at hv
    obtain ⟨v', hv', heq⟩ := Option.map_eq_some_iff.1 hv
    cases heq
    rw [hv', Option.map_some] at htype
    obtain ⟨t, ht, hvt⟩ := Option.map_eq_some_iff.1 htype.symm
    simp only [Graph.typeOf, ← hvt, liftM_ok, ok_bind] at hpart
    obtain ⟨d, _, hpart⟩ := bind_eq_ok_iff.1 hpart
    cases hpart
    rw [ht, Option.map_some, Option.map_some, length_resize, Nat.zero_add]

/-- An output whose operands have data observes them. -/
theorem observed_eq_ok (args : Array BitString) (id : Nat) {values : Values}
    (hreads : n.operands.map g.typeOf? = ts.map some)
    (hdata : n.operands.map (fun v => values[v.node]?.join) = data.map some) :
    ∃ b, observed ⟨g, args, values⟩ id n = .ok b := by
  unfold observed
  refine exists_bind_eq_ok (exists_mapM_eq_ok fun p hp => ?_) fun parts => ⟨_, rfl⟩
  obtain ⟨v, i⟩ := p
  have hv : n.operands[i]? = some v := List.mem_zipIdx_iff_getElem?.1 hp
  have htype := congrArg (·[i]?) hreads
  have hdatum := congrArg (·[i]?) hdata
  simp only [List.getElem?_map, hv, Option.map_some] at htype hdatum
  obtain ⟨t, _, ht⟩ := Option.map_eq_some_iff.1 htype.symm
  obtain ⟨d, _, hd⟩ := Option.map_eq_some_iff.1 hdatum.symm
  refine exists_bind_eq_ok ⟨t, ?_⟩ fun t => exists_bind_eq_ok ⟨d, ?_⟩ fun d => ⟨_, rfl⟩
  · rw [Graph.typeOf, ← ht]
    rfl
  · simp only [Context.operand, hv, ← hd]

end Eval

namespace Graph

open Eval

/-! ### Well-typed graphs -/

/-- The root is an output. Every node reads earlier values of types at which its operation makes
sense, and has the attribute that the operation asks for. -/
structure Evaluable (g : Graph) (root : NodeId) : Prop where
  built : g.Built
  root_eq : g.root = some root
  output : ∃ n, g.nodes[root]? = some n ∧ n.opcode = .output
  nodes : ∀ (id : Nat) n, g.nodes[id]? = some n → ∃ ts, n.operands.map g.typeOf? = ts.map some ∧
    n.Conforms Sensible ts ∧ n.Equipped

variable {g : Graph} {root id : Nat} {n : Node} {ts : List ValueType} {V : Nat → Option Datum}
  {args : Array BitString} {p : Nat → Prop}

/-- The data of operands, each of its type. -/
theorem exists_data {vs : List Value} (hreads : vs.map g.typeOf? = ts.map some)
    (h : ∀ v ∈ vs, ∀ t, g.typeOf? v = some t → ∃ d, V v.node = some d ∧ d.Fits t) :
    ∃ data, vs.map (V ·.node) = data.map some ∧ List.Forall₂ Datum.Fits data ts := by
  induction vs generalizing ts with
  | nil =>
    obtain rfl : ts = [] := by simpa using hreads.symm
    exact ⟨[], rfl, .nil⟩
  | cons v vs ih =>
    cases ts with
    | nil => cases hreads
    | cons t ts =>
      rw [List.map_cons, List.map_cons, List.cons.injEq] at hreads
      obtain ⟨d, hd, hfits⟩ := h v List.mem_cons_self t hreads.1
      obtain ⟨data, hdata, hall⟩ := ih hreads.2 fun w hw => h w (List.mem_cons_of_mem v hw)
      exact ⟨d :: data, by rw [List.map_cons, List.map_cons, hd, hdata], .cons hfits hall⟩

/-- Where the root is the only output that it reaches, the result is what the root observes. -/
theorem Built.join_contributions_root (hg : g.Built) (hn : g.nodes[root]? = some n)
    (hop : n.opcode = .output) (honly : ∀ (id : Nat) m, g.Reached .ok root id →
      g.nodes[id]? = some m → m.opcode = .output → id = root)
    {b : BitString} (hb : observes g V n = .ok b) :
    BitString.join ((g.needed root).map (contribution g V)) = b := by
  have hlt := lt_size_of_getElem? hn
  have hfilter : (g.needed root).filter g.isOutput = [root] := by
    apply eq_of_pairwise_lt ((g.pairwise_needed root).filter _) (List.pairwise_singleton _ _)
    intro j
    rw [List.mem_filter, hg.mem_needed_iff hlt, List.mem_singleton]
    constructor
    · rintro ⟨hreached, hj⟩
      cases hm : g.nodes[j]? with
      | none => simp [isOutput, hm] at hj
      | some m =>
        simp only [isOutput, hm, Option.any_some, decide_eq_true_eq] at hj
        exact honly j m hreached hm hj
    · rintro rfl
      exact ⟨.root, by simp [isOutput, hn, hop]⟩
  rw [join_contributions, hfilter, List.map_singleton, contribution_output hn hop hb]
  exact BitString.append_empty b

namespace Evaluable

theorem root_lt (hg : g.Evaluable root) : root < g.size := by
  obtain ⟨n, hn, _⟩ := hg.output
  exact lt_size_of_getElem? hn

/-- What is read is not an output. -/
theorem operand_typed (hg : g.Evaluable root) {v : Value} {t : ValueType}
    (ht : g.typeOf? v = some t) : ∃ m ts, g.nodes[v.node]? = some m ∧ m.opcode ≠ .output ∧
      m.operands.map g.typeOf? = ts.map some ∧ m.results = [t] ∧
      Sensible m.opcode ts t ∧ m.Equipped := by
  obtain ⟨m, hm, hslot⟩ := Option.bind_eq_some_iff.1 ht
  obtain ⟨ts, hreads, htyped, hequipped⟩ := hg.nodes _ m hm
  rcases htyped with ⟨_, hres⟩ | ⟨u, hres, hsig⟩
  · rw [hres] at hslot
    cases hslot
  · have hu : u = t := by
      rw [hres] at hslot
      exact (List.mem_singleton.1 (List.mem_of_getElem? hslot)).symm
    subst hu
    exact ⟨m, ts, hm, hsig.ne_output, hreads, hres, hsig, hequipped⟩

/-- Other outputs are dead: nothing reads them. -/
theorem eq_root_of_output (hg : g.Evaluable root) (hid : g.Reached .ok root id)
    (hn : g.nodes[id]? = some n) (hop : n.opcode = .output) : id = root := by
  cases hid with
  | root => rfl
  | operand _ hm hv hw =>
    cases hw
    obtain ⟨_, t, ht⟩ := hg.built.operand hm hv
    obtain ⟨m, _, hm', hne, _⟩ := hg.operand_typed ht
    rw [hn] at hm'
    cases hm'
    exact absurd hop hne

/-- Solutions are within the types. -/
theorem fits_of_solves (hg : g.Evaluable root) (hV : Solves g args p V)
    (hclosed : ∀ (id : Nat) n v, p id → g.nodes[id]? = some n → v ∈ n.operands → p v.node)
    {v : Value} {t : ValueType} (hv : p v.node) (ht : g.typeOf? v = some t) :
    ∃ d, V v.node = some d ∧ d.Fits t := by
  induction hid : v.node using Nat.strong_induction_on generalizing v t with
  | _ id ih =>
  subst hid
  obtain ⟨m, ts, hm, hop, hreads, hres, hsig, hequipped⟩ := hg.operand_typed ht
  obtain ⟨d, hd, hsome⟩ := hV.datum v.node m hv hm hop
  obtain ⟨data, hdata, hfits⟩ := exists_data hreads fun w hw u hu =>
    ih w.node (hg.built.operand hm hw).1 (hclosed _ m w hv hm hw) hu rfl
  have hlen : m.operands.length = ts.length := by
    simpa only [List.length_map] using congrArg List.length hreads
  rw [equation_eq_meaning hres hreads hdata] at hd
  rcases m.settles args hsig hres hequipped hlen hfits with ⟨_, e, he, hfit⟩ | ⟨_, e, he, _⟩
  · rw [he] at hd
    cases hd
    exact ⟨_, hsome, hfit⟩
  · rw [he] at hd
    cases hd

/-- The result is what the root observes. -/
theorem evaluate_eq_ok (hg : g.Evaluable root) {args : List (ValueType × Datum)} {bits : BitString}
    (hbits : g.evaluate args = .ok bits) : ∃ V n, Solves g (buffers args) (g.Reached .ok root) V ∧
      g.nodes[root]? = some n ∧ n.opcode = .output ∧ observes g V n = .ok bits := by
  obtain ⟨V, hV, rfl⟩ := (hg.built.evaluate_eq_ok_iff hg.root_eq hg.root_lt args bits).1 hbits
  obtain ⟨n, hn, hop⟩ := hg.output
  obtain ⟨_, b, hb⟩ := hV.output root n .root hn hop
  refine ⟨V, n, hV, hn, hop, ?_⟩
  rw [hg.built.join_contributions_root hn hop (fun _ _ => hg.eq_root_of_output) hb, hb]

/-- Where evaluation stands before the next node: the operands of the node have data of their
types. -/
theorem head (hg : g.Evaluable root) {done rest : List Nat} {s : State}
    (hneeded : g.needed root = done ++ id :: rest)
    (hs : done.foldlM (step g args) { values := Array.replicate g.size none } = .ok s) :
    ∃ V n ts data, g.nodes[id]? = some n ∧ n.operands.map g.typeOf? = ts.map some ∧
      n.Conforms Sensible ts ∧ n.Equipped ∧ Solves g args (· ∈ done) V ∧ After g V done s ∧
      n.operands.map (V ·.node) = data.map some ∧ List.Forall₂ Datum.Fits data ts := by
  have hseq := hg.built.sequenced_needed hg.root_lt
  rw [hneeded] at hseq
  obtain ⟨V, hV, hafter⟩ := hseq.after_foldlM hs
  obtain ⟨n, hn⟩ := hseq.stands id (by simp)
  obtain ⟨ts, hreads, htyped, hequipped⟩ := hg.nodes id n hn
  obtain ⟨data, hdata, hfits⟩ := exists_data hreads fun v hv t ht =>
    hg.fits_of_solves hV (fun j m w hj hm hw => hseq.operand_mem hj hm hw)
      (hseq.after done id rest rfl n v hn hv) ht
  exact ⟨V, n, ts, data, hn, hreads, htyped, hequipped, hV, hafter, hdata, hfits⟩

/-- Evaluation fails only at a node that is not defined at the data of its operands. -/
theorem step_eq_error (hg : g.Evaluable root) {done rest : List Nat} {s : State} {e : EvalError}
    (hneeded : g.needed root = done ++ id :: rest)
    (hs : done.foldlM (step g args) { values := Array.replicate g.size none } = .ok s)
    (he : step g args s id = .error e) :
    ∃ V n ts data, g.nodes[id]? = some n ∧ n.operands.map g.typeOf? = ts.map some ∧
      Solves g args (· ∈ done) V ∧ n.operands.map (V ·.node) = data.map some ∧
      List.Forall₂ Datum.Fits data ts ∧ ¬ n.Defined args data ts ∧ e.Reports n.opcode := by
  obtain ⟨V, n, ts, data, hn, hreads, htyped, hequipped, hV, hafter, hdata, hfits⟩ :=
    hg.head hneeded hs
  have hseq := hg.built.sequenced_needed hg.root_lt
  rw [hneeded] at hseq
  have hvalues : n.operands.map (fun v => s.values[v.node]?.join) = data.map some := by
    rw [← hdata]
    exact List.map_congr_left fun v hv => hafter.known _ (hseq.after done id rest rfl n v hn hv)
  refine ⟨V, n, ts, data, hn, hreads, hV, hdata, hfits, ?_⟩
  unfold step at he
  rw [Graph.node_of_getElem? hn, liftM_ok, ok_bind] at he
  dsimp only at he
  rcases htyped with ⟨hop, _⟩ | ⟨t, hres, hsig⟩
  · obtain ⟨b, hb⟩ := observed_eq_ok args id hreads hvalues
    rw [if_pos hop, hb] at he
    cases he
  · have hlen : n.operands.length = ts.length := by
      simpa only [List.length_map] using congrArg List.length hreads
    rw [if_neg hsig.ne_output, node_eq_meaning hn hres hsig hreads hvalues] at he
    rcases n.settles args hsig hres hequipped hlen hfits with
      ⟨_, d, hd, _⟩ | ⟨hnot, e', he', hreported⟩
    · rw [hd] at he
      cases he
    · rw [he'] at he
      cases he
      exact ⟨hnot, hreported⟩

/-- An evaluation that fails does so at a node that is not defined. -/
theorem evaluate_eq_error (hg : g.Evaluable root) {args : List (ValueType × Datum)} {e : EvalError}
    (he : g.evaluate args = .error e) :
    ∃ done id rest V n ts data, g.needed root = done ++ id :: rest ∧ g.nodes[id]? = some n ∧
      n.operands.map g.typeOf? = ts.map some ∧ Solves g (buffers args) (· ∈ done) V ∧
      n.operands.map (V ·.node) = data.map some ∧ List.Forall₂ Datum.Fits data ts ∧
      ¬ n.Defined (buffers args) data ts ∧ e.Reports n.opcode := by
  rw [evaluate_eq hg.root_eq hg.root_lt] at he
  cases hrun : (g.needed root).foldlM (step g (buffers args))
      { values := Array.replicate g.size none } with
  | ok s =>
    rw [hrun] at he
    cases he
  | error e' =>
    rw [hrun] at he
    cases he
    obtain ⟨done, id, rest, s, hneeded, hs, hstep⟩ := foldlM_eq_error hrun
    obtain ⟨V, n, ts, data, h⟩ := hg.step_eq_error hneeded hs hstep
    exact ⟨done, id, rest, V, n, ts, data, hneeded, h⟩

end Evaluable

/-- Evaluation passes through state `s`, after some of the nodes that the root needs. -/
def Passes (g : Graph) (root : NodeId) (args : List (ValueType × Datum)) (s : State) : Prop :=
  ∃ done rest, g.needed root = done ++ rest ∧
    done.foldlM (step g (buffers args)) { values := Array.replicate g.size none } = .ok s

/-- Evaluation of a well-typed graph is safe for all arguments, whatever their types and lanes are.
Every datum that it computes has the lanes of its type, each within the lane width. A result has the
observed number of bits, and an error says that an argument is missing, that a lane does not exist
or that a double-double has no arithmetic; it is never a fault. -/
theorem evaluate_safe {g : Graph} {root : NodeId} (hg : g.Evaluable root)
    (args : List (ValueType × Datum)) :
    (∀ s, g.Passes root args s → ∀ (id : Nat) d, s.values[id]? = some (some d) →
      ∃ t, g.typeOf? ⟨id, 0⟩ = some t ∧ d.lanes.length = t.laneCount ∧
        ∀ x ∈ d.lanes, x < 2 ^ t.laneBits) ∧
    (∀ bits, g.evaluate args = .ok bits → ∃ n ts, g.nodes[root]? = some n ∧
      n.operands.map g.typeOf? = ts.map some ∧ bits.length = (n.outputWidths ts).sum) ∧
    ∀ e, g.evaluate args = .error e → (∃ index, e = .missingArgument index) ∨
      (∃ index t, e = .indexOutOfRange index t) ∨
      ∃ op, e = .unsupported op .ppcf128 ∧ (op = .fabs ∨ ∃ f, op = .float f) := by
  refine ⟨fun s ⟨done, rest, hneeded, hs⟩ id d hd => ?_, fun bits hbits => ?_, fun e he => ?_⟩
  · have hseq := hg.built.sequenced_needed hg.root_lt
    rw [hneeded] at hseq
    obtain ⟨V, hV, hafter⟩ := hseq.after_foldlM hs
    have hdone : id ∈ done := Classical.byContradiction fun hnot => by
      have := hafter.unknown id hnot
      rw [hd] at this
      cases this
    have hsome : V id = some d := by rw [← hafter.known id hdone, hd]; rfl
    obtain ⟨n, hn⟩ := hseq.stands id (List.mem_append_left _ hdone)
    obtain ⟨ts, hreads, htyped, _⟩ := hg.nodes id n hn
    rcases htyped with ⟨hop, _⟩ | ⟨t, hres, _⟩
    · rw [(hV.output id n hdone hn hop).1] at hsome
      cases hsome
    · have ht : g.typeOf? ⟨id, 0⟩ = some t := by simp [typeOf?, hn, hres]
      obtain ⟨d', hd', hfits⟩ := hg.fits_of_solves hV
        (fun j m w hj hm hw => hseq.operand_mem hj hm hw) (v := ⟨id, 0⟩) hdone ht
      rw [hsome] at hd'
      cases hd'
      exact ⟨t, ht, hfits.length, hfits.lt⟩
  · obtain ⟨V, n, _, hn, _, hb⟩ := hg.evaluate_eq_ok hbits
    obtain ⟨ts, hreads, _⟩ := hg.nodes root n hn
    exact ⟨n, ts, hn, hreads, length_observes hreads hb⟩
  · obtain ⟨_, _, _, _, _, _, _, _, _, _, _, _, _, _, hreported⟩ := hg.evaluate_eq_error he
    exact hreported.cases

/-- A lane of an argument, read into a wider word and extended, of which 100 bits are observed. -/
def widenedLane : Graph :=
  (((((Graph.empty.push { opcode := .argument, results := [.v4i32], attr := .arg 0 0 }).push
    { opcode := .argument, results := [.i128], attr := .arg 1 0 }).push
    { opcode := .extractElement, operands := [⟨0, 0⟩, ⟨1, 0⟩], results := [.i64] }).push
    { opcode := .anyExtend, operands := [⟨2, 0⟩], results := [.i128] }).push
    { opcode := .output, operands := [⟨3, 0⟩], attr := .widths [100] }).setRoot 4

theorem evaluable_widenedLane : widenedLane.Evaluable 4 := by
  have hbuilt : widenedLane.Built := built_of_pushAll? 4 rfl
  refine ⟨hbuilt, rfl, ⟨_, rfl, rfl⟩, fun id n hn => ?_⟩
  have hlt : id < 5 := lt_size_of_getElem? hn
  obtain rfl | rfl | rfl | rfl | rfl : id = 0 ∨ id = 1 ∨ id = 2 ∨ id = 3 ∨ id = 4 := by omega
  all_goals cases hn
  · exact ⟨[], rfl, .inr ⟨.v4i32, rfl, .inl .argument⟩, 0, 0, rfl, by decide⟩
  · exact ⟨[], rfl, .inr ⟨.i128, rfl, .inl .argument⟩, 1, 0, rfl, by decide⟩
  · refine ⟨[.v4i32, .i128], rfl, .inr ⟨.i64, rfl, .inr (.inr ?_)⟩, trivial⟩
    exact .extractElement rfl rfl (by decide) (by decide)
  · refine ⟨[.i64], rfl, .inr ⟨.i128, rfl, .inl ?_⟩, trivial⟩
    exact .anyExtend (by decide) (by decide) (by decide)
  · exact ⟨[.i128], rfl, .inl ⟨rfl, rfl⟩, trivial⟩

/-- Lanes beyond their width and an index of another type are cut to what is asked for. -/
theorem evaluate_safe_widenedLane :
    widenedLane.Evaluable 4 ∧ ∃ bits, widenedLane.evaluate
      [(.v4i32, .vector [7, 8, 2 ^ 40 + 9]), (.i8, .scalar 2)] = .ok bits ∧ bits.length = 100 := by
  obtain ⟨bits, hbits⟩ : ∃ bits, widenedLane.evaluate
      [(.v4i32, .vector [7, 8, 2 ^ 40 + 9]), (.i8, .scalar 2)] = .ok bits := ⟨_, rfl⟩
  obtain ⟨n, ts, hn, hreads, hlen⟩ := (evaluate_safe evaluable_widenedLane _).2.1 bits hbits
  cases hn
  cases ts with
  | nil => cases hreads
  | cons t ts =>
    cases ts with
    | cons => cases hreads
    | nil => exact ⟨evaluable_widenedLane, bits, hbits, hlen⟩

end Graph

end Dataflow
