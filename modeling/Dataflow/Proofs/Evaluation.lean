import Dataflow.Eval
import Dataflow.Proofs.Data
import Dataflow.Proofs.Isomorphism

/-!
# Evaluation as equations

Evaluation goes over the nodes in their order. It succeeds exactly when some valuation solves the
equations of all nodes that the root reaches, and its result is what the outputs observe. Equations
say nothing about numbers, so graphs that are the same up to names have the same solutions.
-/

namespace Dataflow

/-! ### Marks -/

namespace Graph

variable {g : Graph} {root id : Nat} {marks : Array Bool}

theorem foldl_mark (vs : List Value) (marks : Array Bool) :
    (vs.foldl (fun ms v => ms.setIfInBounds v.node true) marks).size = marks.size ∧
    ∀ j : Nat, (vs.foldl (fun ms v => ms.setIfInBounds v.node true) marks)[j]? = some true ↔
      marks[j]? = some true ∨ j < marks.size ∧ ∃ v ∈ vs, v.node = j := by
  induction vs generalizing marks with
  | nil => simp
  | cons v vs ih =>
    obtain ⟨hsize, hmark⟩ := ih (marks.setIfInBounds v.node true)
    rw [List.foldl_cons]
    refine ⟨by rw [hsize, Array.size_setIfInBounds], fun j => ?_⟩
    rw [hmark, Array.getElem?_setIfInBounds, Array.size_setIfInBounds]
    by_cases hv : v.node = j
    · by_cases hj : j < marks.size <;> simp [hv, hj]
    · simp [hv]

/-- What a sweep from node `i - 1` down makes of marks: the least set that holds them and that the
swept nodes' operands do not leave. -/
structure Sweeps (g : Graph) (i : Nat) (marks swept : Array Bool) : Prop where
  kept : ∀ j : Nat, marks[j]? = some true → swept[j]? = some true
  above : ∀ j : Nat, i ≤ j → swept[j]? = some true → marks[j]? = some true
  closed : ∀ (j : Nat) n v, j < i → swept[j]? = some true → g.nodes[j]? = some n →
    v ∈ n.operands → swept[v.node]? = some true
  least : ∀ P : Nat → Prop, (∀ j : Nat, marks[j]? = some true → P j) →
    (∀ (j : Nat) n v, P j → g.nodes[j]? = some n → v ∈ n.operands → P v.node) →
    ∀ j : Nat, swept[j]? = some true → P j

/-- Operands come before their users, so nothing is missed. -/
theorem Built.sweeps (hg : g.Built) (i : Nat) (marks : Array Bool) (hsize : marks.size = g.size) :
    g.Sweeps i marks (g.markOperands i marks) := by
  induction i generalizing marks with
  | zero => exact ⟨fun _ h => h, fun _ _ h => h, by simp, fun _ h _ => h⟩
  | succ i ih =>
    unfold markOperands
    by_cases hi : marks[i]? = some true
    · rw [if_pos hi]
      have hlt : i < g.size := hsize ▸ (Array.getElem?_eq_some_iff.1 hi).1
      obtain ⟨n, hn⟩ : ∃ n, g.nodes[i]? = some n := ⟨_, Array.getElem?_eq_getElem hlt⟩
      simp only [hn, Option.map_some, Option.getD_some]
      obtain ⟨hsize', hmark⟩ := foldl_mark n.operands marks
      have hs := ih _ (hsize'.trans hsize)
      have hoperand (v : Value) (hv : v ∈ n.operands) : v.node < i ∧ v.node < marks.size := by
        obtain ⟨hlt', t, ht⟩ := hg.operand hn hv
        exact ⟨hlt', hsize ▸ lt_size_of_typeOf? ht⟩
      refine ⟨fun j hj => hs.kept j ((hmark j).2 (.inl hj)), fun j hij hj => ?_,
        fun j m v hj hswept hm hv => ?_, fun P hmarks hclosed => ?_⟩
      · rcases (hmark j).1 (hs.above j (by omega) hj) with hj | ⟨_, v, hv, rfl⟩
        · exact hj
        · have := (hoperand v hv).1
          omega
      · by_cases heq : j = i
        · subst heq
          rw [hn] at hm
          cases hm
          exact hs.kept _ ((hmark v.node).2 (.inr ⟨(hoperand v hv).2, v, hv, rfl⟩))
        · exact hs.closed j m v (by omega) hswept hm hv
      · apply hs.least P _ hclosed
        intro j hj
        rcases (hmark j).1 hj with hj | ⟨_, v, hv, rfl⟩
        · exact hmarks j hj
        · exact hclosed i n v (hmarks i hi) hn hv
    · rw [if_neg hi]
      have hs := ih marks hsize
      refine ⟨hs.kept, fun j hij => hs.above j (by omega), fun j m v hj hswept hm hv => ?_, hs.least⟩
      have hne : j ≠ i := fun heq => hi (hs.above i (Nat.le_refl i) (heq ▸ hswept))
      exact hs.closed j m v (by omega) hswept hm hv

/-- The marked nodes are those that the root reaches. -/
theorem Built.reachable_iff (hg : g.Built) (hroot : root < g.size) (id : Nat) :
    (g.reachable root)[id]?.getD false = true ↔ g.Reached .ok root id := by
  have hgetD (mark : Option Bool) : mark.getD false = true ↔ mark = some true := by
    cases mark <;> simp
  have hstart (j : Nat) : ((Array.replicate g.size false).setIfInBounds root true)[j]? = some true ↔
      j = root := by
    rw [Array.getElem?_setIfInBounds, Array.getElem?_replicate]
    by_cases hj : root = j
    · simp [← hj, hroot]
    · by_cases hlt : j < g.size <;> simp [hj, hlt, Ne.symm hj]
  have hs := hg.sweeps g.size _ (by simp : ((Array.replicate g.size false).setIfInBounds root
    true).size = g.size)
  rw [hgetD]
  constructor
  · intro hid
    refine hs.least (g.Reached .ok root) (fun j hj => ?_) (fun j n v hj hn hv => ?_) id hid
    · rw [(hstart j).1 hj]
      exact .root
    · exact .operand hj hn hv rfl
  · intro hid
    induction hid with
    | root => exact hs.kept root ((hstart root).2 rfl)
    | operand hj hn hv hw ih =>
      cases hw
      exact hs.closed _ _ _ (lt_size_of_getElem? hn) ih hn hv

end Graph

/-! ### Results that agree -/

namespace Eval

variable {α β ε : Type}

/-- Where `x` has a result, `y` has the same. -/
def Agrees (x y : Except ε α) : Prop :=
  ∀ a, x = .ok a → y = .ok a

theorem Agrees.refl (x : Except ε α) : Agrees x x :=
  fun _ h => h

theorem Agrees.of_error {e : ε} {y : Except ε α} : Agrees (.error e) y := by
  intro a h
  cases h

theorem Agrees.bind {x y : Except ε α} {f f' : α → Except ε β} (hx : Agrees x y)
    (hf : ∀ a, Agrees (f a) (f' a)) : Agrees (x >>= f) (y >>= f') := by
  intro b h
  cases hxa : x with
  | error e =>
    rw [hxa] at h
    cases h
  | ok a =>
    rw [hxa] at h
    rw [hx a hxa]
    exact hf a b h

theorem Agrees.lift {x y : Except Fault α} (h : Agrees x y) :
    Agrees (liftM x : Except EvalError α) (liftM y) := by
  intro a ha
  cases hx : x with
  | error f =>
    rw [hx] at ha
    cases ha
  | ok b =>
    rw [hx] at ha
    rw [h b hx]
    exact ha

theorem Agrees.mapM {f f' : α → Except ε β} {xs : List α} (h : ∀ x ∈ xs, Agrees (f x) (f' x)) :
    Agrees (xs.mapM f) (xs.mapM f') := by
  induction xs with
  | nil => exact .refl _
  | cons x xs ih =>
    rw [List.mapM_cons, List.mapM_cons]
    refine .bind (h x List.mem_cons_self) fun y => .bind (ih fun z hz => ?_) fun ys => .refl _
    exact h z (List.mem_cons_of_mem x hz)

/-- The datum of a node is determined by its operands' data and types. -/
theorem compute_agrees (args : Array BitString) (n : Node) {vs : List Value}
    (hlen : vs.length = n.operands.length) (t : ValueType)
    {op op' : Nat → Except EvalError Datum} {ot ot' : Nat → Except Fault ValueType}
    (hop : ∀ i, Agrees (op i) (op' i)) (hot : ∀ i, Agrees (ot i) (ot' i)) :
    Agrees (compute args n t op ot) (compute args { n with operands := vs } t op' ot') := by
  cases n with | mk opcode operands results attr =>
  have hbinary (f : Datum → Datum → Except EvalError Datum) :
      Agrees (do f (← op 0) (← op 1)) (do f (← op' 0) (← op' 1)) :=
    .bind (hop 0) fun _ => .bind (hop 1) fun _ => .refl _
  have hunary (f : Datum → Except EvalError Datum) :
      Agrees (do f (← op 0)) (do f (← op' 0)) :=
    .bind (hop 0) fun _ => .refl _
  unfold compute
  dsimp only at hlen ⊢
  cases opcode with
  | argument => exact .refl _
  | constant => exact .refl _
  | constantFp => exact .refl _
  | undef => exact .refl _
  | int o =>
    dsimp only
    by_cases ht : t.isInt = true
    · rw [if_pos ht, if_pos ht]
      exact hbinary _
    · rw [if_neg ht, if_neg ht]
      exact .refl _
  | float o => exact hbinary _
  | fcopysign => exact hbinary _
  | fneg => exact hunary _
  | fabs =>
    dsimp only
    by_cases ht : t.scalar = .ppcf128
    · rw [if_pos ht, if_pos ht]
      exact .refl _
    · rw [if_neg ht, if_neg ht]
      exact hunary _
  | count o => exact hunary _
  | setcc =>
    dsimp only
    by_cases ht : t.isVector = true
    · rw [if_pos ht, if_pos ht]
      exact .refl _
    · rw [if_neg ht, if_neg ht]
      cases attr with
      | cond c =>
        exact .bind (hot 0).lift fun _ => .bind (hop 0) fun _ => .bind (.refl _) fun _ =>
          .bind (hop 1) fun _ => .refl _
      | _ => exact .refl _
  | select =>
    refine .bind (hop 0) fun _ => .bind (.refl _) fun k => ?_
    by_cases hk : k ≠ 0
    · rw [if_pos hk, if_pos hk]
      exact hop 1
    · rw [if_neg hk, if_neg hk]
      exact hop 2
  | zeroExtend => exact hunary _
  | anyExtend => exact hunary _
  | truncate => exact hunary _
  | signExtend => exact .bind (hot 0).lift fun _ => hunary _
  | bitcast => exact .bind (hop 0) fun _ => .bind (hot 0).lift fun _ => .refl _
  | buildPair =>
    exact .bind (hop 0) fun _ => .bind (hot 0).lift fun _ => .bind (hop 1) fun _ =>
      .bind (hot 1).lift fun _ => .refl _
  | fpRound =>
    exact .bind (hop 0) fun _ => .bind (.refl _) fun _ => .bind (hot 0).lift fun _ => .refl _
  | buildVector =>
    dsimp only
    rw [hlen]
    exact .bind (.mapM fun i _ => .bind (hop i) fun _ => .refl _) fun _ => .refl _
  | extractElement =>
    exact .bind (hop 0) fun _ => .bind (hop 1) fun _ => .bind (.refl _) fun _ =>
      .bind (hot 0).lift fun _ => .refl _
  | insertElement =>
    exact .bind (hop 0) fun _ => .bind (hop 1) fun _ => .bind (.refl _) fun _ =>
      .bind (hop 2) fun _ => .refl _
  | vectorShuffle => exact .bind (hop 0) fun _ => .bind (hop 1) fun _ => .refl _
  | concatVectors => exact hbinary _
  | output => exact .refl _

/-! ### Equations -/

/-- The datum that operand `i` of a node has in a valuation. -/
def reads (V : Nat → Option Datum) (n : Node) (i : Nat) : Except EvalError Datum :=
  ((n.operands[i]?).bind (V ·.node)).elim (.error (.missingOperand 0 i)) .ok

/-- The type of operand `i` of a node, or `t` when there is none. -/
def typeAt (g : Graph) (n : Node) (t : ValueType) (i : Nat) : Except Fault ValueType :=
  (n.operands[i]?).elim (.ok t) g.typeOf

/-- The datum that a valuation of the other nodes gives a node. -/
def equation (g : Graph) (args : Array BitString) (V : Nat → Option Datum) (n : Node) :
    Except EvalError Datum :=
  n.resultType?.elim (.error (.unsupported n.opcode .i1)) fun t =>
    compute args n t (reads V n) (typeAt g n t)

/-- The bits that an output observes in a valuation. -/
def observes (g : Graph) (V : Nat → Option Datum) (n : Node) : Except EvalError BitString := do
  let parts ← n.operands.zipIdx.mapM fun p => do
    let t ← g.typeOf p.1
    let d ← reads V n p.2
    return (BitString.ofDatum d t).resize ((n.widths?.getD [])[p.2]?.getD t.bits)
  return .join parts

/-- The bits that a node adds to the result. -/
def contribution (g : Graph) (V : Nat → Option Datum) (id : Nat) : BitString :=
  (g.nodes[id]?).elim .empty fun n =>
    if n.opcode = .output then (observes g V n).toOption.getD .empty else .empty

/-- The bits of the arguments. -/
def buffers (args : List (ValueType × Datum)) : Array BitString :=
  (args.map fun a => BitString.ofDatum a.2 a.1).toArray

/-- A valuation solves the equations of the nodes in `p`. Outputs have no data. -/
structure Solves (g : Graph) (args : Array BitString) (p : Nat → Prop)
    (V : Nat → Option Datum) : Prop where
  datum : ∀ (id : Nat) n, p id → g.nodes[id]? = some n → n.opcode ≠ .output →
    ∃ d, equation g args V n = .ok d ∧ V id = some d
  output : ∀ (id : Nat) n, p id → g.nodes[id]? = some n → n.opcode = .output →
    V id = none ∧ ∃ b, observes g V n = .ok b

section
variable {g : Graph} {args : Array BitString} {V V' : Nat → Option Datum} {n : Node} {id : Nat}

theorem reads_congr (h : ∀ v ∈ n.operands, V' v.node = V v.node) : reads V' n = reads V n := by
  funext i
  unfold reads
  cases hv : n.operands[i]? with
  | none => rfl
  | some v => simp only [Option.bind_some, h v (List.mem_of_getElem? hv)]

theorem equation_congr (h : ∀ v ∈ n.operands, V' v.node = V v.node) :
    equation g args V' n = equation g args V n := by
  unfold equation
  rw [reads_congr h]

theorem observes_congr (h : ∀ v ∈ n.operands, V' v.node = V v.node) :
    observes g V' n = observes g V n := by
  unfold observes
  rw [reads_congr h]

theorem foldl_append_eq (l : List BitString) (s : BitString) :
    l.foldl (· ++ ·) s = s ++ .join l := by
  induction l generalizing s with
  | nil => exact (BitString.append_empty s).symm
  | cons t l ih =>
    rw [List.foldl_cons, ih, BitString.append_assoc]
    rfl

theorem operand_agrees (g : Graph) (args : Array BitString) (id : Nat) {values : Values}
    (h : ∀ v ∈ n.operands, values[v.node]?.join = V v.node) (i : Nat) :
    Agrees (Context.operand ⟨g, args, values⟩ id n i) (reads V n i) ∧
      Agrees (reads V n i) (Context.operand ⟨g, args, values⟩ id n i) := by
  unfold Context.operand reads
  cases hv : n.operands[i]? with
  | none => exact ⟨.of_error, .of_error⟩
  | some v =>
    dsimp only
    rw [h v (List.mem_of_getElem? hv), Option.bind_some]
    cases V v.node with
    | none => exact ⟨.of_error, .of_error⟩
    | some d => exact ⟨.refl _, .refl _⟩

/-- Evaluation of a node is its equation. -/
theorem node_eq_ok_iff {values : Values} (hn : g.nodes[id]? = some n)
    (h : ∀ v ∈ n.operands, values[v.node]?.join = V v.node) (d : Datum) :
    node ⟨g, args, values⟩ id = .ok d ↔ equation g args V n = .ok d := by
  have htype (t : ValueType) : Context.operandType ⟨g, args, values⟩ n t = typeAt g n t := by
    funext i
    unfold Context.operandType typeAt
    cases n.operands[i]? <;> rfl
  have hnode : node ⟨g, args, values⟩ id =
      n.resultType?.elim (.error (.unsupported n.opcode .i1)) fun t => compute args n t
        (Context.operand ⟨g, args, values⟩ id n) (Context.operandType ⟨g, args, values⟩ n t) := by
    unfold node
    dsimp only
    rw [Graph.node_of_getElem? hn, liftM_ok, ok_bind]
    cases n.resultType? <;> rfl
  rw [hnode]
  unfold equation
  cases n.resultType? with
  | none => exact ⟨Agrees.of_error d, Agrees.of_error d⟩
  | some t =>
    have hagrees := operand_agrees g args id h
    rw [Option.elim_some, Option.elim_some, htype]
    constructor
    · exact compute_agrees args n rfl t (fun i => (hagrees i).1) (fun i => .refl _) d
    · exact compute_agrees args n rfl t (fun i => (hagrees i).2) (fun i => .refl _) d

/-- Observation of an output reads the valuation. -/
theorem observed_eq_ok_iff {values : Values}
    (h : ∀ v ∈ n.operands, values[v.node]?.join = V v.node) (b : BitString) :
    observed ⟨g, args, values⟩ id n = .ok b ↔ observes g V n = .ok b := by
  have hagrees := operand_agrees g args id h
  unfold observed observes
  simp only [foldl_append_eq, BitString.empty_append]
  constructor
  · exact Agrees.bind (.mapM fun p _ => .bind (.refl _) fun t => .bind (hagrees p.2).1 fun d =>
      .refl _) (fun _ => .refl _) b
  · exact Agrees.bind (.mapM fun p _ => .bind (.refl _) fun t => .bind (hagrees p.2).2 fun d =>
      .refl _) (fun _ => .refl _) b

end

/-! ### Runs over nodes -/

/-- Every node of `ids` exists, comes once and comes after its operands. -/
structure Sequenced (g : Graph) (ids : List Nat) : Prop where
  nodup : ids.Nodup
  stands : ∀ id ∈ ids, ∃ n, g.nodes[id]? = some n
  after : ∀ l id r, ids = l ++ id :: r → ∀ n v, g.nodes[id]? = some n → v ∈ n.operands →
    v.node ∈ l

/-- Where evaluation is after the nodes `done`: it knows their data and has put together what they
contribute. -/
structure After (g : Graph) (V : Nat → Option Datum) (done : List Nat) (s : State) : Prop where
  size_eq : s.values.size = g.size
  known : ∀ j ∈ done, s.values[j]?.join = V j
  unknown : ∀ j, j ∉ done → s.values[j]?.join = none
  output : s.output = .join (done.map (contribution g V))

section
variable {g : Graph} {args : Array BitString} {V V' : Nat → Option Datum} {n : Node} {id : Nat}
  {done rest : List Nat} {s s' : State}

theorem contribution_output (hn : g.nodes[id]? = some n) (hop : n.opcode = .output)
    {b : BitString} (hb : observes g V n = .ok b) : contribution g V id = b := by
  simp only [contribution, hn, Option.elim_some, hop, if_true, hb, Except.toOption,
    Option.getD_some]

theorem contribution_datum (hn : g.nodes[id]? = some n) (hop : n.opcode ≠ .output) :
    contribution g V id = .empty := by
  simp only [contribution, hn, Option.elim_some, hop, if_false]

theorem contribution_congr (h : ∀ n v, g.nodes[id]? = some n → v ∈ n.operands →
    V' v.node = V v.node) : contribution g V' id = contribution g V id := by
  unfold contribution
  cases hn : g.nodes[id]? with
  | none => rfl
  | some n => rw [Option.elim_some, Option.elim_some, observes_congr (h n · hn)]

/-- Nodes of a sequence read nodes of it. -/
theorem Sequenced.operand_mem (h : Sequenced g (done ++ rest)) {j : Nat} (hj : j ∈ done)
    (hn : g.nodes[j]? = some n) {v : Value} (hv : v ∈ n.operands) : v.node ∈ done := by
  obtain ⟨l, r, rfl⟩ := List.append_of_mem hj
  exact List.mem_append_left _ (h.after l j (r ++ rest) (by simp) n v hn hv)

/-- What evaluation does at a node, in a valuation of the operands. -/
theorem step_eq_ok_iff (args : Array BitString) (hn : g.nodes[id]? = some n)
    (h : ∀ v ∈ n.operands, s.values[v.node]?.join = V v.node) (s' : State) :
    step g args s id = .ok s' ↔
      (n.opcode ≠ .output ∧ ∃ d, equation g args V n = .ok d ∧
        s' = { s with values := s.values.setIfInBounds id (some d) }) ∨
      (n.opcode = .output ∧ ∃ b, observes g V n = .ok b ∧
        s' = { s with output := s.output ++ b }) := by
  unfold step
  rw [Graph.node_of_getElem? hn, liftM_ok, ok_bind]
  dsimp only
  by_cases hop : n.opcode = .output
  · rw [if_pos hop, bind_eq_ok_iff]
    simp only [hop, ne_eq, not_true_eq_false, false_and, false_or, true_and]
    constructor
    · rintro ⟨b, hb, hs⟩
      exact ⟨b, (observed_eq_ok_iff h b).1 hb, (Except.ok.inj hs).symm⟩
    · rintro ⟨b, hb, rfl⟩
      exact ⟨b, (observed_eq_ok_iff h b).2 hb, rfl⟩
  · rw [if_neg hop, bind_eq_ok_iff]
    simp only [hop, ne_eq, not_false_eq_true, true_and, false_and, or_false]
    constructor
    · rintro ⟨d, hd, hs⟩
      exact ⟨d, (node_eq_ok_iff hn h d).1 hd, (Except.ok.inj hs).symm⟩
    · rintro ⟨d, hd, rfl⟩
      exact ⟨d, (node_eq_ok_iff hn h d).2 hd, rfl⟩

theorem After.extend (h : After g V done s) (hsize : s'.values.size = s.values.size)
    (hself : s'.values[id]?.join = V id)
    (hvalues : ∀ j, j ≠ id → s'.values[j]?.join = s.values[j]?.join)
    (hout : s'.output = s.output ++ contribution g V id) : After g V (done ++ [id]) s' where
  size_eq := hsize.trans h.size_eq
  known j hj := by
    by_cases hjd : j = id
    · rw [hjd, hself]
    · rw [hvalues j hjd]
      exact h.known j ((List.mem_append.1 hj).resolve_right fun h => hjd (List.mem_singleton.1 h))
  unknown j hj := by
    rw [hvalues j fun hjd => hj (List.mem_append_right _ (List.mem_singleton.2 hjd))]
    exact h.unknown j fun hjd => hj (List.mem_append_left _ hjd)
  output := by
    rw [hout, h.output, List.map_append, BitString.join_append]
    exact congrArg _ (BitString.append_empty _).symm

/-- The next node, solved by the valuation, is evaluated as the valuation says. -/
theorem After.step_ok (h : After g V done s) (hn : g.nodes[id]? = some n) (hid : id ∉ done)
    (hops : ∀ v ∈ n.operands, v.node ∈ done) (hV : Solves g args (· = id) V) :
    ∃ s', step g args s id = .ok s' ∧ After g V (done ++ [id]) s' := by
  have hstep := step_eq_ok_iff args hn fun v hv => h.known v.node (hops v hv)
  by_cases hop : n.opcode = .output
  · obtain ⟨hnone, b, hb⟩ := hV.output id n rfl hn hop
    refine ⟨_, (hstep _).2 (.inr ⟨hop, b, hb, rfl⟩), h.extend rfl ?_ (fun _ _ => rfl) ?_⟩
    · rw [hnone]
      exact h.unknown id hid
    · rw [contribution_output hn hop hb]
  · obtain ⟨d, hd, hsome⟩ := hV.datum id n rfl hn hop
    have hlt : id < s.values.size := h.size_eq ▸ Graph.lt_size_of_getElem? hn
    refine ⟨_, (hstep _).2 (.inl ⟨hop, d, hd, rfl⟩), h.extend ?_ ?_ (fun j hj => ?_) ?_⟩
    · exact Array.size_setIfInBounds
    · rw [Array.getElem?_setIfInBounds_self_of_lt hlt, hsome]
      rfl
    · rw [Array.getElem?_setIfInBounds_ne (Ne.symm hj)]
    · rw [contribution_datum hn hop, BitString.append_empty]

theorem After.congr (h : After g V done s) (hV : ∀ j ∈ done, V' j = V j)
    (hclosed : ∀ j ∈ done, ∀ n v, g.nodes[j]? = some n → v ∈ n.operands → v.node ∈ done) :
    After g V' done s where
  size_eq := h.size_eq
  known j hj := (h.known j hj).trans (hV j hj).symm
  unknown := h.unknown
  output := by
    rw [h.output, List.map_congr_left fun j hj => contribution_congr fun n v hn hv =>
      hV v.node (hclosed j hj n v hn hv)]

theorem Solves.congr {p : Nat → Prop} (h : Solves g args p V) (hV : ∀ j, p j → V' j = V j)
    (hclosed : ∀ j n v, p j → g.nodes[j]? = some n → v ∈ n.operands → V' v.node = V v.node) :
    Solves g args p V' where
  datum j n hj hn hop := by
    rw [equation_congr (hclosed j n · hj hn), hV j hj]
    exact h.datum j n hj hn hop
  output j n hj hn hop := by
    rw [observes_congr (hclosed j n · hj hn), hV j hj]
    exact h.output j n hj hn hop

theorem Solves.or {p q : Nat → Prop} (hp : Solves g args p V) (hq : Solves g args q V) :
    Solves g args (fun j => p j ∨ q j) V where
  datum j n h hn hop := h.elim (hp.datum j n · hn hop) (hq.datum j n · hn hop)
  output j n h hn hop := h.elim (hp.output j n · hn hop) (hq.output j n · hn hop)

theorem Solves.mono {p q : Nat → Prop} (h : Solves g args q V) (hpq : ∀ j, p j → q j) :
    Solves g args p V where
  datum j n hj := h.datum j n (hpq j hj)
  output j n hj := h.output j n (hpq j hj)

/-- Evaluation of the next node extends the valuation to it. -/
theorem After.of_step (h : After g V done s) (hn : g.nodes[id]? = some n) (hid : id ∉ done)
    (hops : ∀ v ∈ n.operands, v.node ∈ done) (hclosed : ∀ j ∈ done, ∀ n v,
      g.nodes[j]? = some n → v ∈ n.operands → v.node ∈ done)
    (hV : Solves g args (· ∈ done) V) (hnone : ∀ j, j ∉ done → V j = none)
    (hs : step g args s id = .ok s') :
    ∃ V', Solves g args (· ∈ done ++ [id]) V' ∧ (∀ j, j ∉ done ++ [id] → V' j = none) ∧
      After g V' (done ++ [id]) s' := by
  have hknown := fun v hv => h.known v.node (hops v hv)
  have hmem (j : Nat) : j ∈ done ++ [id] ↔ j ∈ done ∨ j = id := by
    rw [List.mem_append, List.mem_singleton]
  rcases (step_eq_ok_iff args hn hknown s').1 hs with ⟨hop, d, hd, rfl⟩ | ⟨hop, b, hb, rfl⟩
  · have hlt : id < s.values.size := h.size_eq ▸ Graph.lt_size_of_getElem? hn
    have hne (j : Nat) (hj : j ∈ done) : (if j = id then some d else V j) = V j :=
      if_neg fun (heq : j = id) => hid (heq ▸ hj)
    have hself : Solves g args (· = id) fun j => if j = id then some d else V j := by
      constructor
      · rintro _ m rfl hm hop'
        cases hn.symm.trans hm
        exact ⟨d, (equation_congr fun v hv => hne _ (hops v hv)).trans hd, if_pos rfl⟩
      · rintro _ m rfl hm hop'
        cases hn.symm.trans hm
        exact absurd hop' hop
    refine ⟨fun j => if j = id then some d else V j, ?_, ?_, ?_⟩
    · refine ((hV.congr hne ?_).or hself).mono fun j => (hmem j).1
      exact fun j n v hj hn hv => hne _ (hclosed j hj n v hn hv)
    · intro j hj
      rw [hmem, not_or] at hj
      exact (if_neg hj.2).trans (hnone j hj.1)
    · refine (h.congr hne hclosed).extend ?_ ?_ (fun j hj => ?_) ?_
      · exact Array.size_setIfInBounds
      · rw [Array.getElem?_setIfInBounds_self_of_lt hlt, if_pos rfl]
        rfl
      · rw [Array.getElem?_setIfInBounds_ne (Ne.symm hj)]
      · rw [contribution_datum hn hop, BitString.append_empty]
  · have hself : Solves g args (· = id) V := by
      constructor
      · rintro _ m rfl hm hop'
        cases hn.symm.trans hm
        exact absurd hop hop'
      · rintro _ m rfl hm -
        cases hn.symm.trans hm
        exact ⟨hnone _ hid, b, hb⟩
    refine ⟨V, (hV.or hself).mono fun j => (hmem j).1, ?_, h.extend rfl ?_ (fun _ _ => rfl) ?_⟩
    · exact fun j hj => hnone j fun hd => hj ((hmem j).2 (.inl hd))
    · rw [hnone id hid, h.unknown id hid]
    · rw [contribution_output hn hop hb]

/-- A sequence of nodes with a solution is evaluated as the solution says. -/
theorem After.foldlM_ok (h : After g V done s) (hseq : Sequenced g (done ++ rest))
    (hV : Solves g args (· ∈ done ++ rest) V) :
    ∃ s', rest.foldlM (step g args) s = .ok s' ∧ After g V (done ++ rest) s' := by
  induction rest generalizing done s with
  | nil => exact ⟨s, rfl, by rwa [List.append_nil]⟩
  | cons id rest ih =>
    obtain ⟨n, hn⟩ := hseq.stands id (by simp)
    have hid : id ∉ done := fun hmem =>
      (List.nodup_append.1 hseq.nodup).2.2 id hmem id List.mem_cons_self rfl
    obtain ⟨s₁, hs₁, h₁⟩ := h.step_ok hn hid (fun v hv => hseq.after done id rest rfl n v hn hv)
      (hV.mono (by rintro j rfl; simp))
    have happ : done ++ id :: rest = (done ++ [id]) ++ rest := by simp
    rw [happ] at hseq hV ⊢
    obtain ⟨s', hs', h'⟩ := ih h₁ hseq hV
    exact ⟨s', by rw [List.foldlM_cons, hs₁, ok_bind, hs'], h'⟩

/-- What evaluation finds at a sequence of nodes solves their equations. -/
theorem After.of_foldlM (h : After g V done s) (hseq : Sequenced g (done ++ rest))
    (hV : Solves g args (· ∈ done) V) (hnone : ∀ j, j ∉ done → V j = none)
    (hs : rest.foldlM (step g args) s = .ok s') :
    ∃ V', Solves g args (· ∈ done ++ rest) V' ∧ After g V' (done ++ rest) s' := by
  induction rest generalizing done s V with
  | nil =>
    cases hs
    exact ⟨V, by rwa [List.append_nil], by rwa [List.append_nil]⟩
  | cons id rest ih =>
    obtain ⟨n, hn⟩ := hseq.stands id (by simp)
    have hid : id ∉ done := fun hmem =>
      (List.nodup_append.1 hseq.nodup).2.2 id hmem id List.mem_cons_self rfl
    rw [List.foldlM_cons, bind_eq_ok_iff] at hs
    obtain ⟨s₁, hs₁, hs'⟩ := hs
    obtain ⟨V₁, hV₁, hnone₁, h₁⟩ := h.of_step hn hid
      (fun v hv => hseq.after done id rest rfl n v hn hv)
      (fun j hj m v hm hv => hseq.operand_mem hj hm hv) hV hnone hs₁
    have happ : done ++ id :: rest = (done ++ [id]) ++ rest := by simp
    rw [happ] at hseq ⊢
    exact ih h₁ hseq hV₁ hnone₁ hs'

end

end Eval

namespace Graph

variable {g : Graph} {root : NodeId}

/-- The nodes that the root reaches, the lowest first. -/
def needed (g : Graph) (root : NodeId) : List NodeId :=
  (List.range g.size).filter fun id => (g.reachable root)[id]?.getD false

theorem Built.mem_needed_iff (hg : g.Built) (hroot : root < g.size) (id : Nat) :
    id ∈ g.needed root ↔ g.Reached .ok root id := by
  rw [needed, List.mem_filter, List.mem_range, hg.reachable_iff hroot]
  exact ⟨And.right, fun h => ⟨hg.reached_lt hroot h, h⟩⟩

theorem pairwise_needed (g : Graph) (root : NodeId) : (g.needed root).Pairwise (· < ·) :=
  List.pairwise_lt_range.filter _

theorem Built.sequenced_needed (hg : g.Built) (hroot : root < g.size) :
    Eval.Sequenced g (g.needed root) where
  nodup := (g.pairwise_needed root).imp Nat.ne_of_lt
  stands id hid := ⟨_, Array.getElem?_eq_getElem
    (hg.reached_lt hroot ((hg.mem_needed_iff hroot id).1 hid))⟩
  after l id r heq n v hn hv := by
    have hpair := g.pairwise_needed root
    rw [heq, List.pairwise_append, List.pairwise_cons] at hpair
    have hid : g.Reached .ok root id := (hg.mem_needed_iff hroot id).1 (by simp [heq])
    have hv' : v.node ∈ g.needed root := (hg.mem_needed_iff hroot v.node).2 (.operand hid hn hv rfl)
    have hlt := (hg.operand hn hv).1
    rw [heq, List.mem_append, List.mem_cons] at hv'
    rcases hv' with hl | hself | hr
    · exact hl
    · exact absurd hself (Nat.ne_of_lt hlt)
    · exact absurd (hpair.2.1.1 v.node hr) (Nat.lt_asymm hlt)

/-- Evaluation runs over the nodes that the root reaches. -/
theorem evaluate_eq (hroot : g.root = some root) (hlt : root < g.size)
    (args : List (ValueType × Datum)) :
    g.evaluate args = (g.needed root).foldlM (Eval.step g (Eval.buffers args))
      { values := Array.replicate g.size none } >>= fun s => .ok s.output := by
  obtain ⟨n, hn⟩ : ∃ n, g.nodes[root]? = some n := ⟨_, Array.getElem?_eq_getElem hlt⟩
  unfold evaluate
  simp only [hroot, node_of_getElem? hn, liftM_ok, ok_bind]
  rfl

/-- A graph has a result where the equations of its nodes have a solution: what the outputs observe
there. -/
theorem Built.evaluate_eq_ok_iff (hg : g.Built) (hroot : g.root = some root) (hlt : root < g.size)
    (args : List (ValueType × Datum)) (bits : BitString) :
    g.evaluate args = .ok bits ↔ ∃ V,
      Eval.Solves g (Eval.buffers args) (g.Reached .ok root) V ∧
      bits = .join ((g.needed root).map (Eval.contribution g V)) := by
  have hseq := hg.sequenced_needed hlt
  have hmem := hg.mem_needed_iff hlt
  have hstart (V : Nat → Option Datum) :
      Eval.After g V [] { values := Array.replicate g.size none } :=
    ⟨Array.size_replicate, by simp, fun j _ => join_replicate_none g.size j, rfl⟩
  rw [evaluate_eq hroot hlt, bind_eq_ok_iff]
  constructor
  · rintro ⟨s, hs, hout⟩
    obtain ⟨V, hV, hafter⟩ := (hstart fun _ => none).of_foldlM hseq ⟨by simp, by simp⟩
      (fun _ _ => rfl) hs
    refine ⟨V, hV.mono fun j hj => (hmem j).2 hj, ?_⟩
    cases hout
    exact hafter.output
  · rintro ⟨V, hV, rfl⟩
    obtain ⟨s, hs, hafter⟩ := (hstart V).foldlM_ok hseq
      (hV.mono fun j hj => (hmem j).1 hj)
    refine ⟨s, hs, ?_⟩
    rw [hafter.output]
    rfl

/-! ### Isomorphic graphs -/

section
variable {g₁ g₂ : Graph} {r₁ r₂ i : Nat} {φ : Nat → Nat} {n : Node} {V : Nat → Option Datum}
  {args : Array BitString}

theorem Isomorphic.typeOf_rename (h : Isomorphic φ g₁ r₁ g₂ r₂) {v : Value}
    (hv : g₁.Reached .ok r₁ v.node) : g₂.typeOf (v.rename φ) = g₁.typeOf v := by
  obtain ⟨n, hn, hn'⟩ := h.node _ hv
  simp only [typeOf, typeOf?, Value.rename, hn, hn', Option.bind_some]

theorem Isomorphic.typeAt_rename (h : Isomorphic φ g₁ r₁ g₂ r₂) (hi : g₁.Reached .ok r₁ i)
    (hn : g₁.nodes[i]? = some n) (t : ValueType) (k : Nat) :
    Eval.typeAt g₂ { n with operands := n.operands.map (.rename φ) } t k =
      Eval.typeAt g₁ n t k := by
  unfold Eval.typeAt
  dsimp only
  rw [List.getElem?_map]
  cases hv : n.operands[k]? with
  | none => rfl
  | some v => exact h.typeOf_rename (.operand hi hn (List.mem_of_getElem? hv) rfl)

theorem reads_rename (V : Nat → Option Datum) (φ : Nat → Nat) (n : Node) :
    Eval.reads V { n with operands := n.operands.map (.rename φ) } =
      Eval.reads (fun i => V (φ i)) n := by
  funext k
  unfold Eval.reads
  dsimp only
  rw [List.getElem?_map]
  cases n.operands[k]? <;> rfl

theorem Isomorphic.equation_rename (h : Isomorphic φ g₁ r₁ g₂ r₂) (hi : g₁.Reached .ok r₁ i)
    (hn : g₁.nodes[i]? = some n) : Eval.Agrees
      (Eval.equation g₂ args V { n with operands := n.operands.map (.rename φ) })
      (Eval.equation g₁ args (fun i => V (φ i)) n) := by
  unfold Eval.equation
  rw [reads_rename]
  show Eval.Agrees (n.resultType?.elim _ _) _
  cases n.resultType? with
  | none => exact .of_error
  | some t =>
    refine Eval.compute_agrees args _ (List.length_map _).symm t (fun _ => .refl _) fun k => ?_
    rw [h.typeAt_rename hi hn]
    exact .refl _

theorem Isomorphic.observes_rename (h : Isomorphic φ g₁ r₁ g₂ r₂) (hi : g₁.Reached .ok r₁ i)
    (hn : g₁.nodes[i]? = some n) : Eval.Agrees
      (Eval.observes g₂ V { n with operands := n.operands.map (.rename φ) })
      (Eval.observes g₁ (fun i => V (φ i)) n) := by
  unfold Eval.observes
  rw [reads_rename]
  dsimp only
  rw [List.zipIdx_map, List.mapM_map]
  refine .bind (.mapM fun p hp => ?_) fun _ => .refl _
  show Eval.Agrees (liftM (g₂.typeOf (p.1.rename φ)) >>= _) _
  rw [h.typeOf_rename (.operand hi hn (List.fst_mem_of_mem_zipIdx hp) rfl)]
  exact .refl _

/-- A solution for one graph is, under the other names, a solution for the other, and the outputs
observe the same. -/
theorem Isomorphic.solves (h : Isomorphic φ g₁ r₁ g₂ r₂)
    (hV : Eval.Solves g₂ args (g₂.Reached .ok r₂) V) :
    Eval.Solves g₁ args (g₁.Reached .ok r₁) (fun i => V (φ i)) ∧
    ∀ i, g₁.Reached .ok r₁ i →
      Eval.contribution g₁ (fun i => V (φ i)) i = Eval.contribution g₂ V (φ i) := by
  have hmaps (i : Nat) (hi : g₁.Reached .ok r₁ i) : g₂.Reached .ok r₂ (φ i) := h.bijOn.1 hi
  refine ⟨⟨fun i n hi hn hop => ?_, fun i n hi hn hop => ?_⟩, fun i hi => ?_⟩
  all_goals obtain ⟨m, hm, hm'⟩ := h.node i hi
  · cases hn.symm.trans hm
    obtain ⟨d, hd, hsome⟩ := hV.datum (φ i) _ (hmaps i hi) hm' hop
    exact ⟨d, h.equation_rename hi hn d hd, hsome⟩
  · cases hn.symm.trans hm
    obtain ⟨hnone, b, hb⟩ := hV.output (φ i) _ (hmaps i hi) hm' hop
    exact ⟨hnone, b, h.observes_rename hi hn b hb⟩
  · by_cases hop : m.opcode = .output
    · obtain ⟨_, b, hb⟩ := hV.output (φ i) _ (hmaps i hi) hm' hop
      rw [Eval.contribution_output hm hop (h.observes_rename hi hm b hb),
        Eval.contribution_output hm' hop hb]
    · rw [Eval.contribution_datum hm hop, Eval.contribution_datum hm' hop]

end

end Graph

end Dataflow
