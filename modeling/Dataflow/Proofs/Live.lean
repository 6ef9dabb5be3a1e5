import Dataflow.Graph.Live
import Dataflow.Proofs.Arena

/-!
# Copies of the live part

A copy mirrors the nodes that the root reaches along canonical edges, in the order of the walk: node
`k` of the copy has the operation, types and attribute of the `k`-th node of the walk, and reads the
copies of its canonical operands.
-/

namespace Dataflow

theorem mapM_eq_ok {α β ε : Type} {f : α → Except ε β} {xs : List α} {ys : List β}
    (h : xs.mapM f = .ok ys) :
    ys.length = xs.length ∧
      ∀ (i : Nat) y, ys[i]? = some y → ∃ x, xs[i]? = some x ∧ f x = .ok y := by
  induction xs generalizing ys with
  | nil =>
    cases h
    simp
  | cons x xs ih =>
    rw [List.mapM_cons] at h
    cases hx : f x with
    | error e => rw [hx] at h; cases h
    | ok y =>
      cases hxs : xs.mapM f with
      | error e => rw [hx, hxs] at h; cases h
      | ok ys' =>
        rw [hx, hxs] at h
        cases h
        obtain ⟨hlen, hget⟩ := ih hxs
        refine ⟨by simp [hlen], fun i z hz => ?_⟩
        cases i with
        | zero =>
          cases hz
          exact ⟨x, rfl, hx⟩
        | succ i => exact hget i z hz

theorem mem_of_mapM_eq_ok {α β ε : Type} {f : α → Except ε β} {xs : List α} {ys : List β}
    (h : xs.mapM f = .ok ys) {x : α} {y : β} (hx : x ∈ xs) (hy : f x = .ok y) : y ∈ ys := by
  obtain ⟨hlen, hget⟩ := mapM_eq_ok h
  obtain ⟨i, hi⟩ := List.getElem?_of_mem hx
  have hlt : i < ys.length := hlen ▸ (List.getElem?_eq_some_iff.1 hi).1
  obtain ⟨x', hx', hy'⟩ := hget i _ (List.getElem?_eq_getElem hlt)
  rw [hi] at hx'
  cases hx'
  rw [hy] at hy'
  cases hy'
  exact List.getElem_mem hlt

theorem mapM_eq_ok_of_getElem? {α β ε : Type} {f : α → Except ε β} {xs : List α} {ys : List β}
    (hlen : ys.length = xs.length)
    (h : ∀ (i : Nat) y, ys[i]? = some y → ∃ x, xs[i]? = some x ∧ f x = .ok y) :
    xs.mapM f = .ok ys := by
  induction xs generalizing ys with
  | nil =>
    rw [List.eq_nil_of_length_eq_zero hlen]
    rfl
  | cons x xs ih =>
    cases ys with
    | nil => cases hlen
    | cons y ys =>
      obtain ⟨x', hx', hy⟩ := h 0 y rfl
      cases hx'
      rw [List.mapM_cons, hy, ih (Nat.succ.inj hlen) fun i => h (i + 1)]
      rfl

theorem mapM_eq_error {α β ε : Type} {f : α → Except ε β} {xs : List α} {e : ε}
    (h : xs.mapM f = .error e) : ∃ x ∈ xs, f x = .error e := by
  induction xs with
  | nil => cases h
  | cons x xs ih =>
    rw [List.mapM_cons] at h
    cases hx : f x with
    | error e' =>
      rw [hx] at h
      cases h
      exact ⟨x, List.mem_cons_self, hx⟩
    | ok y =>
      cases hxs : xs.mapM f with
      | error e' =>
        rw [hx, hxs] at h
        cases h
        obtain ⟨z, hz, hzf⟩ := ih hxs
        exact ⟨z, List.mem_cons_of_mem x hz, hzf⟩
      | ok ys => rw [hx, hxs] at h; cases h

namespace Graph

variable {g : Graph} {canonical : Value → Except Fault Value} {root id : Nat}

/-- The nodes that `root` reaches along canonical operand edges. -/
inductive Reached (g : Graph) (canonical : Value → Except Fault Value) (root : Nat) : Nat → Prop
  | root : Reached g canonical root root
  | operand {id : Nat} {n : Node} {v w : Value} : Reached g canonical root id →
    g.nodes[id]? = some n → v ∈ n.operands → canonical v = .ok w → Reached g canonical root w.node

/-- Everything that a root of a built graph reaches exists. -/
theorem Built.reached_lt (hg : g.Built) (hroot : root < g.size) (h : g.Reached .ok root id) :
    id < g.size := by
  induction h with
  | root => exact hroot
  | operand _ hn hv hw =>
    cases hw
    obtain ⟨_, t, ht⟩ := hg.operand hn hv
    exact lt_size_of_typeOf? ht

/-! ### The walk -/

namespace Walk

/-- A walk only meets nodes that the root reaches, and knows the canonical operands of those it
entered. -/
structure Valid (g : Graph) (canonical : Value → Except Fault Value) (root : Nat) (w : Walk) :
    Prop where
  size_entered : w.entered.size = g.size
  enter : ∀ id, .enter id ∈ w.stack → g.Reached canonical root id
  leave : ∀ id, .leave id ∈ w.stack → (w.entered[id]?.join).isSome
  order : ∀ id ∈ w.order, (w.entered[id]?.join).isSome
  entered : ∀ (id : Nat) ops, w.entered[id]?.join = some ops → g.Reached canonical root id ∧
    ∃ n, g.nodes[id]? = some n ∧ n.operands.mapM canonical = .ok ops

variable {w w' : Walk}

theorem Valid.enterNode {stack : List Visit} {n : Node} {ops : List Value}
    (h : w.Valid g canonical root) (hw : w.stack = .enter id :: stack)
    (hn : g.nodes[id]? = some n)
    (hops : n.operands.mapM canonical = .ok ops) (fresh : Value → Bool) :
    Valid g canonical root { w with
      stack := (ops.filter fresh).map (.enter ·.node) ++ .leave id :: stack
      entered := w.entered.setIfInBounds id (some ops) } := by
  have hid : id < w.entered.size := by
    rw [h.size_entered]
    exact lt_size_of_getElem? hn
  have hget (j : Nat) : (w.entered.setIfInBounds id (some ops))[j]?.join =
      if j = id then some ops else w.entered[j]?.join := by
    rw [Array.getElem?_setIfInBounds]
    by_cases hj : j = id
    · simp [hj, hid]
    · simp [hj, Ne.symm hj]
  have hkept (j : Nat) (hj : (w.entered[j]?.join).isSome) :
      ((w.entered.setIfInBounds id (some ops))[j]?.join).isSome := by
    rw [hget]
    split
    · rfl
    · exact hj
  have hreach : g.Reached canonical root id := h.enter id (by rw [hw]; exact List.mem_cons_self)
  have hmem (x : Visit) (hx : x ∈ stack) : x ∈ w.stack := by
    rw [hw]
    exact List.mem_cons_of_mem _ hx
  refine ⟨by simpa using h.size_entered, fun j hj => ?_, fun j hj => ?_,
    fun j hj => hkept j (h.order j hj), fun j ops' hj => ?_⟩
  · simp only [List.mem_append, List.mem_map, List.mem_filter, List.mem_cons, Visit.enter.injEq,
      reduceCtorEq, false_or] at hj
    obtain ⟨v, ⟨hv, -⟩, rfl⟩ | hj := hj
    · obtain ⟨i, hi⟩ := List.getElem?_of_mem hv
      obtain ⟨u, hu, hc⟩ := (mapM_eq_ok hops).2 i v hi
      exact .operand hreach hn (List.mem_of_getElem? hu) hc
    · exact h.enter j (hmem _ hj)
  · simp only [List.mem_append, List.mem_map, List.mem_cons, Visit.leave.injEq, reduceCtorEq,
      and_false, exists_false, false_or] at hj
    obtain rfl | hj := hj
    · simp [hget]
    · exact hkept j (h.leave j (hmem _ hj))
  · rw [hget] at hj
    split at hj
    · next heq =>
      cases hj
      exact heq ▸ ⟨hreach, n, hn, hops⟩
    · exact h.entered j ops' hj

theorem Valid.step (h : w.Valid g canonical root) (hs : w.step g canonical = .ok w') :
    w'.Valid g canonical root := by
  unfold Walk.step at hs
  split at hs
  · cases hs
    exact h
  · next id stack hw =>
    cases hs
    have hmem : ∀ x, x ∈ stack → x ∈ w.stack := fun x hx => by
      rw [hw]
      exact List.mem_cons_of_mem _ hx
    refine ⟨h.size_entered, fun j hj => h.enter j (hmem _ hj), fun j hj => h.leave j (hmem _ hj),
      fun j hj => ?_, h.entered⟩
    rcases List.mem_cons.1 hj with rfl | hj
    · exact h.leave j (by rw [hw]; exact List.mem_cons_self)
    · exact h.order j hj
  · next id stack hw =>
    have hmem : ∀ x, x ∈ stack → x ∈ w.stack := fun x hx => by
      rw [hw]
      exact List.mem_cons_of_mem _ hx
    split at hs
    · cases hs
      exact ⟨h.size_entered, fun j hj => h.enter j (hmem _ hj), fun j hj => h.leave j (hmem _ hj),
        h.order, h.entered⟩
    · cases hn : g.node id with
      | error f => rw [hn] at hs; cases hs
      | ok n =>
        cases hops : n.operands.mapM canonical with
        | error f =>
          rw [hn] at hs
          simp only [bind, Except.bind, hops] at hs
          cases hs
        | ok ops =>
          rw [hn] at hs
          simp only [bind, Except.bind, hops] at hs
          cases hs
          exact h.enterNode hw (node_eq_ok hn) hops _

theorem Valid.run {fuel : Nat} (h : w.Valid g canonical root)
    (hr : w.run g canonical fuel = .ok w') : w'.Valid g canonical root := by
  induction fuel generalizing w with
  | zero =>
    cases hr
    exact h
  | succ fuel ih =>
    unfold Walk.run at hr
    split at hr
    · cases hr
      exact h
    · cases hs : w.step g canonical with
      | error f => rw [hs] at hr; cases hr
      | ok v =>
        rw [hs] at hr
        exact ih (h.step hs) hr

end Walk

theorem join_replicate_none {α : Type} (k id : Nat) :
    (Array.replicate k (none : Option α))[id]?.join = none := by
  rw [Array.getElem?_replicate]
  split <;> rfl

theorem Walk.valid_start (g : Graph) (canonical : Value → Except Fault Value) (root : Nat) :
    Walk.Valid g canonical root
      { stack := [.enter root], entered := Array.replicate g.size none } := by
  refine ⟨Array.size_replicate, fun id hid => ?_, fun id hid => ?_, by simp, fun id ops hid => ?_⟩
  · simp only [List.mem_singleton, Visit.enter.injEq] at hid
    exact hid ▸ .root
  · simp at hid
  · rw [join_replicate_none] at hid
    cases hid

theorem walk_valid {w : Walk} (hw : g.walk canonical root = .ok w) :
    w.Valid g canonical root :=
  (Walk.valid_start g canonical root).run hw

/-! ### The copy -/

namespace Copy

/-- Node `n` of a copy stands for node `id`: it is the same up to its operands, which stand for the
canonical forms of those of `id`. Node `k` stands for `ids[k]`. -/
def Stands (g : Graph) (canonical : Value → Except Fault Value) (ids : List Nat) (id : Nat)
    (n : Node) : Prop :=
  ∃ m, g.nodes[id]? = some m ∧ n = { m with operands := n.operands } ∧
    n.operands.length = m.operands.length ∧
    ∀ (i : Nat) u, n.operands[i]? = some u → ∃ v w, m.operands[i]? = some v ∧
      canonical v = .ok w ∧ u.slot = w.slot ∧ ids[u.node]? = some w.node

theorem Stands.node {ids : List Nat} {n : Node} (h : Stands g canonical ids id n) :
    ∃ m, g.nodes[id]? = some m ∧ n.opcode = m.opcode ∧ n.results = m.results ∧ n.attr = m.attr := by
  obtain ⟨m, hm, hn, _⟩ := h
  refine ⟨m, hm, ?_, ?_, ?_⟩ <;> rw [hn]

theorem Stands.append {ids more : List Nat} {n : Node} (h : Stands g canonical ids id n) :
    Stands g canonical (ids ++ more) id n := by
  obtain ⟨m, hm, hn, hlen, hops⟩ := h
  refine ⟨m, hm, hn, hlen, fun i u hu => ?_⟩
  obtain ⟨v, w, hv, hw, hslot, hnode⟩ := hops i u hu
  refine ⟨v, w, hv, hw, hslot, ?_⟩
  rw [List.getElem?_append_left (List.getElem?_eq_some_iff.1 hnode).1, hnode]

/-- A copy of the nodes `ids`. -/
structure Mirrors (g : Graph) (canonical : Value → Except Fault Value) (ids : List Nat) (c : Copy) :
    Prop where
  built : Graph.empty.Extends c.graph
  size_eq : c.graph.size = ids.length
  renamed : ∀ (id k : Nat), c.renamed[id]?.join = some k → ids[k]? = some id
  stands : ∀ (k id : Nat) n, ids[k]? = some id → c.graph.nodes[k]? = some n →
    Stands g canonical ids id n

variable {c c' : Copy} {ids : List Nat}

theorem value_eq_ok {v u : Value} (h : c.value v = .ok u) :
    c.renamed[v.node]?.join = some u.node ∧ u.slot = v.slot := by
  unfold Copy.value at h
  split at h <;> cases h
  exact ⟨by assumption, rfl⟩

theorem node_eq_ok {m : Node} {ops : List Value} (hm : g.nodes[id]? = some m)
    (h : c.node g id ops = .ok c') :
    ∃ us, ops.mapM c.value = .ok us ∧ c.graph.admits { m with operands := us } ∧
      c' = ⟨c.graph.push { m with operands := us },
        c.renamed.setIfInBounds id (some c.graph.size)⟩ := by
  unfold Copy.node at h
  rw [Graph.node_of_getElem? hm] at h
  cases hus : ops.mapM c.value with
  | error f =>
    simp only [bind, Except.bind, hus] at h
    cases h
  | ok us =>
    simp only [bind, Except.bind, hus, Graph.add] at h
    split at h
    · cases h
    · next heq =>
      split at heq
      · next hadmit =>
        cases heq
        cases h
        exact ⟨us, rfl, hadmit, rfl⟩
      · cases heq

theorem Mirrors.node {m : Node} {ops : List Value} (h : c.Mirrors g canonical ids)
    (hm : g.nodes[id]? = some m) (hops : m.operands.mapM canonical = .ok ops)
    (hc : c.node g id ops = .ok c') : c'.Mirrors g canonical (ids ++ [id]) := by
  obtain ⟨us, hus, hadmit, rfl⟩ := node_eq_ok hm hc
  have hstands : Stands g canonical ids id { m with operands := us } := by
    obtain ⟨hlen, hget⟩ := mapM_eq_ok hus
    obtain ⟨hlen', hget'⟩ := mapM_eq_ok hops
    refine ⟨m, hm, rfl, hlen.trans hlen', fun i u hu => ?_⟩
    obtain ⟨w, hw, hwu⟩ := hget i u hu
    obtain ⟨v, hv, hvw⟩ := hget' i w hw
    obtain ⟨hnode, hslot⟩ := value_eq_ok hwu
    exact ⟨v, w, hv, hvw, hslot, h.renamed _ _ hnode⟩
  refine ⟨.push h.built hadmit, by simp [h.size_eq], fun j k hk => ?_, fun k j n hk hn => ?_⟩
  · rw [Array.getElem?_setIfInBounds] at hk
    split at hk
    · next heq =>
      split at hk
      · obtain rfl : c.graph.size = k := Option.some.inj hk
        rw [h.size_eq, heq]
        simp
      · simp at hk
    · have hold := h.renamed j k hk
      rw [List.getElem?_append_left (List.getElem?_eq_some_iff.1 hold).1, hold]
  · rw [getElem?_push] at hn
    split at hn
    · next heq =>
      cases hn
      obtain rfl : id = j := by simpa [heq, h.size_eq] using hk
      exact hstands.append
    · have hlt : k < ids.length := h.size_eq ▸ lt_size_of_getElem? hn
      rw [List.getElem?_append_left hlt] at hk
      exact (h.stands k j n hk hn).append

theorem Mirrors.foldlM {entered : Nat → List Value} {more : List Nat}
    (h : c.Mirrors g canonical ids)
    (hmore : ∀ id ∈ more, ∃ m, g.nodes[id]? = some m ∧
      m.operands.mapM canonical = .ok (entered id))
    (hc : more.foldlM (fun (c : Copy) id => c.node g id (entered id)) c = .ok c') :
    c'.Mirrors g canonical (ids ++ more) := by
  induction more generalizing c ids with
  | nil =>
    cases hc
    simpa using h
  | cons id more ih =>
    obtain ⟨m, hm, hops⟩ := hmore id List.mem_cons_self
    rw [List.foldlM_cons] at hc
    cases hn : c.node g id (entered id) with
    | error f => rw [hn] at hc; cases hc
    | ok c₁ =>
      rw [hn] at hc
      have hrest := ih (h.node hm hops hn) (fun j hj => hmore j (List.mem_cons_of_mem _ hj)) hc
      rwa [List.append_assoc] at hrest

end Copy

/-- The live part holds, in some order, nodes that the root reaches; its root stands for the root,
and each of its nodes reads earlier ones. -/
theorem live_spec {h : Graph} (hl : g.live canonical root = .ok h) :
    ∃ ids : List Nat, ∃ r : Nat, h.size = ids.length ∧ h.root = some r ∧ ids[r]? = some root ∧
      (∀ id ∈ ids, g.Reached canonical root id) ∧
      (∃ k, Graph.empty.Extends k ∧ h = k.setRoot r) ∧
      ∀ (k id : Nat) n, ids[k]? = some id → h.nodes[k]? = some n →
        Copy.Stands g canonical ids id n := by
  unfold live at hl
  cases hw : g.walk canonical root with
  | error f => rw [hw] at hl; cases hl
  | ok w =>
    have valid := walk_valid hw
    rw [hw] at hl
    simp only [bind, Except.bind] at hl
    split at hl
    · cases hl
    · next c hc =>
      split at hl
      · cases hl
      · next u hu =>
        cases hl
        have hentered (id : Nat) (hid : id ∈ w.order.reverse) :
            g.Reached canonical root id ∧ ∃ m, g.nodes[id]? = some m ∧
              m.operands.mapM canonical = .ok ((w.entered[id]?.join).getD []) := by
          obtain ⟨ops, hops⟩ :=
            Option.isSome_iff_exists.1 (valid.order id (List.mem_reverse.1 hid))
          rw [hops]
          exact valid.entered id ops hops
        have hstart : Copy.Mirrors g canonical [] { renamed := Array.replicate g.size none } := by
          refine ⟨.refl, rfl, fun id k hk => ?_, by simp⟩
          rw [Array.getElem?_replicate] at hk
          split at hk <;> simp at hk
        have mirrors := hstart.foldlM (fun id hid => (hentered id hid).2) hc
        exact ⟨w.order.reverse, u.node, mirrors.size_eq, rfl,
          mirrors.renamed _ _ (Copy.value_eq_ok hu).1, fun id hid => (hentered id hid).1,
          ⟨c.graph, mirrors.built, rfl⟩, mirrors.stands⟩

end Graph

end Dataflow
