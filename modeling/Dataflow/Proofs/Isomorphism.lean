import Dataflow.Legal.Run
import Dataflow.Proofs.PostOrder
import Mathlib.Data.Set.Function

/-!
# Live parts up to names

The walk looks at the operands of a node in their order, and the copy numbers nodes in the order in
which the walk emits them. So the live part does not depend on the numbers that nodes have in the
graph: two walks over the same nodes under different names go in step, and the copies are equal.
-/

namespace Dataflow

/-- `v`, with its node renamed. -/
def Value.rename (φ : Nat → Nat) (v : Value) : Value :=
  ⟨φ v.node, v.slot⟩

namespace Graph

variable {g g₁ g₂ : Graph} {canonical c₁ c₂ : Value → Except Fault Value} {root r₁ r₂ : Nat}
  {φ : Nat → Nat}

/-- What `r₁` reaches in `g₁` stands in `g₂`, under the names that `φ` gives. -/
structure Renames (φ : Nat → Nat) (g₁ : Graph) (c₁ : Value → Except Fault Value) (r₁ : Nat)
    (g₂ : Graph) (c₂ : Value → Except Fault Value) (r₂ : Nat) : Prop where
  root : φ r₁ = r₂
  injective : ∀ i j, g₁.Reached c₁ r₁ i → g₁.Reached c₁ r₁ j → φ i = φ j → i = j
  node : ∀ i, g₁.Reached c₁ r₁ i → ∃ n us vs, g₁.nodes[i]? = some n ∧
    n.operands.mapM c₁ = .ok us ∧ g₂.nodes[φ i]? = some { n with operands := vs } ∧
    vs.mapM c₂ = .ok (us.map (.rename φ))

/-- Canonical operands of a node that was reached are reached. -/
theorem Reached.of_mapM {id : Nat} {n : Node} {us : List Value}
    (h : g.Reached canonical root id) (hn : g.nodes[id]? = some n)
    (hus : n.operands.mapM canonical = .ok us) : ∀ u ∈ us, g.Reached canonical root u.node := by
  intro u hu
  obtain ⟨i, hi⟩ := List.getElem?_of_mem hu
  obtain ⟨v, hv, hvu⟩ := (mapM_eq_ok hus).2 i u hi
  exact .operand h hn (List.mem_of_getElem? hv) hvu

/-! ### Two walks -/

def Visit.rename (φ : Nat → Nat) : Visit → Visit
  | enter id => enter (φ id)
  | leave id => leave (φ id)

namespace Walk

variable {w w₁ w₂ : Walk}

/-- `w₂` is where `w₁` is, under other names. -/
structure Alike (φ : Nat → Nat) (g₁ : Graph) (c₁ : Value → Except Fault Value) (r₁ : Nat)
    (g₂ : Graph) (w₁ w₂ : Walk) : Prop extends w₁.Valid g₁ c₁ r₁ where
  size_other : w₂.entered.size = g₂.size
  stack : w₂.stack = w₁.stack.map (.rename φ)
  order_eq : w₂.order = w₁.order.map φ
  operands : ∀ i, g₁.Reached c₁ r₁ i →
    w₂.operandsOf (φ i) = (w₁.operandsOf i).map (List.map (.rename φ))

theorem operandsOf_set {id : Nat} (hid : id < w.entered.size) (us : List Value) (j : Nat) :
    (w.entered.setIfInBounds id (some us))[j]?.join =
      if j = id then some us else w.operandsOf j := by
  rw [Array.getElem?_setIfInBounds]
  by_cases hj : j = id
  · simp [hj, hid]
  · simp [hj, Ne.symm hj, operandsOf]

theorem Alike.isEntered_eq (h : w₁.Alike φ g₁ c₁ r₁ g₂ w₂) {i : Nat}
    (hi : g₁.Reached c₁ r₁ i) : w₂.isEntered (φ i) = w₁.isEntered i := by
  have hoperands := h.operands i hi
  simp only [operandsOf] at hoperands
  rw [isEntered, isEntered, hoperands, Option.isSome_map]

/-- Both walks do the same action. -/
theorem Alike.step (h : w₁.Alike φ g₁ c₁ r₁ g₂ w₂) (hr : Renames φ g₁ c₁ r₁ g₂ c₂ r₂) :
    ∃ w₁' w₂', w₁.step g₁ c₁ = .ok w₁' ∧ w₂.step g₂ c₂ = .ok w₂' ∧
      w₁'.Alike φ g₁ c₁ r₁ g₂ w₂' := by
  have hstack := h.stack
  cases hw : w₁.stack with
  | nil =>
    rw [hw] at hstack
    refine ⟨w₁, w₂, ?_, ?_, h⟩
    · simp only [Walk.step, hw]
    · simp only [Walk.step, hstack, List.map_nil]
  | cons x stack =>
    rw [hw] at hstack
    cases x with
    | leave id =>
      have hstep₁ : w₁.step g₁ c₁ = .ok { w₁ with stack, order := id :: w₁.order } := by
        simp only [Walk.step, hw]
      have hstep₂ : w₂.step g₂ c₂ =
          .ok { w₂ with stack := stack.map (.rename φ), order := φ id :: w₂.order } := by
        simp only [Walk.step, hstack, List.map_cons, Visit.rename]
      refine ⟨_, _, hstep₁, hstep₂, h.toValid.step hstep₁, h.size_other, rfl, ?_, h.operands⟩
      simp only [h.order_eq, List.map_cons]
    | enter id =>
      have hid : g₁.Reached c₁ r₁ id := h.enter id (by rw [hw]; exact List.mem_cons_self)
      have hentered := h.isEntered_eq hid
      by_cases hdone : w₁.isEntered id = true
      · have hstep₁ : w₁.step g₁ c₁ = .ok { w₁ with stack } := by
          simp only [Walk.step, hw, hdone, if_true]
        have hstep₂ : w₂.step g₂ c₂ = .ok { w₂ with stack := stack.map (.rename φ) } := by
          simp only [Walk.step, hstack, List.map_cons, Visit.rename, hentered, hdone, if_true]
        exact ⟨_, _, hstep₁, hstep₂, h.toValid.step hstep₁, h.size_other, rfl, h.order_eq,
          h.operands⟩
      · obtain ⟨n, us, vs, hn, hus, hn', hvs⟩ := hr.node id hid
        have hreached := hid.of_mapM hn hus
        have hstep₁ : w₁.step g₁ c₁ = .ok { w₁ with
            stack := (us.filter fun v => !w₁.isEntered v.node).map (.enter ·.node) ++
              .leave id :: stack
            entered := w₁.entered.setIfInBounds id (some us) } := by
          simp only [Walk.step, hw, hdone, node_of_getElem? hn, bind, Except.bind, hus]
          rfl
        have hstep₂ : w₂.step g₂ c₂ = .ok { w₂ with
            stack := ((us.map (Value.rename φ)).filter fun v => !w₂.isEntered v.node).map
              (.enter ·.node) ++ .leave (φ id) :: stack.map (.rename φ)
            entered := w₂.entered.setIfInBounds (φ id) (some (us.map (.rename φ))) } := by
          simp only [Walk.step, hstack, List.map_cons, Visit.rename, hentered, hdone,
            node_of_getElem? hn', bind, Except.bind, hvs]
          rfl
        refine ⟨_, _, hstep₁, hstep₂, h.toValid.step hstep₁, ?_, ?_, h.order_eq, ?_⟩
        · simpa using h.size_other
        · have hfilter : (us.map (Value.rename φ)).filter (fun v => !w₂.isEntered v.node) =
              (us.filter fun v => !w₁.isEntered v.node).map (Value.rename φ) := by
            rw [List.filter_map]
            congr 1
            apply List.filter_congr
            intro u hu
            simp only [Function.comp_apply, Value.rename, h.isEntered_eq (hreached u hu)]
          simp only [hfilter, List.map_append, List.map_cons, List.map_map, Visit.rename]
          rfl
        · intro j hj
          have hlt₁ : id < w₁.entered.size := h.size_entered ▸ lt_size_of_getElem? hn
          have hlt₂ : φ id < w₂.entered.size := h.size_other ▸ lt_size_of_getElem? hn'
          have hsame : φ j = φ id ↔ j = id :=
            ⟨hr.injective j id hj hid, fun heq => by rw [heq]⟩
          rw [operandsOf, operandsOf, operandsOf_set hlt₁, operandsOf_set hlt₂]
          by_cases heq : j = id
          · rw [if_pos heq, if_pos (hsame.2 heq), Option.map_some]
          · rw [if_neg heq, if_neg (mt hsame.1 heq), h.operands j hj]

theorem Alike.run (h : w₁.Alike φ g₁ c₁ r₁ g₂ w₂) (hr : Renames φ g₁ c₁ r₁ g₂ c₂ r₂)
    (fuel : Nat) : ∃ w₁' w₂', w₁.run g₁ c₁ fuel = .ok w₁' ∧ w₂.run g₂ c₂ fuel = .ok w₂' ∧
      w₁'.Alike φ g₁ c₁ r₁ g₂ w₂' := by
  induction fuel generalizing w₁ w₂ with
  | zero => exact ⟨w₁, w₂, rfl, rfl, h⟩
  | succ fuel ih =>
    have hempty : w₂.stack.isEmpty = w₁.stack.isEmpty := by rw [h.stack, List.isEmpty_map]
    by_cases hdone : w₁.stack.isEmpty = true
    · refine ⟨w₁, w₂, ?_, ?_, h⟩
      · simp only [Walk.run, hdone, if_true]
      · simp only [Walk.run, hempty, hdone, if_true]
    · obtain ⟨v₁, v₂, hv₁, hv₂, hv⟩ := h.step hr
      obtain ⟨w₁', w₂', hw₁, hw₂, hw⟩ := ih hv
      refine ⟨w₁', w₂', ?_, ?_, hw⟩
      · simp only [Walk.run, hdone, hv₁, bind, Except.bind, hw₁]
        rfl
      · simp only [Walk.run, hempty, hdone, hv₂, bind, Except.bind, hw₂]
        rfl

/-- A walk that has come to its end stays there. -/
theorem Valid.run_of_work_le {fuel more : Nat} (h : w.Valid g canonical root)
    (hwork : w.work g ≤ fuel) (hle : fuel ≤ more) :
    w.run g canonical more = w.run g canonical fuel := by
  induction fuel generalizing w more with
  | zero =>
    have hstack : w.stack = [] := by
      apply List.eq_nil_of_length_eq_zero
      simp only [work] at hwork
      omega
    cases more with
    | zero => rfl
    | succ more => simp only [Walk.run, hstack, List.isEmpty_nil, if_true]
  | succ fuel ih =>
    cases more with
    | zero => omega
    | succ more =>
      by_cases hstack : w.stack = []
      · simp only [Walk.run, hstack, List.isEmpty_nil, if_true]
      · cases hs : w.step g canonical with
        | error f => simp only [Walk.run, hs, bind, Except.bind]
        | ok w' =>
          have hlt := work_step h.size_entered hstack hs
          simp only [Walk.run, hs, bind, Except.bind,
            ih (h.step hs) (by omega) (Nat.le_of_succ_le_succ hle)]

end Walk

theorem Renames.walk (hr : Renames φ g₁ c₁ r₁ g₂ c₂ r₂) :
    ∃ w₁ w₂, g₁.walk c₁ r₁ = .ok w₁ ∧ g₂.walk c₂ r₂ = .ok w₂ ∧ w₁.Alike φ g₁ c₁ r₁ g₂ w₂ := by
  have hstart : Walk.Alike φ g₁ c₁ r₁ g₂
      { stack := [.enter r₁], entered := Array.replicate g₁.size none }
      { stack := [.enter r₂], entered := Array.replicate g₂.size none } := by
    refine ⟨Walk.valid_start g₁ c₁ r₁, Array.size_replicate, ?_, rfl, fun i _ => ?_⟩
    · simp only [List.map_cons, List.map_nil, Visit.rename, hr.root]
    · simp only [Walk.operandsOf, join_replicate_none, Option.map_none]
  -- the walks have different amounts of fuel, and both have enough
  obtain ⟨w₁, w₂, hw₁, hw₂, hw⟩ := hstart.run hr
    (2 * g₁.size + g₁.edges + 2 + (2 * g₂.size + g₂.edges + 2))
  refine ⟨w₁, w₂, ?_, ?_, hw⟩
  · rw [← hw₁]
    refine ((Walk.valid_start g₁ c₁ r₁).run_of_work_le ?_ (by omega)).symm
    rw [Walk.work_start]
    omega
  · rw [← hw₂]
    refine ((Walk.valid_start g₂ c₂ r₂).run_of_work_le ?_ (by omega)).symm
    rw [Walk.work_start]
    omega

/-! ### Two copies -/

namespace Copy

variable {k₁ k₂ : Copy}

/-- `k₂` is the copy that `k₁` is, of nodes under other names. -/
structure Alike (φ : Nat → Nat) (g₁ : Graph) (c₁ : Value → Except Fault Value) (r₁ : Nat)
    (g₂ : Graph) (k₁ k₂ : Copy) : Prop where
  graph : k₂.graph = k₁.graph
  size_renamed : k₁.renamed.size = g₁.size
  size_other : k₂.renamed.size = g₂.size
  renamed : ∀ i, g₁.Reached c₁ r₁ i → k₂.renamed[φ i]?.join = k₁.renamed[i]?.join

theorem Alike.value (h : k₁.Alike φ g₁ c₁ r₁ g₂ k₂) {v : Value}
    (hv : g₁.Reached c₁ r₁ v.node) : k₂.value (v.rename φ) = k₁.value v := by
  simp only [Copy.value, Value.rename, h.renamed v.node hv]

theorem mapM_value_eq (h : k₁.Alike φ g₁ c₁ r₁ g₂ k₂) {us : List Value}
    (hus : ∀ u ∈ us, g₁.Reached c₁ r₁ u.node) :
    (us.map (.rename φ)).mapM k₂.value = us.mapM k₁.value := by
  induction us with
  | nil => rfl
  | cons u us ih =>
    rw [List.map_cons, List.mapM_cons, List.mapM_cons, h.value (hus u List.mem_cons_self),
      ih fun v hv => hus v (List.mem_cons_of_mem u hv)]

/-- Both copies fail alike, or go on alike. -/
def AlikeResults (φ : Nat → Nat) (g₁ : Graph) (c₁ : Value → Except Fault Value) (r₁ : Nat)
    (g₂ : Graph) : Except Fault Copy → Except Fault Copy → Prop
  | .ok k₁, .ok k₂ => k₁.Alike φ g₁ c₁ r₁ g₂ k₂
  | .error f₁, .error f₂ => f₂ = f₁
  | _, _ => False

theorem Alike.node (h : k₁.Alike φ g₁ c₁ r₁ g₂ k₂) (hr : Renames φ g₁ c₁ r₁ g₂ c₂ r₂) {i : Nat}
    (hi : g₁.Reached c₁ r₁ i) {us : List Value} (hus : ∀ u ∈ us, g₁.Reached c₁ r₁ u.node) :
    AlikeResults φ g₁ c₁ r₁ g₂ (k₁.node g₁ i us) (k₂.node g₂ (φ i) (us.map (.rename φ))) := by
  obtain ⟨n, _, vs, hn, _, hn', _⟩ := hr.node i hi
  have hmap := mapM_value_eq h hus
  simp only [Copy.node, node_of_getElem? hn, node_of_getElem? hn', bind, Except.bind, hmap]
  cases us.mapM k₁.value with
  | error f => rfl
  | ok ops =>
    simp only [Graph.add, h.graph]
    by_cases hadmits : k₁.graph.admits { n with operands := ops } = true
    · simp only [hadmits, if_true]
      refine ⟨rfl, by simpa using h.size_renamed, by simpa using h.size_other, fun j hj => ?_⟩
      have hlt₁ : i < k₁.renamed.size := h.size_renamed ▸ lt_size_of_getElem? hn
      have hlt₂ : φ i < k₂.renamed.size := h.size_other ▸ lt_size_of_getElem? hn'
      rw [Array.getElem?_setIfInBounds, Array.getElem?_setIfInBounds]
      by_cases heq : i = j
      · rw [if_pos heq, if_pos (by rw [heq]), if_pos hlt₁, if_pos hlt₂]
      · rw [if_neg heq, if_neg fun hφ => heq (hr.injective i j hi hj hφ), h.renamed j hj]
    · simp only [hadmits]
      rfl

theorem Alike.foldlM (hr : Renames φ g₁ c₁ r₁ g₂ c₂ r₂) (entered entered' : Nat → List Value)
    (ids : List Nat) (hids : ∀ i ∈ ids, g₁.Reached c₁ r₁ i ∧
      (∀ u ∈ entered i, g₁.Reached c₁ r₁ u.node) ∧
      entered' (φ i) = (entered i).map (.rename φ)) (h : k₁.Alike φ g₁ c₁ r₁ g₂ k₂) :
    AlikeResults φ g₁ c₁ r₁ g₂
      (ids.foldlM (fun (k : Copy) i => k.node g₁ i (entered i)) k₁)
      ((ids.map φ).foldlM (fun (k : Copy) i => k.node g₂ i (entered' i)) k₂) := by
  induction ids generalizing k₁ k₂ with
  | nil => exact h
  | cons i ids ih =>
    obtain ⟨hi, hus, hentered⟩ := hids i List.mem_cons_self
    have hnode := h.node hr hi hus
    rw [List.map_cons, List.foldlM_cons, List.foldlM_cons, hentered]
    cases hk₁ : k₁.node g₁ i (entered i) with
    | error f =>
      rw [hk₁] at hnode
      cases hk₂ : k₂.node g₂ (φ i) ((entered i).map (.rename φ)) with
      | error f' =>
        rw [hk₂] at hnode
        exact hnode
      | ok k => rw [hk₂] at hnode; exact hnode.elim
    | ok k =>
      rw [hk₁] at hnode
      cases hk₂ : k₂.node g₂ (φ i) ((entered i).map (.rename φ)) with
      | error f' => rw [hk₂] at hnode; exact hnode.elim
      | ok k' =>
        rw [hk₂] at hnode
        exact ih (fun j hj => hids j (List.mem_cons_of_mem i hj)) hnode

end Copy

/-- The live part does not depend on the names of the nodes that are copied. -/
theorem Renames.live_eq (hr : Renames φ g₁ c₁ r₁ g₂ c₂ r₂) : g₂.live c₂ r₂ = g₁.live c₁ r₁ := by
  obtain ⟨w₁, w₂, hw₁, hw₂, hw⟩ := hr.walk
  have hstart : Copy.Alike φ g₁ c₁ r₁ g₂ { renamed := Array.replicate g₁.size none }
      { renamed := Array.replicate g₂.size none } :=
    ⟨rfl, Array.size_replicate, Array.size_replicate, fun i _ => by
      rw [join_replicate_none, join_replicate_none]⟩
  have hcopies := Copy.Alike.foldlM hr (fun id => (w₁.entered[id]?.join).getD [])
    (fun id => (w₂.entered[id]?.join).getD []) w₁.order.reverse (fun i hi => by
      obtain ⟨ops, hops⟩ := Option.isSome_iff_exists.1 (hw.order i (List.mem_reverse.1 hi))
      obtain ⟨hreached, n, hn, hmap⟩ := hw.entered i ops hops
      have hother := hw.operands i hreached
      simp only [Walk.operandsOf, hops, Option.map_some] at hother
      simp only [hops, hother, Option.getD_some]
      exact ⟨hreached, hreached.of_mapM hn hmap, trivial⟩) hstart
  rw [List.map_reverse, ← hw.order_eq] at hcopies
  simp only [live, hw₁, hw₂, bind, Except.bind]
  cases hk₁ : w₁.order.reverse.foldlM
      (fun (c : Copy) id => c.node g₁ id ((w₁.entered[id]?.join).getD []))
      { renamed := Array.replicate g₁.size none } with
  | error f =>
    rw [hk₁] at hcopies
    cases hk₂ : w₂.order.reverse.foldlM
        (fun (c : Copy) id => c.node g₂ id ((w₂.entered[id]?.join).getD []))
        { renamed := Array.replicate g₂.size none } with
    | error f' =>
      rw [hk₂] at hcopies
      exact congrArg Except.error hcopies
    | ok k => rw [hk₂] at hcopies; exact hcopies.elim
  | ok k₁ =>
    rw [hk₁] at hcopies
    cases hk₂ : w₂.order.reverse.foldlM
        (fun (c : Copy) id => c.node g₂ id ((w₂.entered[id]?.join).getD []))
        { renamed := Array.replicate g₂.size none } with
    | error f' => rw [hk₂] at hcopies; exact hcopies.elim
    | ok k₂ =>
      rw [hk₂] at hcopies
      have hroot := hcopies.value (v := ⟨r₁, 0⟩) .root
      rw [Value.rename, hr.root] at hroot
      dsimp only at hroot ⊢
      rw [hroot, hcopies.graph]

/-! ### Live parts of live parts -/

/-- The operands of a copied node have canonical forms, of which the copy reads the copies. -/
theorem Copy.Stands.mapM_operands {ids : List Nat} {id : Nat} {n m : Node}
    (h : Stands g canonical ids id n) (hm : g.nodes[id]? = some m) :
    m.operands.mapM canonical = .ok (n.operands.map (.rename (ids.getD · 0))) := by
  obtain ⟨m', hm', _, hlen, hops⟩ := h
  rw [hm] at hm'
  cases hm'
  apply mapM_eq_ok_of_getElem?
  · rw [List.length_map, hlen]
  · intro i w hw
    rw [List.getElem?_map, Option.map_eq_some_iff] at hw
    obtain ⟨u, hu, rfl⟩ := hw
    obtain ⟨v, w, hv, hvw, hslot, hnode⟩ := hops i u hu
    refine ⟨v, hv, ?_⟩
    rw [hvw, Value.rename, List.getD_eq_getElem?_getD, hnode, hslot]
    rfl

/-- In a live part, every node has its place in `ids` for a number. -/
theorem Extracts.renames {ids : List Nat} {h : Graph} (hx : g.Extracts canonical root ids h) :
    Renames (fun i => ids.idxOf i) g canonical root h .ok (ids.length - 1) := by
  have hlast := hx.last
  rw [List.getLast?_eq_getElem?] at hlast
  have hplace {k i : Nat} (hk : ids[k]? = some i) : ids.idxOf i = k := by
    obtain ⟨hlt, rfl⟩ := List.getElem?_eq_some_iff.1 hk
    exact hx.nodup.idxOf_getElem k hlt
  have hfound {i : Nat} (hi : g.Reached canonical root i) : ids[ids.idxOf i]? = some i := by
    have hlt := List.idxOf_lt_length_of_mem ((hx.mem_iff i).2 hi)
    rw [List.getElem?_eq_getElem hlt, List.getElem_idxOf hlt]
  refine ⟨hplace hlast, fun i j hi hj hij => ?_, fun i hi => ?_⟩
  · have hfound_i := hfound hi
    rw [hij, hfound hj] at hfound_i
    exact (Option.some.inj hfound_i).symm
  · have hlt : ids.idxOf i < h.size := by
      rw [hx.size_eq]
      exact (List.getElem?_eq_some_iff.1 (hfound hi)).1
    obtain ⟨n, hn⟩ : ∃ n, h.nodes[ids.idxOf i]? = some n := ⟨_, Array.getElem?_eq_getElem hlt⟩
    have hstands := hx.stands _ i n (hfound hi) hn
    obtain ⟨m, hm, heq, _, hops⟩ := id hstands
    refine ⟨m, _, n.operands, hm, Copy.Stands.mapM_operands hstands hm, heq ▸ hn, ?_⟩
    rw [List.map_map]
    apply mapM_eq_ok_of_getElem?
    · rw [List.length_map]
    · intro k u hu
      rw [List.getElem?_map, Option.map_eq_some_iff] at hu
      obtain ⟨u', hu', rfl⟩ := hu
      obtain ⟨_, w, _, _, _, hw⟩ := hops k u' hu'
      refine ⟨u', hu', ?_⟩
      simp only [Function.comp_apply, Value.rename, List.getD_eq_getElem?_getD, hw,
        Option.getD_some, hplace hw]

/-- A live part is the live part of itself. -/
theorem Extracts.live_eq {ids : List Nat} {h : Graph} (hx : g.Extracts canonical root ids h) :
    h.live .ok (ids.length - 1) = g.live canonical root :=
  hx.renames.live_eq

/-! ### Isomorphic graphs -/

/-- `φ` maps what `r₁` reaches in `g₁` to what `r₂` reaches in `g₂`, one to one, and keeps the root,
operations, types, attributes, slots and the order of operands. Other nodes and the numbers do not
matter. As operands are mapped to operands, `φ` is onto (`Isomorphic.bijOn`). -/
structure Isomorphic (φ : Nat → Nat) (g₁ : Graph) (r₁ : Nat) (g₂ : Graph) (r₂ : Nat) : Prop where
  root : φ r₁ = r₂
  injective : ∀ i j, g₁.Reached .ok r₁ i → g₁.Reached .ok r₁ j → φ i = φ j → i = j
  node : ∀ i, g₁.Reached .ok r₁ i → ∃ n, g₁.nodes[i]? = some n ∧
    g₂.nodes[φ i]? = some { n with operands := n.operands.map (.rename φ) }

theorem mapM_ok {ε : Type} (vs : List Value) : vs.mapM (.ok : Value → Except ε Value) = .ok vs :=
  mapM_eq_ok_of_getElem? rfl fun _ v hv => ⟨v, hv, rfl⟩

theorem Isomorphic.renames (h : Isomorphic φ g₁ r₁ g₂ r₂) :
    Renames φ g₁ .ok r₁ g₂ .ok r₂ where
  root := h.root
  injective := h.injective
  node i hi := by
    obtain ⟨n, hn, hn'⟩ := h.node i hi
    exact ⟨n, n.operands, _, hn, mapM_ok _, hn', mapM_ok _⟩

theorem Isomorphic.bijOn (h : Isomorphic φ g₁ r₁ g₂ r₂) :
    Set.BijOn φ {i | g₁.Reached .ok r₁ i} {j | g₂.Reached .ok r₂ j} := by
  refine ⟨?_, fun i hi j hj => h.injective i j hi hj, ?_⟩
  · intro i hi
    induction hi with
    | root => exact h.root ▸ .root
    | operand hi hn hv hw ih =>
      cases hw
      obtain ⟨n, hn₁, hn₂⟩ := h.node _ hi
      rw [hn] at hn₁
      cases hn₁
      exact Reached.operand (w := Value.rename φ _) ih hn₂ (List.mem_map_of_mem hv) rfl
  · intro j hj
    induction hj with
    | root => exact ⟨r₁, .root, h.root⟩
    | operand _ hn hv hw ih =>
      cases hw
      obtain ⟨i, hi, rfl⟩ := ih
      obtain ⟨n, hn₁, hn₂⟩ := h.node i hi
      rw [hn₂] at hn
      cases hn
      obtain ⟨u, hu, rfl⟩ := List.mem_map.1 hv
      exact ⟨u.node, .operand hi hn₁ hu rfl, rfl⟩

theorem Renames.isomorphic (h : Renames φ g₁ .ok r₁ g₂ .ok r₂) :
    Isomorphic φ g₁ r₁ g₂ r₂ where
  root := h.root
  injective := h.injective
  node i hi := by
    obtain ⟨n, us, vs, hn, hus, hn', hvs⟩ := h.node i hi
    rw [mapM_ok] at hus hvs
    cases hus
    cases hvs
    exact ⟨n, hn, hn'⟩

/-- The other way goes back to the old names. -/
theorem Isomorphic.inverse {ψ : Nat → Nat} (h : Isomorphic φ g₁ r₁ g₂ r₂)
    (hψ : ∀ i, g₁.Reached .ok r₁ i → ψ (φ i) = i) : Isomorphic ψ g₂ r₂ g₁ r₁ where
  root := by rw [← h.root, hψ r₁ .root]
  injective := by
    intro j j' hj hj' heq
    obtain ⟨i, hi, rfl⟩ := h.bijOn.2.2 hj
    obtain ⟨i', hi', rfl⟩ := h.bijOn.2.2 hj'
    rw [hψ i hi, hψ i' hi'] at heq
    rw [heq]
  node := by
    intro j hj
    obtain ⟨i, hi, rfl⟩ := h.bijOn.2.2 hj
    obtain ⟨n, hn, hn'⟩ := h.node i hi
    refine ⟨_, hn', ?_⟩
    have hops : (n.operands.map (.rename φ)).map (.rename ψ) = n.operands := by
      rw [List.map_map]
      refine (List.map_congr_left fun v hv => ?_).trans (List.map_id _)
      simp only [Function.comp_apply, Value.rename, hψ v.node (.operand hi hn hv rfl), id]
    rw [hψ i hi, hn]
    dsimp only
    rw [hops]

end Graph

namespace Legal

open Dataflow.Graph

/-- Numbers and dead nodes do not matter: graphs that are the same up to the numbers of the nodes
that their roots reach have the same live part, and become the same graph, or end with the same
error, on every target. -/
theorem legalize_eq_of_isomorphic {g₁ g₂ : Graph} {r₁ r₂ : Nat} {φ : Nat → Nat}
    (h₁ : g₁.root = some r₁) (h₂ : g₂.root = some r₂) (hiso : Isomorphic φ g₁ r₁ g₂ r₂) :
    g₁.live .ok r₁ = g₂.live .ok r₂ ∧
      ∀ (T : Target) (config : Config) (fuel : Nat),
        legalize T config fuel g₁ = legalize T config fuel g₂ := by
  have hlive := hiso.renames.live_eq
  have hstart : Run.start g₁ = Run.start g₂ := by
    simp only [Run.start, h₁, h₂, hlive]
  refine ⟨hlive.symm, fun T config fuel => ?_⟩
  simp only [legalize, hstart]

/-- The difference of two arguments. -/
def difference : Graph :=
  ((((Graph.empty.push { opcode := .argument, results := [.i64], attr := .arg 0 0 }).push
    { opcode := .argument, results := [.i64], attr := .arg 1 0 }).push
    { opcode := .int .sub, operands := [⟨0, 0⟩, ⟨1, 0⟩], results := [.i64] }).push
    { opcode := .output, operands := [⟨2, 0⟩], attr := .widths [64] }).setRoot 3

/-- The difference of two arguments, with the second one first and a dead node between them. -/
def renumberedDifference : Graph :=
  (((((Graph.empty.push { opcode := .argument, results := [.i64], attr := .arg 1 0 }).push
    { opcode := .undef, results := [.v4f32] }).push
    { opcode := .argument, results := [.i64], attr := .arg 0 0 }).push
    { opcode := .int .sub, operands := [⟨2, 0⟩, ⟨0, 0⟩], results := [.i64] }).push
    { opcode := .output, operands := [⟨3, 0⟩], attr := .widths [64] }).setRoot 4

theorem legalize_eq_of_isomorphic_difference :
    difference ≠ renumberedDifference ∧
      difference.live .ok 3 = renumberedDifference.live .ok 4 ∧
      ∀ (T : Target) (config : Config) (fuel : Nat),
        legalize T config fuel difference = legalize T config fuel renumberedDifference := by
  have hbuilt : difference.Built := built_of_pushAll? 3 rfl
  have hiso : Isomorphic (fun i => [2, 0, 3, 4].getD i 0) difference 3 renumberedDifference 4 := by
    refine ⟨rfl, fun i j hi hj => ?_, fun i hi => ?_⟩
    · have hinjective : ∀ i < 4, ∀ j < 4, [2, 0, 3, 4].getD i 0 = [2, 0, 3, 4].getD j 0 → i = j := by
        decide
      exact hinjective i (hbuilt.reached_lt (by decide) hi) j (hbuilt.reached_lt (by decide) hj)
    · have hi : i < 4 := hbuilt.reached_lt (by decide) hi
      obtain rfl | rfl | rfl | rfl : i = 0 ∨ i = 1 ∨ i = 2 ∨ i = 3 := by omega
      all_goals exact ⟨_, rfl, rfl⟩
  exact ⟨by decide, legalize_eq_of_isomorphic rfl rfl hiso⟩

end Legal

end Dataflow
