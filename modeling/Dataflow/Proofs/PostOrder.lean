import Dataflow.Proofs.Live
import Mathlib.Algebra.Ring.Nat

/-!
# The order of a copy

When canonical edges lead to nodes of lower rank, the walk comes to its end and emits every node
after its canonical operands. So a copy finds every operand it looks up, and fails only where the
graph itself is broken.
-/

namespace Dataflow.Graph

variable {g : Graph} {canonical : Value → Except Fault Value} {root id : Nat} {rank : Nat → Nat}

/-- Of the nodes that `root` reaches, canonical operands have lower rank. -/
def Descends (g : Graph) (canonical : Value → Except Fault Value) (root : Nat)
    (rank : Nat → Nat) : Prop :=
  ∀ (id : Nat) n v w, g.Reached canonical root id → g.nodes[id]? = some n → v ∈ n.operands →
    canonical v = .ok w → rank w.node < rank id

theorem Built.descends (hg : g.Built) (root : Nat) : g.Descends .ok root fun id => id := by
  intro id n v w _ hn hv hw
  cases hw
  exact (hg.operand hn hv).1

/-- Why node `id` cannot be copied. -/
inductive Broken (g : Graph) (canonical : Value → Except Fault Value) (id : Nat) : Fault → Prop
  | missing : g.nodes[id]? = none → Broken g canonical id .noSuchNode
  | astray (n : Node) (v : Value) (f : Fault) : g.nodes[id]? = some n → v ∈ n.operands →
    canonical v = .error f → Broken g canonical id f
  | untyped (n : Node) (v w : Value) : g.nodes[id]? = some n → v ∈ n.operands →
    canonical v = .ok w → g.typeOf? w = none → Broken g canonical id .noSuchResult

def Visit.node : Visit → Nat
  | enter id | leave id => id

def Visit.leaving? : Visit → Option Nat
  | enter _ => none
  | leave id => some id

namespace Walk

variable {w w' : Walk}

/-- The canonical operands of a node that was entered. -/
def operandsOf (w : Walk) (id : Nat) : Option (List Value) :=
  w.entered[id]?.join

/-- A node that waits on the stack to be emitted has its operands in `seen` or above it. -/
def Covered (operandsOf : Nat → Option (List Value)) : List Nat → List Visit → Prop
  | _, [] => True
  | seen, .enter id :: stack => Covered operandsOf (id :: seen) stack
  | seen, .leave id :: stack =>
    (∀ ops, operandsOf id = some ops → ∀ u ∈ ops, u.node ∈ seen) ∧
      Covered operandsOf (id :: seen) stack

/-- Nodes were emitted after their operands; the last one comes first. -/
def Emitted (operandsOf : Nat → Option (List Value)) : List Nat → Prop
  | [] => True
  | id :: order =>
    (∀ ops, operandsOf id = some ops → ∀ u ∈ ops, u.node ∈ order) ∧ Emitted operandsOf order

theorem Covered.mono {f f' : Nat → Option (List Value)} {seen seen' : List Nat}
    {stack : List Visit} (h : Covered f seen stack) (hsub : seen ⊆ seen')
    (hf : ∀ id, .leave id ∈ stack → f' id = f id) : Covered f' seen' stack := by
  induction stack generalizing seen seen' with
  | nil => trivial
  | cons x stack ih =>
    have hrest : ∀ id, .leave id ∈ stack → f' id = f id := fun id hid =>
      hf id (List.mem_cons_of_mem x hid)
    cases x with
    | enter id => exact ih h (List.cons_subset_cons id hsub) hrest
    | leave id =>
      refine ⟨fun ops hops u hu => hsub (h.1 ops ?_ u hu),
        ih h.2 (List.cons_subset_cons id hsub) hrest⟩
      rw [← hf id List.mem_cons_self, hops]

theorem covered_enters {f : Nat → Option (List Value)} {seen : List Nat} {stack : List Visit}
    (vs : List Value) (h : Covered f ((vs.map (·.node)).reverse ++ seen) stack) :
    Covered f seen (vs.map (.enter ·.node) ++ stack) := by
  induction vs generalizing seen with
  | nil => exact h
  | cons v vs ih =>
    exact ih (show Covered f (_ ++ v.node :: seen) stack by simpa using h)

theorem Emitted.congr {f f' : Nat → Option (List Value)} {order : List Nat} (h : Emitted f order)
    (hf : ∀ id ∈ order, f' id = f id) : Emitted f' order := by
  induction order with
  | nil => trivial
  | cons id order ih =>
    refine ⟨fun ops hops => h.1 ops ?_, ih h.2 fun j hj => hf j (List.mem_cons_of_mem id hj)⟩
    rw [← hf id List.mem_cons_self, hops]

/-- The root is looked at first, and waits below everything else until it is emitted last. -/
inductive Due (root : Nat) (w : Walk) : Prop
  | first : w.stack = [.enter root] → w.operandsOf root = none → Due root w
  | waiting : w.stack.getLast? = some (.leave root) → Due root w
  | last : w.stack = [] → w.order.head? = some root → Due root w

/-- A walk emits operands first: whatever lies above a node that waits to be emitted has lower
rank, and a node that was entered waits or was emitted, once. -/
structure Layered (g : Graph) (canonical : Value → Except Fault Value) (rank : Nat → Nat)
    (root : Nat) (w : Walk) : Prop extends w.Valid g canonical root where
  ranked : w.stack.Pairwise fun x y => ∀ a, y = .leave a → rank x.node < rank a
  waits : ∀ id ops, w.operandsOf id = some ops → id ∈ w.order ∨ .leave id ∈ w.stack
  covered : Covered w.operandsOf w.order w.stack
  emitted : Emitted w.operandsOf w.order
  once : (w.stack.filterMap Visit.leaving? ++ w.order).Nodup
  due : w.Due root

/-- A node on top of the stack that was entered before was emitted. -/
theorem Layered.mem_order (h : w.Layered g canonical rank root) {stack : List Visit}
    (hw : w.stack = .enter id :: stack) {j : Nat} {ops : List Value}
    (hj : w.operandsOf j = some ops) (hlow : rank j ≤ rank id) : j ∈ w.order := by
  refine (h.waits j ops hj).resolve_right fun hmem => ?_
  have hranked := h.ranked
  rw [hw] at hranked hmem
  have hlt := (List.pairwise_cons.1 hranked).1 _
    ((List.mem_cons.1 hmem).resolve_left (by simp)) j rfl
  exact absurd hlt (Nat.not_lt_of_le hlow)

theorem Layered.skip (h : w.Layered g canonical rank root) {stack : List Visit}
    (hw : w.stack = .enter id :: stack) (hvalid : Valid g canonical root { w with stack })
    {ops : List Value} (hid : w.operandsOf id = some ops) :
    Layered g canonical rank root { w with stack } where
  toValid := hvalid
  ranked := by
    have hranked := h.ranked
    rw [hw] at hranked
    exact (List.pairwise_cons.1 hranked).2
  waits j ops' hj := by
    have hwaits := h.waits j ops' hj
    rw [hw] at hwaits
    exact hwaits.imp_right fun hm => (List.mem_cons.1 hm).resolve_left (by simp)
  covered := by
    have hcovered := h.covered
    rw [hw] at hcovered
    refine Covered.mono hcovered (fun j hj => ?_) fun _ _ => rfl
    rcases List.mem_cons.1 hj with rfl | hj
    · exact h.mem_order hw hid (Nat.le_refl _)
    · exact hj
  emitted := h.emitted
  once := by
    have honce := h.once
    rw [hw] at honce
    exact honce
  due := by
    cases h.due with
    | first hstack hroot =>
      rw [hw] at hstack
      obtain ⟨hid', -⟩ := List.cons.inj hstack
      cases hid'
      rw [hid] at hroot
      cases hroot
    | waiting hlast =>
      rw [hw] at hlast
      cases stack with
      | nil => cases hlast
      | cons x stack => exact .waiting (by rwa [List.getLast?_cons_cons] at hlast)
    | last hstack =>
      rw [hw] at hstack
      cases hstack

theorem Layered.emit (h : w.Layered g canonical rank root) {stack : List Visit}
    (hw : w.stack = .leave id :: stack)
    (hvalid : Valid g canonical root { w with stack, order := id :: w.order }) :
    Layered g canonical rank root { w with stack, order := id :: w.order } where
  toValid := hvalid
  ranked := by
    have hranked := h.ranked
    rw [hw] at hranked
    exact (List.pairwise_cons.1 hranked).2
  waits j ops hj := by
    have hwaits := h.waits j ops hj
    rw [hw] at hwaits
    simp only [List.mem_cons, Visit.leave.injEq] at hwaits ⊢
    grind
  covered := by
    have hcovered := h.covered
    rw [hw] at hcovered
    exact hcovered.2
  emitted := by
    have hcovered := h.covered
    rw [hw] at hcovered
    exact ⟨hcovered.1, h.emitted⟩
  once := by
    have honce := h.once
    rw [hw] at honce
    exact List.perm_middle.nodup_iff.2 honce
  due := by
    cases h.due with
    | first hstack =>
      rw [hw] at hstack
      cases hstack
    | waiting hlast =>
      rw [hw] at hlast
      cases stack with
      | nil =>
        cases hlast
        exact .last rfl rfl
      | cons x stack => exact .waiting (by rwa [List.getLast?_cons_cons] at hlast)
    | last hstack =>
      rw [hw] at hstack
      cases hstack

/-! ### Entering a node -/

section EnterNode

variable {stack : List Visit} {n : Node} {ops : List Value}

/-- The walk once node `id` was entered: its operands that were not come first, then the node. -/
abbrev enterNode (w : Walk) (id : Nat) (ops : List Value) (stack : List Visit) : Walk :=
  { w with
    stack := (ops.filter fun v => !w.isEntered v.node).map (.enter ·.node) ++ .leave id :: stack
    entered := w.entered.setIfInBounds id (some ops) }

theorem operandsOf_enterNode (hid : id < w.entered.size) (j : Nat) :
    (w.enterNode id ops stack).operandsOf j = if j = id then some ops else w.operandsOf j := by
  rw [operandsOf, Array.getElem?_setIfInBounds]
  by_cases hj : j = id
  · simp [hj, hid]
  · simp [hj, Ne.symm hj, operandsOf]

theorem Valid.ne_of_leave (h : w.Valid g canonical root) (hfresh : w.operandsOf id = none) {j : Nat}
    (hj : .leave j ∈ w.stack) : j ≠ id := by
  rintro rfl
  have hentered : (w.operandsOf j).isSome := h.leave j hj
  simp [hfresh] at hentered

theorem Valid.ne_of_mem_order (h : w.Valid g canonical root) (hfresh : w.operandsOf id = none)
    {j : Nat} (hj : j ∈ w.order) : j ≠ id := by
  rintro rfl
  have hentered : (w.operandsOf j).isSome := h.order j hj
  simp [hfresh] at hentered

theorem Valid.lt_size_entered (h : w.Valid g canonical root) (hn : g.nodes[id]? = some n) :
    id < w.entered.size := by
  rw [h.size_entered]
  exact lt_size_of_getElem? hn

/-- What a node reads has lower rank than the node. -/
theorem Valid.rank_operand (h : w.Valid g canonical root) (hd : g.Descends canonical root rank)
    (hw : w.stack = .enter id :: stack) (hn : g.nodes[id]? = some n)
    (hops : n.operands.mapM canonical = .ok ops) {u : Value} (hu : u ∈ ops) :
    rank u.node < rank id := by
  obtain ⟨i, hi⟩ := List.getElem?_of_mem hu
  obtain ⟨v, hv, hvu⟩ := (mapM_eq_ok hops).2 i u hi
  have hreached := h.enter id (by rw [hw]; exact List.mem_cons_self)
  exact hd id n v u hreached hn (List.mem_of_getElem? hv) hvu

theorem Layered.ranked_enterNode (h : w.Layered g canonical rank root)
    (hw : w.stack = .enter id :: stack) (hlow : ∀ u ∈ ops, rank u.node < rank id) :
    (w.enterNode id ops stack).stack.Pairwise fun x y => ∀ a, y = .leave a →
      rank x.node < rank a := by
  have hranked := h.ranked
  rw [hw] at hranked
  obtain ⟨habove, hranked⟩ := List.pairwise_cons.1 hranked
  refine List.pairwise_append.2 ⟨?_, List.pairwise_cons.2 ⟨fun y hy => habove y hy, hranked⟩, ?_⟩
  · refine List.pairwise_map.2 (List.pairwise_of_forall fun _ _ a ha => ?_)
    cases ha
  · intro x hx y hy a ha
    obtain ⟨u, hu, rfl⟩ := List.mem_map.1 hx
    have hu := hlow u (List.mem_filter.1 hu).1
    rcases List.mem_cons.1 hy with rfl | hy
    · cases ha
      exact hu
    · exact Nat.lt_trans hu (habove y hy a ha)

theorem Layered.waits_enterNode (h : w.Layered g canonical rank root)
    (hw : w.stack = .enter id :: stack) (hid : id < w.entered.size) {j : Nat} {ops' : List Value}
    (hj : (w.enterNode id ops stack).operandsOf j = some ops') :
    j ∈ w.order ∨ .leave j ∈ (w.enterNode id ops stack).stack := by
  rw [operandsOf_enterNode hid] at hj
  split at hj
  · next heq => exact .inr (by simp [heq])
  · refine (h.waits j ops' hj).imp_right fun hm => ?_
    rw [hw] at hm
    simp only [List.mem_append, List.mem_cons]
    exact .inr (.inr ((List.mem_cons.1 hm).resolve_left (by simp)))

/-- Operands that are not entered now were emitted before. -/
theorem Layered.covered_enterNode (h : w.Layered g canonical rank root)
    (hw : w.stack = .enter id :: stack) (hid : id < w.entered.size)
    (hfresh : w.operandsOf id = none) (hlow : ∀ u ∈ ops, rank u.node < rank id) :
    Covered (w.enterNode id ops stack).operandsOf w.order (w.enterNode id ops stack).stack := by
  have hcovered := h.covered
  rw [hw] at hcovered
  refine covered_enters _ ⟨fun ops' hops' u hu => ?_, ?_⟩
  · rw [operandsOf_enterNode hid, if_pos rfl] at hops'
    cases hops'
    rw [List.mem_append, List.mem_reverse, List.mem_map]
    cases hu' : w.operandsOf u.node with
    | none =>
      refine .inl ⟨u, List.mem_filter.2 ⟨hu, ?_⟩, rfl⟩
      simp only [isEntered]
      rw [show w.entered[u.node]?.join = none from hu']
      rfl
    | some ops' => exact .inr (h.mem_order hw hu' (Nat.le_of_lt (hlow u hu)))
  · refine Covered.mono hcovered ?_ fun j hj => ?_
    · exact List.cons_subset_cons _ (List.subset_append_right _ _)
    · have hne := h.ne_of_leave hfresh (by rw [hw]; exact List.mem_cons_of_mem _ hj)
      rw [operandsOf_enterNode hid, if_neg hne]

theorem Layered.once_enterNode (h : w.Layered g canonical rank root)
    (hw : w.stack = .enter id :: stack) (hfresh : w.operandsOf id = none) :
    ((w.enterNode id ops stack).stack.filterMap Visit.leaving? ++ w.order).Nodup := by
  have honce := h.once
  rw [hw] at honce
  have henters : ((ops.filter fun v => !w.isEntered v.node).map
      (fun v => Visit.enter v.node)).filterMap Visit.leaving? = [] := by
    rw [List.filterMap_map]
    exact List.filterMap_eq_nil_iff.2 fun _ _ => rfl
  rw [List.filterMap_append, henters, List.nil_append]
  refine List.nodup_cons.2 ⟨fun hmem => ?_, honce⟩
  rcases List.mem_append.1 hmem with hmem | hmem
  · obtain ⟨x, hx, hleave⟩ := List.mem_filterMap.1 hmem
    cases x with
    | enter j => cases hleave
    | leave j =>
      cases hleave
      exact h.ne_of_leave hfresh (by rw [hw]; exact List.mem_cons_of_mem _ hx) rfl
  · exact h.ne_of_mem_order hfresh hmem rfl

theorem Due.enterNode (h : w.Due root) (hw : w.stack = .enter id :: stack) :
    (w.enterNode id ops stack).Due root := by
  refine .waiting ?_
  rw [List.getLast?_append]
  cases h with
  | first hstack =>
    rw [hw] at hstack
    cases hstack
    rfl
  | waiting hlast =>
    rw [hw] at hlast
    cases stack with
    | nil => cases hlast
    | cons x stack =>
      rw [List.getLast?_cons_cons] at hlast ⊢
      rw [hlast]
      rfl
  | last hstack =>
    rw [hw] at hstack
    cases hstack

theorem Layered.enterNode (h : w.Layered g canonical rank root)
    (hd : g.Descends canonical root rank) (hw : w.stack = .enter id :: stack)
    (hfresh : w.operandsOf id = none) (hn : g.nodes[id]? = some n)
    (hops : n.operands.mapM canonical = .ok ops) :
    (w.enterNode id ops stack).Layered g canonical rank root where
  toValid := h.toValid.enterNode hw hn hops _
  ranked := h.ranked_enterNode hw fun _ => h.rank_operand hd hw hn hops
  waits _ _ := h.waits_enterNode hw (h.lt_size_entered hn)
  covered := h.covered_enterNode hw (h.lt_size_entered hn) hfresh fun _ =>
    h.rank_operand hd hw hn hops
  emitted := h.emitted.congr fun j hj => by
    rw [operandsOf_enterNode (h.lt_size_entered hn), if_neg (h.ne_of_mem_order hfresh hj)]
  once := h.once_enterNode hw hfresh
  due := h.due.enterNode hw

end EnterNode

theorem Layered.step (h : w.Layered g canonical rank root) (hd : g.Descends canonical root rank)
    (hs : w.step g canonical = .ok w') : w'.Layered g canonical rank root := by
  have hvalid := h.toValid.step hs
  unfold Walk.step at hs
  split at hs
  · cases hs
    exact h
  · next id stack hw =>
    cases hs
    exact h.emit hw hvalid
  · next id stack hw =>
    split at hs
    · next hentered =>
      cases hs
      obtain ⟨ops, hops⟩ := Option.isSome_iff_exists.1 hentered
      exact h.skip hw hvalid hops
    · next hentered =>
      cases hn : g.node id with
      | error f => rw [hn] at hs; cases hs
      | ok n =>
        rw [hn] at hs
        cases hops : n.operands.mapM canonical with
        | error f =>
          simp only [bind, Except.bind, hops] at hs
          cases hs
        | ok ops =>
          simp only [bind, Except.bind, hops] at hs
          cases hs
          exact h.enterNode hd hw (by simpa [isEntered, operandsOf] using hentered)
            (node_eq_ok hn) hops

/-! ### The end of the walk -/

/-- The nodes that are not done, each with its edges. -/
def undone (g : Graph) (done : Nat → Bool) : Nat :=
  (g.nodes.toList.zipIdx.map fun p => if done p.2 then 0 else 1 + p.1.operands.length).sum

/-- What is left to do. -/
def work (g : Graph) (w : Walk) : Nat :=
  w.stack.length + undone g fun id => (w.entered[id]?.join).isSome

theorem sum_map_of_zero {α : Type} {l : List α} (hl : l.Nodup) {a : α} (ha : a ∈ l)
    {f : α → Nat} (f' : α → Nat) (hne : ∀ x ∈ l, x ≠ a → f' x = f x) (hzero : f' a = 0) :
    (l.map f').sum + f a = (l.map f).sum := by
  induction l with
  | nil => cases ha
  | cons b l ih =>
    obtain ⟨hb, hl⟩ := List.nodup_cons.1 hl
    simp only [List.map_cons, List.sum_cons]
    rcases List.mem_cons.1 ha with rfl | hal
    · have hrest : l.map f' = l.map f := List.map_congr_left fun x hx =>
        hne x (List.mem_cons_of_mem _ hx) fun heq => hb (heq ▸ hx)
      rw [hrest, hzero]
      omega
    · have hba : b ≠ a := fun heq => hb (heq ▸ hal)
      rw [hne b List.mem_cons_self hba, Nat.add_assoc,
        ih hl hal fun x hx => hne x (List.mem_cons_of_mem b hx)]

theorem nodup_zipIdx {α : Type} (l : List α) : l.zipIdx.Nodup := by
  have h : (l.zipIdx.map Prod.snd).Nodup := by
    rw [List.zipIdx_map_snd]
    exact List.nodup_range'
  exact (List.pairwise_map.1 h).imp fun hne heq => hne (by rw [heq])

/-- A node that gets done takes its edges with it. -/
theorem undone_insert {n : Node} (hn : g.nodes[id]? = some n) (done done' : Nat → Bool)
    (hid : done id = false) (hdone : done' id = true) (hne : ∀ j, j ≠ id → done' j = done j) :
    undone g done' + (1 + n.operands.length) = undone g done := by
  have hmem : (n, id) ∈ g.nodes.toList.zipIdx := by
    rw [List.mem_zipIdx_iff_getElem?, Array.getElem?_toList]
    exact hn
  have hsum := sum_map_of_zero (a := (n, id))
    (f := fun p => if done p.2 then 0 else 1 + p.1.operands.length) (nodup_zipIdx _) hmem
    (fun p => if done' p.2 then 0 else 1 + p.1.operands.length) ?_ (by simp [hdone])
  · simp only [hid, Bool.false_eq_true, if_false] at hsum
    exact hsum
  · rintro ⟨m, j⟩ hj hpair
    have hjid : j ≠ id := fun heq => by
      rw [List.mem_zipIdx_iff_getElem?, Array.getElem?_toList] at hj
      dsimp only at hj
      rw [heq, hn] at hj
      cases hj
      exact hpair (by rw [heq])
    simp only [hne j hjid]

/-- Every action leaves less to do. -/
theorem work_step (hsize : w.entered.size = g.size) (hstack : w.stack ≠ [])
    (hs : w.step g canonical = .ok w') : w'.work g < w.work g := by
  unfold Walk.step at hs
  split at hs
  · next hw => exact absurd hw hstack
  · next id stack hw =>
    cases hs
    simp only [work, hw, List.length_cons]
    omega
  · next id stack hw =>
    split at hs
    · cases hs
      simp only [work, hw, List.length_cons]
      omega
    · next hentered =>
      cases hn : g.node id with
      | error f => rw [hn] at hs; cases hs
      | ok n =>
        rw [hn] at hs
        cases hops : n.operands.mapM canonical with
        | error f =>
          simp only [bind, Except.bind, hops] at hs
          cases hs
        | ok ops =>
          simp only [bind, Except.bind, hops] at hs
          cases hs
          have hlt : id < w.entered.size := hsize ▸ lt_size_of_getElem? (node_eq_ok hn)
          have hset := undone_insert (node_eq_ok hn) (fun j => (w.entered[j]?.join).isSome)
            (fun j => ((w.entered.setIfInBounds id (some ops))[j]?.join).isSome)
            (by simpa [isEntered] using hentered) (by simp [hlt])
            (fun j hj => by simp [Ne.symm hj])
          have hlen := (mapM_eq_ok hops).1
          have hle := List.length_filter_le (fun v => !w.isEntered v.node) ops
          simp only [work, hw, List.length_cons, List.length_append, List.length_map]
          omega

/-- A step fails at a broken node only. -/
theorem Valid.step_eq_error (h : w.Valid g canonical root) {f : Fault}
    (hs : w.step g canonical = .error f) :
    ∃ id, g.Reached canonical root id ∧ g.Broken canonical id f := by
  unfold Walk.step at hs
  split at hs
  · cases hs
  · cases hs
  · next id stack hw =>
    have hreached := h.enter id (by rw [hw]; exact List.mem_cons_self)
    split at hs
    · cases hs
    · cases hn : g.nodes[id]? with
      | none =>
        simp only [Graph.node, hn, bind, Except.bind] at hs
        cases hs
        exact ⟨id, hreached, .missing hn⟩
      | some n =>
        rw [node_of_getElem? hn] at hs
        cases hops : n.operands.mapM canonical with
        | error f' =>
          simp only [bind, Except.bind, hops] at hs
          cases hs
          obtain ⟨v, hv, hf⟩ := mapM_eq_error hops
          exact ⟨id, hreached, .astray n v f hn hv hf⟩
        | ok ops =>
          simp only [bind, Except.bind, hops] at hs
          cases hs

/-- With enough fuel the walk ends with an empty stack, or at a broken node. -/
theorem Layered.run {fuel : Nat} (h : w.Layered g canonical rank root)
    (hd : g.Descends canonical root rank) (hfuel : w.work g ≤ fuel) :
    (∀ w', w.run g canonical fuel = .ok w' →
      w'.Layered g canonical rank root ∧ w'.stack = []) ∧
    ∀ f, w.run g canonical fuel = .error f →
      ∃ id, g.Reached canonical root id ∧ g.Broken canonical id f := by
  induction fuel generalizing w with
  | zero =>
    refine ⟨fun w' hr => ?_, fun f hr => by cases hr⟩
    cases hr
    refine ⟨h, List.eq_nil_of_length_eq_zero ?_⟩
    simp only [work] at hfuel
    omega
  | succ fuel ih =>
    unfold Walk.run
    split
    · next hw =>
      refine ⟨fun w' hr => ?_, fun f hr => by cases hr⟩
      cases hr
      exact ⟨h, List.isEmpty_iff.1 hw⟩
    · next hw =>
      cases hs : w.step g canonical with
      | error f =>
        refine ⟨fun w' hr => (by cases hr), fun f' hr => ?_⟩
        cases hr
        exact h.toValid.step_eq_error hs
      | ok w' =>
        have hlt := work_step h.size_entered (fun hn => hw (by rw [hn]; rfl)) hs
        exact ih (h.step hd hs) (by omega)

end Walk

theorem edges_eq (g : Graph) : g.edges = (g.nodes.toList.map (·.operands.length)).sum := by
  unfold edges
  rw [← Array.foldl_toList, ← List.foldl_map (f := fun n : Node => n.operands.length),
    ← List.sum_eq_foldl]

theorem sum_edges (ns : List Node) (k : Nat) :
    ((ns.zipIdx k).map fun p => 1 + p.1.operands.length).sum =
      ns.length + (ns.map (·.operands.length)).sum := by
  induction ns generalizing k with
  | nil => rfl
  | cons n ns ih =>
    simp only [List.zipIdx_cons, List.map_cons, List.sum_cons, List.length_cons, ih]
    omega

/-- At its start, a walk has to enter every node and to go along every edge. -/
theorem Walk.work_start (g : Graph) (root : Nat) :
    Walk.work g { stack := [.enter root], entered := Array.replicate g.size none } =
      1 + (g.size + g.edges) := by
  simp only [Walk.work, Walk.undone, join_replicate_none, Option.isSome_none, Bool.false_eq_true,
    if_false, List.length_singleton]
  rw [edges_eq, sum_edges, Array.length_toList]
  rfl

/-- The walk from `root` ends with an empty stack, or at a broken node. -/
theorem walk_layered (hd : g.Descends canonical root rank) :
    (∀ w, g.walk canonical root = .ok w → w.Layered g canonical rank root ∧ w.stack = []) ∧
    ∀ f, g.walk canonical root = .error f →
      ∃ id, g.Reached canonical root id ∧ g.Broken canonical id f := by
  refine Walk.Layered.run ⟨Walk.valid_start g canonical root, by simp, fun id ops hid => ?_, ?_,
    trivial, List.nodup_nil, .first rfl (join_replicate_none _ root)⟩ hd ?_
  · rw [Walk.operandsOf, join_replicate_none] at hid
    cases hid
  · trivial
  · rw [Walk.work_start]
    omega

/-! ### The copy -/

namespace Copy

variable {c c' : Copy} {ids : List Nat}

/-- A copy of the nodes `ids` that knows all their new numbers. -/
structure Complete (g : Graph) (canonical : Value → Except Fault Value) (ids : List Nat)
    (c : Copy) : Prop extends c.Mirrors g canonical ids where
  size_renamed : c.renamed.size = g.size
  known : ∀ id ∈ ids, (c.renamed[id]?.join).isSome

/-- The copies of values have their types. -/
theorem Mirrors.typeOf? (h : c.Mirrors g canonical ids) {u v : Value} (hu : c.value v = .ok u) :
    c.graph.typeOf? u = g.typeOf? v := by
  obtain ⟨hnode, hslot⟩ := value_eq_ok hu
  have hid := h.renamed _ _ hnode
  have hlt : u.node < c.graph.size := h.size_eq ▸ (List.getElem?_eq_some_iff.1 hid).1
  obtain ⟨n, hn⟩ : ∃ n, c.graph.nodes[u.node]? = some n := ⟨_, Array.getElem?_eq_getElem hlt⟩
  obtain ⟨m, hm, _, hres, _⟩ := (h.stands _ _ n hid hn).node
  simp [Graph.typeOf?, hn, hm, hres, hslot]

theorem Complete.value_ok (h : c.Complete g canonical ids) {v : Value} (hv : v.node ∈ ids) :
    ∃ u, c.value v = .ok u := by
  obtain ⟨k, hk⟩ := Option.isSome_iff_exists.1 (h.known v.node hv)
  exact ⟨⟨k, v.slot⟩, by simp only [Copy.value, hk]⟩

/-- A node whose operands are copied is copied, unless one of them has no type. -/
theorem Complete.node {m : Node} {ops : List Value} (h : c.Complete g canonical ids)
    (hm : g.nodes[id]? = some m) (hops : m.operands.mapM canonical = .ok ops)
    (hids : ∀ u ∈ ops, u.node ∈ ids) :
    (∀ c', c.node g id ops = .ok c' → c'.Complete g canonical (ids ++ [id])) ∧
    ∀ f, c.node g id ops = .error f → g.Broken canonical id f := by
  refine ⟨fun c' hc => ?_, fun f hc => ?_⟩
  · refine ⟨h.toMirrors.node hm hops hc, ?_, fun j hj => ?_⟩
    all_goals
      obtain ⟨us, _, _, rfl⟩ := node_eq_ok hm hc
    · simpa using h.size_renamed
    · have hlt : id < c.renamed.size := h.size_renamed ▸ lt_size_of_getElem? hm
      dsimp only
      rw [Array.getElem?_setIfInBounds]
      by_cases heq : id = j
      · simp [heq.symm, hlt]
      · rw [if_neg heq]
        rw [List.mem_append, List.mem_singleton] at hj
        exact h.known j (hj.resolve_right (Ne.symm heq))
  · cases hus : ops.mapM c.value with
    | error f' =>
      obtain ⟨v, hv, hvf⟩ := mapM_eq_error hus
      obtain ⟨u, hu⟩ := h.value_ok (hids v hv)
      rw [hu] at hvf
      cases hvf
    | ok us =>
      have hadmits : c.graph.admits { m with operands := us } = false := by
        cases hadmits : c.graph.admits { m with operands := us } with
        | false => rfl
        | true =>
          simp [Copy.node, Graph.node_of_getElem? hm, bind, Except.bind, hus, Graph.add, hadmits,
            pure, Except.pure] at hc
      obtain rfl : Fault.noSuchResult = f := by
        simpa [Copy.node, Graph.node_of_getElem? hm, bind, Except.bind, hus, Graph.add, hadmits]
          using hc
      obtain ⟨u, hu, hnone⟩ : ∃ u ∈ us, c.graph.typeOf? u = none := by
        simpa [Graph.admits] using hadmits
      obtain ⟨i, hi⟩ := List.getElem?_of_mem hu
      obtain ⟨w, hw, hwu⟩ := (mapM_eq_ok hus).2 i u hi
      obtain ⟨v, hv, hvw⟩ := (mapM_eq_ok hops).2 i w hw
      rw [h.toMirrors.typeOf? hwu] at hnone
      exact .untyped m v w hm (List.mem_of_getElem? hv) hvw hnone

/-- Nodes that come after their operands are copied, up to a broken one. -/
theorem Complete.foldlM {entered : Nat → List Value} {more : List Nat}
    (h : c.Complete g canonical ids)
    (hmore : ∀ id ∈ more, ∃ m, g.nodes[id]? = some m ∧
      m.operands.mapM canonical = .ok (entered id))
    (hids : ∀ l id r, more = l ++ id :: r → ∀ u ∈ entered id, u.node ∈ ids ++ l) :
    (∀ c', more.foldlM (fun (c : Copy) id => c.node g id (entered id)) c = .ok c' →
      c'.Complete g canonical (ids ++ more)) ∧
    ∀ f, more.foldlM (fun (c : Copy) id => c.node g id (entered id)) c = .error f →
      ∃ id ∈ more, g.Broken canonical id f := by
  induction more generalizing c ids with
  | nil =>
    refine ⟨fun c' hc => ?_, nofun⟩
    cases hc
    simpa using h
  | cons id more ih =>
    obtain ⟨m, hm, hops⟩ := hmore id List.mem_cons_self
    obtain ⟨hok, herror⟩ := h.node hm hops (by simpa using hids [] id more rfl)
    simp only [List.foldlM_cons]
    cases hn : c.node g id (entered id) with
    | error f =>
      refine ⟨nofun, fun f' hf => ?_⟩
      cases hf
      exact ⟨id, List.mem_cons_self, herror f hn⟩
    | ok c₁ =>
      obtain ⟨hok', herror'⟩ := ih (hok c₁ hn) (fun j hj => hmore j (List.mem_cons_of_mem _ hj))
        fun l j r hl u hu => by simpa using hids (id :: l) j r (by rw [hl]; rfl) u hu
      refine ⟨fun c' hc => by simpa using hok' c' hc, fun f hf => ?_⟩
      obtain ⟨j, hj, hbroken⟩ := herror' f hf
      exact ⟨j, List.mem_cons_of_mem _ hj, hbroken⟩

end Copy

theorem Walk.Emitted.mem {operandsOf : Nat → Option (List Value)} {later earlier : List Nat}
    (h : Walk.Emitted operandsOf (later ++ id :: earlier)) {ops : List Value}
    (hops : operandsOf id = some ops) {u : Value} (hu : u ∈ ops) : u.node ∈ earlier := by
  induction later with
  | nil => exact h.1 ops hops u hu
  | cons j later ih => exact ih h.2

section
variable {w : Walk} (h : w.Layered g canonical rank root) (hstack : w.stack = [])
include h hstack

/-- The root is emitted last. -/
theorem Walk.Layered.head?_order : w.order.head? = some root := by
  cases h.due with
  | first hfirst =>
    rw [hstack] at hfirst
    cases hfirst
  | waiting hlast =>
    rw [hstack] at hlast
    cases hlast
  | last _ hhead => exact hhead

/-- A walk that came to its end has emitted exactly what the root reaches. -/
theorem Walk.Layered.mem_order_iff (id : Nat) :
    id ∈ w.order ↔ g.Reached canonical root id := by
  constructor
  · intro hid
    obtain ⟨ops, hops⟩ := Option.isSome_iff_exists.1 (h.order id hid)
    exact (h.entered id ops hops).1
  · intro hid
    induction hid with
    | root => exact List.mem_of_mem_head? (h.head?_order hstack)
    | @operand id n v u _ hn hv hu ih =>
      obtain ⟨ops, hops⟩ := Option.isSome_iff_exists.1 (h.order id ih)
      obtain ⟨_, m, hm, hmap⟩ := h.entered id ops hops
      rw [hn] at hm
      cases hm
      have hmem : u ∈ ops := mem_of_mapM_eq_ok hmap hv hu
      obtain ⟨later, earlier, horder⟩ := List.append_of_mem ih
      have hemitted := h.emitted
      rw [horder] at hemitted
      rw [horder]
      exact List.mem_append_right _ (List.mem_cons_of_mem _ (hemitted.mem hops hmem))

theorem Walk.Layered.nodup_order : w.order.Nodup := by
  have honce := h.once
  rw [hstack] at honce
  exact honce

end

/-- `h` holds the nodes `ids`, which are those that `root` reaches, each once: node `k` stands for
`ids[k]`, and the root is the last one. -/
structure Extracts (g : Graph) (canonical : Value → Except Fault Value) (root : Nat)
    (ids : List Nat) (h : Graph) : Prop where
  nodup : ids.Nodup
  mem_iff : ∀ id, id ∈ ids ↔ g.Reached canonical root id
  last : ids.getLast? = some root
  size_eq : h.size = ids.length
  built : ∃ k, Graph.empty.Extends k ∧ h = k.setRoot (ids.length - 1)
  stands : ∀ (k id : Nat) n, ids[k]? = some id → h.nodes[k]? = some n →
    Copy.Stands g canonical ids id n

/-- The live part is extracted whole, unless the root reaches a broken node: every operand that is
looked up was emitted before. -/
theorem live_extracts (hd : g.Descends canonical root rank) :
    (∀ h, g.live canonical root = .ok h → ∃ ids, g.Extracts canonical root ids h) ∧
    ∀ f, g.live canonical root = .error f →
      ∃ id, g.Reached canonical root id ∧ g.Broken canonical id f := by
  obtain ⟨hok, herror⟩ := walk_layered hd
  unfold live
  cases hw : g.walk canonical root with
  | error f' =>
    refine ⟨fun h hl => (by cases hl), fun f hl => ?_⟩
    cases hl
    exact herror _ hw
  | ok w =>
    obtain ⟨h, hstack⟩ := hok w hw
    simp only [bind, Except.bind]
    have hentered (id : Nat) (hid : id ∈ w.order.reverse) :
        g.Reached canonical root id ∧ ∃ m, g.nodes[id]? = some m ∧
          m.operands.mapM canonical = .ok ((w.entered[id]?.join).getD []) := by
      obtain ⟨ops, hops⟩ := Option.isSome_iff_exists.1 (h.order id (List.mem_reverse.1 hid))
      rw [hops]
      exact h.entered id ops hops
    have hstart : Copy.Complete g canonical [] { renamed := Array.replicate g.size none } := by
      refine ⟨⟨.refl, rfl, fun id k hk => ?_, by simp⟩, Array.size_replicate, by simp⟩
      rw [Array.getElem?_replicate] at hk
      split at hk <;> simp at hk
    obtain ⟨hcopied, hbroken⟩ := hstart.foldlM (fun id hid => (hentered id hid).2)
      fun l id r hl u hu => by
        have horder : w.order = r.reverse ++ id :: l.reverse := by
          rw [← List.reverse_reverse w.order, hl]
          simp
        have hemitted := h.emitted
        rw [horder] at hemitted
        cases hops : w.operandsOf id with
        | none =>
          rw [show w.entered[id]?.join = none from hops] at hu
          cases hu
        | some ops =>
          rw [show w.entered[id]?.join = some ops from hops] at hu
          simpa using hemitted.mem hops hu
    cases hc : w.order.reverse.foldlM
      (fun (c : Copy) id => c.node g id ((w.entered[id]?.join).getD []))
      { renamed := Array.replicate g.size none } with
    | error f' =>
      refine ⟨fun h hl => (by cases hl), fun f hl => ?_⟩
      cases hl
      obtain ⟨id, hid, hb⟩ := hbroken _ hc
      exact ⟨id, (hentered id hid).1, hb⟩
    | ok c =>
      have hcomplete : c.Complete g canonical w.order.reverse := hcopied c hc
      have hmem := h.mem_order_iff hstack
      obtain ⟨u, hu⟩ := hcomplete.value_ok (v := ⟨root, 0⟩)
        (List.mem_reverse.2 ((hmem root).2 .root))
      have hlast : w.order.reverse.getLast? = some root := by
        rw [List.getLast?_reverse]
        exact h.head?_order hstack
      have hnodup : w.order.reverse.Nodup := (List.reverse_perm _).nodup_iff.2 (h.nodup_order hstack)
      -- the root has one place, the last
      have hplace : u.node = w.order.reverse.length - 1 := by
        have hroot := hcomplete.renamed _ _ (Copy.value_eq_ok hu).1
        rw [List.getLast?_eq_getElem?] at hlast
        exact (List.getElem?_inj (List.getElem?_eq_some_iff.1 hroot).1 hnodup).1
          (hroot.trans hlast.symm)
      dsimp only
      rw [hu]
      refine ⟨fun h' hl => ?_, fun f hl => by cases hl⟩
      cases hl
      refine ⟨w.order.reverse, hnodup, fun id => ?_, hlast, hcomplete.size_eq,
        ⟨c.graph, hcomplete.built, by rw [hplace]⟩, hcomplete.stands⟩
      rw [List.mem_reverse]
      exact hmem id

theorem Extracts.root_eq {ids : List Nat} {h : Graph} (hx : g.Extracts canonical root ids h) :
    h.root = some (ids.length - 1) := by
  obtain ⟨k, _, rfl⟩ := hx.built
  rfl

theorem Extracts.built_graph {ids : List Nat} {h : Graph} (hx : g.Extracts canonical root ids h) :
    h.Built := by
  obtain ⟨k, hk, rfl⟩ := hx.built
  exact .setRoot _ hk.built

theorem Extracts.root_lt {ids : List Nat} {h : Graph} (hx : g.Extracts canonical root ids h) :
    ids.length - 1 < h.size := by
  rw [hx.size_eq]
  have hne : ids ≠ [] := fun heq => by
    have hlast := hx.last
    rw [heq] at hlast
    cases hlast
  have := List.length_pos_iff.2 hne
  omega

/-- The live part exists when every operand that the root reaches has a canonical form. -/
theorem live_ok (hd : g.Descends canonical root rank) (hroot : root < g.size)
    (htyped : ∀ (id : Nat) n v, g.nodes[id]? = some n → v ∈ n.operands →
      ∃ w t, canonical v = .ok w ∧ g.typeOf? w = some t) :
    ∃ h ids, g.live canonical root = .ok h ∧ g.Extracts canonical root ids h := by
  obtain ⟨hok, herror⟩ := live_extracts hd
  cases hl : g.live canonical root with
  | ok h =>
    obtain ⟨ids, hx⟩ := hok h hl
    exact ⟨h, ids, rfl, hx⟩
  | error f =>
    obtain ⟨id, hid, hb⟩ := herror f hl
    cases hb with
    | missing hnone =>
      have hlt : id < g.size := by
        cases hid with
        | root => exact hroot
        | operand _ hn hv hw =>
          obtain ⟨w, t, hw', ht⟩ := htyped _ _ _ hn hv
          cases hw.symm.trans hw'
          exact lt_size_of_typeOf? ht
      rw [Array.getElem?_eq_getElem hlt] at hnone
      cases hnone
    | astray n v f hn hv hw =>
      obtain ⟨w, t, hw', _⟩ := htyped _ _ _ hn hv
      cases hw.symm.trans hw'
    | untyped n v w hn hv hw hnone =>
      obtain ⟨w', t, hw', ht⟩ := htyped _ _ _ hn hv
      cases hw.symm.trans hw'
      cases hnone.symm.trans ht

/-- The live part of a built graph exists. -/
theorem Built.live_ok (hg : g.Built) (hroot : root < g.size) :
    ∃ h ids, g.live .ok root = .ok h ∧ g.Extracts .ok root ids h := by
  apply Graph.live_ok (hg.descends root) hroot
  intro id n v hn hv
  obtain ⟨_, t, ht⟩ := hg.operand hn hv
  exact ⟨v, t, rfl, ht⟩

end Dataflow.Graph
