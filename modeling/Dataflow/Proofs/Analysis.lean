import Dataflow.Legal.Run
import Dataflow.Proofs.Arena
import Dataflow.Proofs.Canonical

/-!
# Analysis of new nodes

Analysis gives states to new nodes and touches nothing else: each node it reaches gets the number
of its operand edges whose canonical source is not processed, and joins the worklist when there is
none. It descends along canonical operand edges, which lead to nodes of lower rank, so it meets no
node twice.
-/

namespace Dataflow.Legal

/-! ### States of nodes -/

namespace States

@[simp]
theorem get_set (s : States) (id j : Nat) (x : NodeState) :
    (s.set id x).get j = if j = id then x else s.get j := by
  unfold get set
  rw [Std.TreeMap.getElem?_insert]
  by_cases h : j = id
  · simp [h]
  · simp [h, Ne.symm h]

end States

theorem NodeState.ofPending_ne_new (k : Nat) : ofPending k ≠ .new := by
  unfold ofPending
  split <;> simp

theorem NodeState.ofPending_ne_processed (k : Nat) : ofPending k ≠ .processed := by
  unfold ofPending
  split <;> simp

theorem NodeState.ofPending_eq_ready_iff {k : Nat} : ofPending k = .ready ↔ k = 0 := by
  unfold ofPending
  split <;> simp [*]

theorem NodeState.ofPending_eq_pending_iff {k m : Nat} :
    ofPending k = .pending m ↔ 0 < k ∧ k = m := by
  unfold ofPending
  split <;> simp <;> omega

/-- `d'` differs from `d` in compressed redirections, reports and counters only. -/
structure Draft.Quiet (d d' : Draft) : Prop where
  graph : d'.graph = d.graph
  conversions : d'.conversions = d.conversions
  replaced : d.replaced.Shortens d'.replaced

theorem Draft.Quiet.grows {d d' : Draft} (h : d.Quiet d') : d.Grows d' := by
  refine ⟨?_, h.replaced, ?_⟩
  · rw [h.graph]
    exact .refl
  · rw [h.conversions]
    exact .refl .refl _

namespace Run

/-- Operand `v` reads a node that is not processed. -/
def waits (s : Run) (v : Value) : Bool :=
  !s.states.isProcessed (s.draft.replaced.canon v).node

/-- Number of operand edges of a node that read nodes that are not processed. -/
def waiting (s : Run) (id : Nat) : Nat :=
  (s.draft.graph.nodes[id]?.map fun n => n.operands.countP s.waits).getD 0

theorem waiting_eq {s : Run} {id : Nat} {n : Node} (hn : s.draft.graph.nodes[id]? = some n) :
    s.waiting id = n.operands.countP s.waits := by
  simp [waiting, hn]

/-- `s'` differs from `s` in compressed redirections, reports and counters only. -/
structure Quiet (s s' : Run) : Prop where
  graph : s'.draft.graph = s.draft.graph
  conversions : s'.draft.conversions = s.draft.conversions
  replaced : s.draft.replaced.Shortens s'.draft.replaced
  root : s'.root = s.root
  states : s'.states = s.states
  worklist : s'.worklist = s.worklist

theorem Quiet.refl (s : Run) : s.Quiet s :=
  ⟨rfl, rfl, .refl _, rfl, rfl, rfl⟩

theorem Quiet.draft {s s' : Run} (h : s.Quiet s') : s.draft.Quiet s'.draft :=
  ⟨h.graph, h.conversions, h.replaced⟩

theorem Quiet.trans {s s' s'' : Run} (h : s.Quiet s') (h' : s'.Quiet s'') : s.Quiet s'' :=
  ⟨h'.graph.trans h.graph, h'.conversions.trans h.conversions, h.replaced.trans h'.replaced,
    h'.root.trans h.root, h'.states.trans h.states, h'.worklist.trans h.worklist⟩

/-- The same nodes are processed, and no node loses its state. -/
structure Stays (s s' : Run) : Prop where
  processed_iff : ∀ j, s'.states.get j = .processed ↔ s.states.get j = .processed
  analyzed : ∀ j, s.states.get j ≠ .new → s'.states.get j ≠ .new

theorem Stays.refl (s : Run) : s.Stays s :=
  ⟨fun _ => Iff.rfl, fun _ h => h⟩

theorem Stays.trans {s s' s'' : Run} (h : s.Stays s') (h' : s'.Stays s'') : s.Stays s'' :=
  ⟨fun j => (h'.processed_iff j).trans (h.processed_iff j),
    fun j hj => h'.analyzed j (h.analyzed j hj)⟩

/-- `s'` has the nodes and canonical forms of `s`, and the same nodes are processed. -/
structure Keeps (s s' : Run) : Prop extends s.Stays s' where
  graph : s'.draft.graph = s.draft.graph
  conversions : s'.draft.conversions = s.draft.conversions
  replaced : s.draft.replaced.Shortens s'.draft.replaced
  root : s'.root = s.root

namespace Keeps

variable {s s' s'' : Run} {rank : Nat → Nat}

theorem refl (s : Run) : s.Keeps s :=
  ⟨.refl s, rfl, rfl, .refl _, rfl⟩

theorem trans (h : s.Keeps s') (h' : s'.Keeps s'') : s.Keeps s'' :=
  ⟨h.toStays.trans h'.toStays, h'.graph.trans h.graph, h'.conversions.trans h.conversions,
    h.replaced.trans h'.replaced, h'.root.trans h.root⟩

theorem canon_eq (h : s.Keeps s') (hd : s.draft.replaced.Descends rank) :
    s'.draft.replaced.canon = s.draft.replaced.canon :=
  hd.canon_shortens h.replaced

theorem waits_eq (h : s.Keeps s') (hd : s.draft.replaced.Descends rank) :
    s'.waits = s.waits := by
  funext v
  have := h.processed_iff (s.draft.replaced.canon v).node
  simp only [waits, h.canon_eq hd, States.isProcessed]
  simp [this]

theorem waiting_eq (h : s.Keeps s') (hd : s.draft.replaced.Descends rank) :
    s'.waiting = s.waiting := by
  funext j
  simp only [waiting, h.graph, h.waits_eq hd]

end Keeps

/-- `s'` is `s` after the analysis of some new nodes. -/
structure Settles (s s' : Run) : Prop where
  graph : s'.draft.graph = s.draft.graph
  conversions : s'.draft.conversions = s.draft.conversions
  replaced : s.draft.replaced.Shortens s'.draft.replaced
  root : s'.root = s.root
  kept : ∀ j, s.states.get j ≠ .new → s'.states.get j = s.states.get j
  counted : ∀ j, s.states.get j = .new → s'.states.get j ≠ .new →
    s'.states.get j = .ofPending (s.waiting j) ∧
      ∃ n, s.draft.graph.nodes[j]? = some n ∧
        ∀ v ∈ n.operands, s'.states.get (s.draft.replaced.canon v).node ≠ .new
  queued : ∃ added, s'.worklist = added ++ s.worklist ∧ added.Nodup ∧
    ∀ j, j ∈ added ↔ s.states.get j = .new ∧ s'.states.get j = .ready

theorem Quiet.settles {s s' : Run} (h : s.Quiet s') : s.Settles s' where
  graph := h.graph
  conversions := h.conversions
  replaced := h.replaced
  root := h.root
  kept j _ := by rw [h.states]
  counted j hj hj' := by rw [h.states] at hj'; exact absurd hj hj'
  queued := ⟨[], h.worklist, List.nodup_nil, fun j => by
    rw [h.states]
    simp only [List.not_mem_nil, false_iff, not_and]
    exact fun hn hr => by rw [hn] at hr; cases hr⟩

namespace Settles

variable {s s' s'' : Run}

theorem refl (s : Run) : s.Settles s := (Quiet.refl s).settles

theorem analyzed (h : s.Settles s') {j : Nat} (hj : s.states.get j ≠ .new) :
    s'.states.get j ≠ .new := by
  rw [h.kept j hj]
  exact hj

theorem keeps (h : s.Settles s') : s.Keeps s' where
  graph := h.graph
  conversions := h.conversions
  replaced := h.replaced
  root := h.root
  processed_iff j := by
    by_cases hj : s.states.get j = .new
    · rw [hj]
      simp only [reduceCtorEq, iff_false]
      intro hp
      obtain ⟨hc, _⟩ := h.counted j hj (by rw [hp]; simp)
      exact NodeState.ofPending_ne_processed _ (hc.symm.trans hp)
    · rw [h.kept j hj]
  analyzed _ hj := h.analyzed hj

variable {rank : Nat → Nat}

theorem trans (h : s.Settles s') (h' : s'.Settles s'') (hd : s.draft.replaced.Descends rank) :
    s.Settles s'' where
  graph := h'.graph.trans h.graph
  conversions := h'.conversions.trans h.conversions
  replaced := h.replaced.trans h'.replaced
  root := h'.root.trans h.root
  kept j hj := (h'.kept j (h.analyzed hj)).trans (h.kept j hj)
  counted j hj hj'' := by
    by_cases hj' : s'.states.get j = .new
    · obtain ⟨hc, n, hn, hs⟩ := h'.counted j hj' hj''
      rw [h.keeps.waiting_eq hd] at hc
      rw [h.graph] at hn
      rw [h.keeps.canon_eq hd] at hs
      exact ⟨hc, n, hn, hs⟩
    · obtain ⟨hc, n, hn, hs⟩ := h.counted j hj hj'
      exact ⟨(h'.kept j hj').trans hc, n, hn, fun v hv => h'.analyzed (hs v hv)⟩
  queued := by
    obtain ⟨added, hw, hd, ha⟩ := h.queued
    obtain ⟨added', hw', hd', ha'⟩ := h'.queued
    refine ⟨added' ++ added, by rw [hw', hw, List.append_assoc], ?_, fun j => ?_⟩
    · refine List.nodup_append.2 ⟨hd', hd, fun j hj k hk hjk => ?_⟩
      subst hjk
      have := ((ha' j).1 hj).1
      rw [((ha j).1 hk).2] at this
      cases this
    · rw [List.mem_append, ha, ha']
      constructor
      · rintro (⟨hn, hr⟩ | ⟨hn, hr⟩)
        · refine ⟨?_, hr⟩
          by_cases hj : s.states.get j = .new
          · exact hj
          · exact absurd hn (h.analyzed hj)
        · exact ⟨hn, by rw [h'.kept j (by rw [hr]; simp), hr]⟩
      · rintro ⟨hn, hr⟩
        by_cases hj : s'.states.get j = .new
        · exact .inl ⟨hj, hr⟩
        · exact .inr ⟨hn, by rw [← h'.kept j hj, hr]⟩

end Settles

end Run

/-! ### Ends of engine actions -/

namespace Engine

variable {α β : Type} {E : Error → Prop} {s : Run}

/-- From `s`, `x` ends in a state that satisfies `Q`, or with an error that satisfies `E`. -/
def Ends (E : Error → Prop) (x : Engine α) (s : Run) (Q : α → Run → Prop) : Prop :=
  match x s with
  | .ok a s' => Q a s'
  | .error e _ => E e

theorem Ends.bind {x : Engine α} {f : α → Engine β} {P : α → Run → Prop} {Q : β → Run → Prop}
    (hx : Ends E x s P) (hf : ∀ a s', P a s' → Ends E (f a) s' Q) : Ends E (x >>= f) s Q := by
  unfold Ends at hx ⊢
  show match EStateM.bind x f s with | .ok a s' => Q a s' | .error e _ => E e
  unfold EStateM.bind
  cases hr : x s with
  | ok a s' =>
    rw [hr] at hx
    exact hf a s' hx
  | error e s' =>
    rw [hr] at hx
    exact hx

theorem get_bind_run (f : Run → Engine α) (s : Run) : ((get : Engine Run) >>= f) s = f s s := rfl

theorem Ends.mono {x : Engine α} {P Q : α → Run → Prop} (hx : Ends E x s P)
    (h : ∀ a s', P a s' → Q a s') : Ends E x s Q := by
  unfold Ends at hx ⊢
  cases hr : x s with
  | ok a s' => rw [hr] at hx; exact h a s' hx
  | error e s' => rw [hr] at hx; exact hx

theorem Ends.of_ok {x : Engine α} {Q : α → Run → Prop} {a : α} {s' : Run} (h : Ends E x s Q)
    (hx : x s = .ok a s') : Q a s' := by
  unfold Ends at h
  rwa [hx] at h

theorem Ends.of_error {x : Engine α} {Q : α → Run → Prop} {e : Error} {s' : Run}
    (h : Ends E x s Q) (hx : x s = .error e s') : E e := by
  unfold Ends at h
  rwa [hx] at h

theorem Ends.pure {a : α} {Q : α → Run → Prop} (h : Q a s) : Ends E (pure a) s Q := h

theorem Ends.modify {f : Run → Run} {Q : PUnit → Run → Prop} (h : Q ⟨⟩ (f s)) :
    Ends E (modify f) s Q := h

/-- An edit inside a run changes the draft only. -/
theorem Ends.ofEdit {x : Edit α} {Q : α → Run → Prop}
    (hok : ∀ a d, x.run s.draft = .ok a d → Q a { s with draft := d })
    (herr : ∀ e d, x.run s.draft = .error e d → E e) : Ends E (liftM x : Engine α) s Q := by
  show match Engine.ofEdit x s with | .ok a s' => Q a s' | .error e _ => E e
  unfold Engine.ofEdit
  cases s with | mk draft states worklist root visited =>
  dsimp only at hok herr ⊢
  cases hr : x.run draft with
  | ok a d => exact hok a d hr
  | error e d => exact herr e d hr

/-- Edits in sequence are done in sequence. -/
theorem liftM_bind_edit (x : Edit α) (f : α → Edit β) :
    (liftM (x >>= f) : Engine β) = (liftM x : Engine α) >>= fun a => (liftM (f a) : Engine β) := by
  funext s
  cases s with | mk draft states worklist root visited =>
  show Engine.ofEdit (x >>= f) _ = EStateM.bind (Engine.ofEdit x) (fun a => Engine.ofEdit (f a)) _
  simp only [Engine.ofEdit, EStateM.bind, Edit.run_bind]
  cases x.run draft <;> rfl

theorem Ends.ofFault {x : Except Fault α} {Q : α → Run → Prop}
    (hE : ∀ f, x = .error f → E (.fault f)) (h : ∀ a, x = .ok a → Q a s) :
    Ends E (liftM (liftM x : Edit α) : Engine α) s Q := by
  cases x with
  | ok a => exact h a rfl
  | error f => exact hE f rfl

theorem Ends.report {e : Event} {Q : Unit → Run → Prop}
    (h : Q () { s with draft := { s.draft with log := s.draft.log.push e } }) :
    Ends E (report e) s Q := h

/-! ### Reading inside a run -/

theorem ends_node (id : Nat) (hid : id < s.draft.graph.size) :
    Ends E (liftM (Edit.node id) : Engine Node) s fun n s' =>
      s = s' ∧ s.draft.graph.nodes[id]? = some n := by
  have hn : s.draft.graph.nodes[id]? = some s.draft.graph.nodes[id] :=
    Array.getElem?_eq_getElem hid
  refine .ofEdit (fun n d h => ?_) fun e d h => ?_ <;>
    simp only [Edit.node, Edit.run_bind, Edit.draft, Graph.node, hn] at h <;> cases h
  exact ⟨rfl, hn⟩

variable {rank : Nat → Nat}

theorem ends_canonical (hd : s.draft.replaced.Descends rank) (v : Value) :
    Ends E (liftM (Edit.canonical v) : Engine Value) s fun w s' =>
      w = s.draft.replaced.canon v ∧ s.Quiet s' := by
  obtain ⟨r, hr, hs⟩ := hd.resolve_eq v
  refine .ofEdit (fun w d h => ?_) fun e d h => ?_ <;>
    simp only [Edit.canonical, hr] at h <;> cases h
  exact ⟨rfl, rfl, rfl, hs, rfl, rfl, rfl⟩

end Engine

/-- Operands of every node have lower rank, and so have redirected values. Canonical operands
exist. -/
structure Draft.Ranked (d : Draft) (rank : Nat → Nat) : Prop where
  operands : ∀ (id : Nat) n v, d.graph.nodes[id]? = some n → v ∈ n.operands →
    rank v.node < rank id
  sources : ∀ (id : Nat) n v, d.graph.nodes[id]? = some n → v ∈ n.operands →
    (d.replaced.canon v).node < d.graph.size
  descends : d.replaced.Descends rank

theorem Draft.Ranked.keeps {s s' : Run} {rank : Nat → Nat} (h : s.draft.Ranked rank)
    (hs : s.Keeps s') : s'.draft.Ranked rank := by
  refine ⟨?_, ?_, h.descends.shortens hs.replaced⟩
  · rw [hs.graph]
    exact h.operands
  · rw [hs.graph, hs.canon_eq h.descends]
    exact h.sources

/-- Number of nodes of lower rank than `id`. -/
def depth (rank : Nat → Nat) (size id : Nat) : Nat :=
  (List.range size).countP fun j => rank j < rank id

theorem countP_lt_countP {α : Type} {p q : α → Bool} {l : List α} {a : α} (hpq : ∀ x, p x → q x)
    (ha : a ∈ l) (hp : ¬ p a) (hq : q a) : l.countP p < l.countP q := by
  induction l with
  | nil => cases ha
  | cons b l ih =>
    have hle : l.countP p ≤ l.countP q := List.countP_mono_left fun x _ => hpq x
    rw [List.countP_cons, List.countP_cons]
    rcases List.mem_cons.1 ha with rfl | ha
    · simp only [hp, hq, if_true]
      simp only [Bool.false_eq_true, if_false]
      omega
    · have := ih ha
      split
      · next hb =>
        rw [if_pos (hpq b hb)]
        omega
      · split <;> omega

theorem depth_lt_depth {rank : Nat → Nat} {size id j : Nat} (hj : j < size)
    (hlt : rank j < rank id) : depth rank size j < depth rank size id := by
  refine countP_lt_countP (a := j) (fun i hi => ?_) (List.mem_range.2 hj) ?_ ?_
  · simp only [decide_eq_true_eq] at hi ⊢
    omega
  · simp
  · simpa using hlt

theorem depth_lt_size {rank : Nat → Nat} {size id : Nat} (hid : id < size) :
    depth rank size id < size := by
  calc depth rank size id < (List.range size).countP fun _ => true :=
        countP_lt_countP (a := id) (fun _ _ => rfl) (List.mem_range.2 hid) (by simp) rfl
    _ = size := by simp

namespace Engine

variable {E : Error → Prop} {s : Run} {rank : Nat → Nat}

theorem setPending_run (id k : Nat) (s : Run) :
    ∃ log, setPending id k s = .ok () { s with
      draft := { s.draft with log }
      states := s.states.set id (.ofPending k)
      worklist := if k = 0 then id :: s.worklist else s.worklist } := by
  by_cases hk : k = 0
  · subst hk
    exact ⟨_, rfl⟩
  · refine ⟨s.draft.log, ?_⟩
    rw [if_neg hk]
    show EStateM.bind (setState id (.ofPending k)) (fun _ => if k = 0 then push id else pure ()) s = _
    rw [if_neg hk]
    rfl

/-- Counts a new node whose operands are analysed. -/
theorem ends_setPending {id : Nat} {n : Node} (hnew : s.states.get id = .new)
    (hn : s.draft.graph.nodes[id]? = some n)
    (hs : ∀ v ∈ n.operands, s.states.get (s.draft.replaced.canon v).node ≠ .new) :
    Ends E (setPending id (s.waiting id)) s fun _ s' =>
      s.Settles s' ∧ s'.states.get id ≠ .new ∧ ∀ j, j ≠ id → s'.states.get j = s.states.get j := by
  obtain ⟨log, hrun⟩ := setPending_run id (s.waiting id) s
  unfold Ends
  rw [hrun]
  dsimp only
  have hid : (s.states.set id (.ofPending (s.waiting id))).get id ≠ .new := by
    rw [States.get_set, if_pos rfl]
    exact NodeState.ofPending_ne_new _
  have hother : ∀ j, j ≠ id →
      (s.states.set id (.ofPending (s.waiting id))).get j = s.states.get j := fun j hj => by
    rw [States.get_set, if_neg hj]
  refine ⟨⟨rfl, rfl, .refl _, rfl, fun j hj => ?_, fun j hj hj' => ?_, ?_⟩, hid, hother⟩
  · exact hother j fun h => hj (h ▸ hnew)
  · have hjd : j = id := by
      by_cases h : j = id
      · exact h
      · exact absurd (hother j h ▸ hj) hj'
    subst hjd
    refine ⟨by rw [States.get_set, if_pos rfl], n, hn, fun v hv => ?_⟩
    by_cases h : (s.draft.replaced.canon v).node = j
    · rw [h]; exact hid
    · rw [hother _ h]; exact hs v hv
  · by_cases hw : s.waiting id = 0
    · refine ⟨[id], by simp [hw], by simp, fun j => ?_⟩
      by_cases hj : j = id
      · subst hj
        simp [hnew, hw, NodeState.ofPending]
      · simp only [List.mem_singleton, hj, hother j hj, false_iff, not_and]
        exact fun h h' => by rw [h] at h'; cases h'
    · refine ⟨[], by simp [hw], List.nodup_nil, fun j => ?_⟩
      by_cases hj : j = id
      · subst hj
        simp [hw, NodeState.ofPending]
      · simp only [List.not_mem_nil, hother j hj, false_iff, not_and]
        exact fun h h' => by rw [h] at h'; cases h'

/-- The analysis of node `id` gives it a state. It leaves nodes of higher rank alone, and all other
nodes when the operands of `id` have states. -/
structure Analyzes (rank : Nat → Nat) (id : Nat) (s s' : Run) : Prop where
  settles : s.Settles s'
  analyzed : s'.states.get id ≠ .new
  above : ∀ j, rank id < rank j → s'.states.get j = s.states.get j
  known : s.states.get id ≠ .new → s'.states = s.states
  shallow : (∀ n v, s.draft.graph.nodes[id]? = some n → v ∈ n.operands →
    s.states.get (s.draft.replaced.canon v).node ≠ .new) →
    ∀ j, j ≠ id → s'.states.get j = s.states.get j

/-- Analysis of operands of node `id` gives their canonical sources states. -/
theorem ends_analyzeOperands {analyze : Nat → Engine Unit} {id size : Nat} (vs : List Value)
    (count : Nat) {s : Run} (hr : s.draft.Ranked rank) (hsize : s.draft.graph.size = size)
    (hvs : ∀ v ∈ vs, rank v.node < rank id ∧ (s.draft.replaced.canon v).node < size)
    (ha : ∀ {s : Run} (j : Nat), s.draft.Ranked rank → s.draft.graph.size = size → j < size →
      rank j < rank id → Ends E (analyze j) s fun _ s' => Analyzes rank j s s') :
    Ends E (vs.foldlM (fun count v => do
        let v ← Edit.canonical v
        analyze v.node
        return if (← stateOf v.node) = .processed then count else count + 1) count) s
      fun total s' => s.Settles s' ∧ total = count + vs.countP s.waits ∧
        (∀ v ∈ vs, s'.states.get (s.draft.replaced.canon v).node ≠ .new) ∧
        (∀ k, rank id ≤ rank k → s'.states.get k = s.states.get k) ∧
        ((∀ v ∈ vs, s.states.get (s.draft.replaced.canon v).node ≠ .new) →
          s'.states = s.states) := by
  induction vs generalizing count s with
  | nil => exact .pure ⟨.refl s, by simp, by simp, fun _ _ => rfl, fun _ => rfl⟩
  | cons v vs ih =>
    have hd := hr.descends
    rw [List.foldlM_cons]
    refine .bind (P := fun total s' => s.Settles s' ∧ total = count + [v].countP s.waits ∧
        s'.states.get (s.draft.replaced.canon v).node ≠ .new ∧
        (∀ k, rank id ≤ rank k → s'.states.get k = s.states.get k) ∧
        (s.states.get (s.draft.replaced.canon v).node ≠ .new → s'.states = s.states)) ?_ ?_
    · refine .bind (ends_canonical hd v) ?_
      rintro _ s₁ ⟨rfl, h₁⟩
      have hlow : rank (s.draft.replaced.canon v).node < rank id :=
        Nat.lt_of_le_of_lt (hd.rank_canon v) (hvs v List.mem_cons_self).1
      refine .bind (ha _ (hr.keeps h₁.settles.keeps) (h₁.graph ▸ hsize)
        (hvs v List.mem_cons_self).2 hlow) ?_
      rintro _ s₂ h₂
      have h₁₂ := h₁.settles.trans h₂.settles hd
      refine ⟨h₁₂, ?_, h₂.analyzed, fun k hk => ?_, fun hold => ?_⟩
      · have := h₁₂.keeps.processed_iff (s.draft.replaced.canon v).node
        by_cases hp : s.states.get (s.draft.replaced.canon v).node = .processed
        · simp [Run.waits, States.isProcessed, hp, this.2 hp]
        · simp [Run.waits, States.isProcessed, hp, this]
      · rw [h₂.above k (by omega), h₁.states]
      · rw [h₂.known (h₁.states ▸ hold), h₁.states]
    · rintro total s₁ ⟨h₁, htotal, hnew, hsame, hold⟩
      refine (ih total (hr.keeps h₁.keeps) (h₁.graph ▸ hsize) fun u hu => ?_).mono ?_
      · rw [h₁.keeps.canon_eq hd]
        exact hvs u (List.mem_cons_of_mem v hu)
      rintro total' s₂ ⟨h₂, htotal', hnew', hsame', hold'⟩
      rw [h₁.keeps.canon_eq hd] at hnew' hold'
      refine ⟨h₁.trans h₂ hd, ?_, ?_, fun k hk => (hsame' k hk).trans (hsame k hk), fun h => ?_⟩
      · rw [htotal', htotal, h₁.keeps.waits_eq hd, Nat.add_assoc, ← List.countP_append]
        rfl
      · intro u hu
        rcases List.mem_cons.1 hu with rfl | hu
        · exact h₂.analyzed hnew
        · exact hnew' u hu
      · have hs := hold (h v List.mem_cons_self)
        rw [hold' fun u hu => hs ▸ h u (List.mem_cons_of_mem v hu), hs]

/-- Each descent leaves fewer nodes of lower rank, so the fuel does not run out. -/
theorem ends_analyzeWithin (fuel : Nat) {s : Run} (hr : s.draft.Ranked rank) {id : Nat}
    (hid : id < s.draft.graph.size) (hfuel : depth rank s.draft.graph.size id < fuel) :
    Ends E (analyzeWithin fuel id) s fun _ s' => Analyzes rank id s s' := by
  induction fuel generalizing s id with
  | zero => exact absurd hfuel (Nat.not_lt_zero _)
  | succ fuel ih =>
    unfold analyzeWithin
    refine .bind (P := fun x s' => s.states.get id = x ∧ s = s') ⟨rfl, rfl⟩ ?_
    rintro _ _ ⟨rfl, rfl⟩
    split
    · next hnew =>
      refine .bind (ends_node id hid) ?_
      rintro n _ ⟨rfl, hn⟩
      refine .bind (ends_analyzeOperands n.operands 0 hr rfl
        (fun v hv => ⟨hr.operands id n v hn hv, hr.sources id n v hn hv⟩)
        fun {s₁} j h hsize hj hlow => ih h (hsize ▸ hj) ?_) ?_
      · rw [hsize]
        exact Nat.lt_of_lt_of_le (depth_lt_depth hj hlow) (Nat.le_of_lt_succ hfuel)
      rintro _ s₁ ⟨h₁, rfl, hsources, hsame, hold⟩
      rw [Nat.zero_add, ← Run.waiting_eq hn, ← h₁.keeps.waiting_eq hr.descends]
      rw [← h₁.keeps.canon_eq hr.descends] at hsources
      -- the operands have lower rank, so `id` is still new
      refine (ends_setPending ((hsame id (Nat.le_refl _)).trans hnew) (h₁.graph ▸ hn)
        hsources).mono ?_
      rintro _ s₂ ⟨h₂, hid, hother⟩
      refine ⟨h₁.trans h₂ hr.descends, hid, fun j hj => ?_, fun h => absurd hnew h,
        fun h j hj => ?_⟩
      · rw [hother j (by rintro rfl; omega), hsame j (by omega)]
      · rw [hother j hj, hold fun v hv => h n v hn hv]
    · next hold => exact .pure ⟨.refl s, hold, fun _ _ => rfl, fun _ => rfl, fun _ _ _ => rfl⟩

theorem ends_analyze (hr : s.draft.Ranked rank) {id : Nat} (hid : id < s.draft.graph.size) :
    Ends E (analyze id) s fun _ s' => Analyzes rank id s s' := by
  refine .bind (P := fun x s' => s = x ∧ s = s') ⟨rfl, rfl⟩ ?_
  rintro _ _ ⟨rfl, rfl⟩
  exact ends_analyzeWithin _ hr hid (Nat.lt_succ_of_lt (depth_lt_size hid))

end Engine

end Dataflow.Legal
