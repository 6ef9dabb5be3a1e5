import Dataflow.Proofs.Acyclic
import Dataflow.Proofs.Isomorphism
import Dataflow.Proofs.Legality
import Mathlib.Data.List.Perm.Subperm

/-!
# Legal graphs

A run on a graph whose live values are all legal visits every live node once and leaves it as it is;
the result is the live part, and that is its own live part. What a checked run returns is such a
graph.
-/

namespace Dataflow.Legal

open Engine

/-! ### Counters -/

namespace Engine

variable {α β : Type}

/-- `x` neither visits nor creates nodes. -/
def Uncounted (x : Engine α) : Prop :=
  ∀ s a s', x s = .ok a s' → s'.visited = s.visited ∧ s'.draft.created = s.draft.created

theorem Uncounted.bind {x : Engine α} {f : α → Engine β} (hx : Uncounted x)
    (hf : ∀ a, Uncounted (f a)) : Uncounted (x >>= f) := by
  intro s b s' h
  obtain ⟨a, s₁, hx₁, hf₁⟩ := Plan.bind_eq_ok h
  obtain ⟨hvisited, hcreated⟩ := hx s a s₁ hx₁
  obtain ⟨hvisited', hcreated'⟩ := hf a s₁ b s' hf₁
  exact ⟨hvisited'.trans hvisited, hcreated'.trans hcreated⟩

theorem uncounted_pure (a : α) : Uncounted (pure a) := by
  intro s _ s' h
  cases h
  exact ⟨rfl, rfl⟩

theorem uncounted_get : Uncounted (get : Engine Run) := by
  intro s _ s' h
  cases h
  exact ⟨rfl, rfl⟩

theorem uncounted_throw (e : Error) : Uncounted (throw e : Engine α) := by
  intro s _ s' h
  cases h

theorem uncounted_modify {f : Run → Run}
    (h : ∀ s, (f s).visited = s.visited ∧ (f s).draft.created = s.draft.created) :
    Uncounted (modify f : Engine Unit) := by
  intro s _ s' hs
  cases hs
  exact h s

theorem uncounted_edit {x : Edit α} (h : ∀ d a d', x.run d = .ok a d' → d'.created = d.created) :
    Uncounted (liftM x : Engine α) := by
  intro s a s' hs
  obtain ⟨d, hx, rfl⟩ := Plan.ofEdit_eq_ok hs
  exact ⟨rfl, h _ a d hx⟩

theorem uncounted_ite {c : Prop} [Decidable c] {x y : Engine α} (hx : Uncounted x)
    (hy : Uncounted y) : Uncounted (if c then x else y) := by
  by_cases h : c
  · rw [if_pos h]
    exact hx
  · rw [if_neg h]
    exact hy

theorem uncounted_forM {f : α → Engine PUnit} (hf : ∀ a, Uncounted (f a)) (as : List α) :
    Uncounted (as.forM f) := by
  induction as with
  | nil => exact uncounted_pure _
  | cons a as ih => exact (hf a).bind fun _ => ih

theorem uncounted_fault (x : Except Fault α) : Uncounted (liftM (liftM x : Edit α) : Engine α) := by
  apply uncounted_edit
  intro d a d' h
  cases x with
  | ok b => cases h; rfl
  | error f => cases h

theorem uncounted_report (e : Event) : Uncounted (report e) := by
  apply uncounted_edit
  intro d a d' h
  cases h
  rfl

theorem uncounted_push (id : NodeId) : Uncounted (push id) :=
  (uncounted_report _).bind fun _ => uncounted_modify fun _ => ⟨rfl, rfl⟩

theorem uncounted_setPending (id : NodeId) (count : Nat) : Uncounted (setPending id count) :=
  (uncounted_modify fun _ => ⟨rfl, rfl⟩ : Uncounted (setState id _)).bind fun _ =>
    uncounted_ite (uncounted_push id) (uncounted_pure _)

theorem uncounted_operandProcessed (id : NodeId) : Uncounted (operandProcessed id) := by
  apply uncounted_get.bind
  intro s
  cases s.states.resolveOperand id with
  | ok ready states =>
    exact (uncounted_modify (f := fun s => { s with states }) fun _ => ⟨rfl, rfl⟩).bind fun _ =>
      uncounted_ite (uncounted_push id) (uncounted_pure _)
  | unexpected state => exact uncounted_throw _
  | underflow => exact uncounted_throw _

theorem uncounted_finishNode (id : NodeId) : Uncounted (finishNode id) := by
  apply (uncounted_modify fun _ => ⟨rfl, rfl⟩ : Uncounted (setState id _)).bind
  intro _
  apply uncounted_get.bind
  intro s
  apply (uncounted_fault _).bind
  intro uses
  exact uncounted_forM (fun u : Use => uncounted_operandProcessed u.user) _

theorem uncounted_prepare (config : Config) : Uncounted (prepare config) := by
  have hseed : Uncounted seed := by
    apply uncounted_get.bind
    intro s
    exact uncounted_forM (fun p : Nat × Nat => uncounted_setPending p.2 p.1) _
  apply uncounted_ite _ hseed
  apply uncounted_get.bind
  intro s
  exact (uncounted_report _).bind fun _ => hseed

theorem uncounted_operand (id i : Nat) : Uncounted (liftM (Edit.operand id i) : Engine Value) := by
  apply uncounted_edit
  intro d a d' h
  simp only [Edit.operand, Edit.run_bind, Edit.draft] at h
  cases hv : d.graph.operand id i with
  | error f => rw [hv] at h; cases h
  | ok v =>
    rw [hv] at h
    change (Edit.canonical v).run d = .ok a d' at h
    simp only [Edit.canonical] at h
    split at h <;> cases h
    rfl

/-- An action that cannot fail succeeds. -/
theorem Ends.exists_ok {x : Engine α} {s : Run} {Q : α → Run → Prop}
    (h : Ends (fun _ => False) x s Q) : ∃ a s', x s = .ok a s' ∧ Q a s' := by
  cases hx : x s with
  | ok a s' => exact ⟨a, s', rfl, h.of_ok hx⟩
  | error e s' => exact (h.of_error hx).elim

/-- A visit is the only part of a step that counts nodes, apart from the step itself. -/
theorem step_eq_ok {T : Target} {id : NodeId} {s s' : Run} (h : step T id s = .ok () s') :
    ∃ s₁, visit T id { s with visited := s.visited + 1 } = .ok () s₁ ∧
      s'.visited = s₁.visited ∧ s'.draft.created = s₁.draft.created := by
  obtain ⟨state, s₀, hstate, h⟩ := Plan.bind_eq_ok h
  cases hstate
  dsimp only at h
  split at h
  · obtain ⟨_, _, hthrow, _⟩ := Plan.bind_eq_ok h
    cases hthrow
  · obtain ⟨_, s₀, hmodify, h⟩ := Plan.bind_eq_ok h
    cases hmodify
    obtain ⟨_, s₁, hvisit, hfinish⟩ := Plan.bind_eq_ok h
    exact ⟨s₁, hvisit, uncounted_finishNode id s₁ _ s' hfinish⟩

theorem Uncounted.ends {E : Error → Prop} {x : Engine α} (hx : Uncounted x) {s : Run}
    {Q : α → Run → Prop} (h : Ends E x s Q) : Ends E x s fun a s' =>
      Q a s' ∧ s'.visited = s.visited ∧ s'.draft.created = s.draft.created := by
  unfold Ends at h ⊢
  cases hr : x s with
  | ok a s' =>
    rw [hr] at h
    exact ⟨h, hx s a s' hr⟩
  | error e s' =>
    rw [hr] at h
    exact h

/-! ### Visits of legal nodes -/

section
variable {E : Error → Prop} {s : Run} {rank : Nat → Nat} {T : Target} {id : Nat} {n : Node}

/-- Operands of legal types are left alone. -/
theorem ends_reviseOperand_legal (hd : s.draft.replaced.Descends rank)
    (hn : s.draft.graph.nodes[id]? = some n) (is : List Nat) {s₀ : Run} (hq : s.Quiet s₀)
    (his : ∀ i ∈ is, ∃ v t, n.operands[i]? = some v ∧
      s.draft.graph.typeOf? (s.draft.replaced.canon v) = some t ∧ T.classify t = .legal) :
    Ends E (reviseOperand T id n.opcode is) s₀ fun _ s' => s.Quiet s' ∧
      s'.visited = s₀.visited ∧ s'.draft.created = s₀.draft.created := by
  induction is generalizing s₀ with
  | nil => exact .pure ⟨hq, rfl, rfl⟩
  | cons i is ih =>
    obtain ⟨v, t, hv, ht, hlegal⟩ := his i List.mem_cons_self
    unfold reviseOperand
    refine .bind ((uncounted_operand id i).ends
      (ends_operand (hd.shortens hq.replaced) (hq.graph ▸ hn) hv)) ?_
    rintro _ s₁ ⟨⟨hq₁, rfl⟩, hvisited, hcreated⟩
    rw [hd.canon_shortens hq.replaced]
    have hq' := hq.trans hq₁
    rw [← hq'.graph] at ht
    refine .bind (ends_typeOf _ fun hnone => ?_) ?_
    · rw [ht] at hnone
      cases hnone
    rintro t' _ ⟨rfl, ht'⟩
    rw [ht] at ht'
    cases ht'
    rw [if_pos hlegal]
    apply (ih hq' fun j hj => his j (List.mem_cons_of_mem i hj)).mono
    rintro _ s' ⟨hquiet, hvisited', hcreated'⟩
    exact ⟨hquiet, hvisited'.trans hvisited, hcreated'.trans hcreated⟩

/-- A legal node of legal operands is left alone. -/
theorem ends_visit_legal (h : s.Sound (some id) rank) (hn : s.draft.graph.nodes[id]? = some n)
    (hresults : ∀ t ∈ n.results, T.classify t = .legal) (hreads : s.ReadsLegal T n) :
    Ends E (visit T id) s fun _ s' => s.Quiet s' ∧ s'.visited = s.visited ∧
      s'.draft.created = s.draft.created := by
  unfold visit
  refine .bind (ends_node id h.lt_size) ?_
  rintro m _ ⟨rfl, hm⟩
  rw [hn] at hm
  cases hm
  rw [convertResults_of_legal n.results 0 hresults, pure_bind, if_neg (by simp)]
  apply ends_reviseOperand_legal h.ordered.descends hn _ (Run.Quiet.refl s)
  intro i hi
  have hv := List.getElem?_eq_getElem (List.mem_range.1 hi)
  obtain ⟨t, ht, hlegal⟩ := hreads _ (List.mem_of_getElem? hv)
  exact ⟨_, t, hv, ht, hlegal⟩

end

/-! ### Runs on legal graphs -/

section
open Run
variable {T : Target} {config : Config} {fuel : Nat} {g h : Graph} {root r : Nat}
  {ids : List NodeId} {s s' : Run}

/-- The values of a graph are legal. -/
def AllLegal (T : Target) (g : Graph) : Prop :=
  ∀ (id : Nat) n, g.nodes[id]? = some n → ∀ t ∈ n.results, T.classify t = .legal

/-- A run on the legal graph `h` that has visited the nodes `ids`. -/
structure Draining (h : Graph) (r : NodeId) (ids : List NodeId) (s : Run) : Prop where
  sound : ∃ rank, s.Sound none rank
  graph : s.draft.graph = h
  root : s.root = r
  plain : ∀ v, s.draft.replaced.next? v = none
  analyzed : ∀ j, j < h.size → s.states.get j ≠ .new
  processed : ∀ j, s.states.get j = .processed ↔ j ∈ ids
  nodup : ids.Nodup
  visited : s.visited = ids.length
  created : s.draft.created = 0

theorem Draining.canon (hs : Draining h r ids s) (v : Value) : s.draft.replaced.canon v = v := by
  obtain ⟨rank, hsound⟩ := hs.sound
  exact hsound.ordered.descends.canon_self (hs.plain v)

/-- Operands of a legal graph are legal. -/
theorem Draining.readsLegal (hs : Draining h r ids s) (hb : h.Built) (hlegal : AllLegal T h)
    {id : Nat} {n : Node} (hn : h.nodes[id]? = some n) : s.ReadsLegal T n := by
  intro v hv
  obtain ⟨_, t, ht⟩ := hb.operand hn hv
  obtain ⟨m, hm, hslot⟩ := Option.bind_eq_some_iff.1 ht
  rw [hs.canon, hs.graph]
  exact ⟨t, ht, hlegal v.node m hm t (List.mem_of_getElem? hslot)⟩

/-- A step visits one more node and changes nothing. -/
theorem Draining.step (hs : Draining h r ids s) (hb : h.Built) (hlegal : AllLegal T h) {id : Nat}
    {rest : List Nat} (hw : s.worklist = id :: rest) :
    ∃ s', step T id { s with worklist := rest } = .ok () s' ∧ Draining h r (id :: ids) s' := by
  obtain ⟨rank, hsound⟩ := hs.sound
  have hready := hsound.ready_head hw
  have hlt : id < s.draft.graph.size := hsound.scheduled.known id (by rw [hready]; simp)
  obtain ⟨n, hn⟩ : ∃ n, s.draft.graph.nodes[id]? = some n := ⟨_, Array.getElem?_eq_getElem hlt⟩
  have hn' : h.nodes[id]? = some n := hs.graph ▸ hn
  have hreads := hs.readsLegal hb hlegal hn'
  have h₀ : ({ s with worklist := rest, visited := s.visited + 1 } : Run).Sound (some id) rank := by
    have hpop := sound_pop hsound hw
    exact ⟨⟨hpop.ordered, hpop.attached, hpop.redirected, hpop.converted⟩,
      hpop.scheduled.of_eq rfl rfl rfl, hpop.sourced⟩
  have hvisit := ends_visit_legal (E := fun _ => False) h₀ hn (hlegal id n hn') hreads
  obtain ⟨_, s', hrun, hsound', _, _, s₁, ⟨hq, _⟩, hk⟩ := (ends_step_of_visit
    (E := fun _ => False) T hsound hw fun s₀ hs₀ _ _ => by
      subst hs₀
      apply hvisit.mono
      intro _ s₁ hq
      exact ⟨⟨rank, h₀.settles hq.1.settles⟩, hq.1.settles.keeps.toStays, hq⟩).exists_ok
  obtain ⟨s₂, hs₂, hvisited, hcreated⟩ := step_eq_ok hrun
  refine ⟨s', hrun,
    { sound := hsound'
      graph := by rw [hk.graph]; exact hq.graph.trans hs.graph
      root := by rw [hk.root]; exact hq.root.trans hs.root
      plain := fun v => by
        rw [hk.replaced.next?_eq_none]
        exact (hq.replaced.next?_eq_none v).2 (hs.plain v)
      analyzed := fun j hj => hk.analyzed j ?analyzed
      processed := fun j => ?processed
      nodup := List.nodup_cons.2 ⟨fun hmem => ?nodup, hs.nodup⟩
      visited := by rw [hvisited, (hvisit.of_ok hs₂).2.1, hs.visited, List.length_cons]
      created := by rw [hcreated, (hvisit.of_ok hs₂).2.2, hs.created] }⟩
  case analyzed =>
    rw [get_mark]
    split
    · simp
    · rw [hq.states]
      exact hs.analyzed j hj
  case processed =>
    rw [hk.processed_iff, get_mark, List.mem_cons, ← hs.processed]
    split
    · next heq => simp [heq]
    · next hne => simp [hne, hq.states]
  case nodup =>
    have hdone := (hs.processed id).2 hmem
    rw [hready] at hdone
    cases hdone

theorem Draining.mem_lt (hs : Draining h r ids s) {j : Nat} (hj : j ∈ ids) : j < h.size := by
  obtain ⟨rank, hsound⟩ := hs.sound
  rw [← hs.graph]
  exact hsound.scheduled.known j (by rw [(hs.processed j).2 hj]; simp)

/-- As long as a node is queued, there are nodes left. -/
theorem Draining.length_lt (hs : Draining h r ids s) {id : Nat} {rest : List Nat}
    (hw : s.worklist = id :: rest) : ids.length < h.size := by
  obtain ⟨rank, hsound⟩ := hs.sound
  have hready := hsound.ready_head hw
  have hnew : id ∉ ids := fun hmem => by
    rw [(hs.processed id).2 hmem] at hready
    cases hready
  have hlt : id < h.size := by
    rw [← hs.graph]
    exact hsound.scheduled.known id (by rw [hready]; simp)
  have hsub : id :: ids ⊆ List.range h.size := by
    intro j hj
    rw [List.mem_range]
    rcases List.mem_cons.1 hj with rfl | hj
    · exact hlt
    · exact hs.mem_lt hj
  apply Nat.lt_of_succ_le
  simpa using (List.subperm_of_subset (List.nodup_cons.2 ⟨hnew, hs.nodup⟩) hsub).length_le

/-- When no node is queued, all nodes were visited. -/
theorem Draining.length_eq (hs : Draining h r ids s) (hw : s.worklist = []) :
    ids.length = h.size := by
  obtain ⟨rank, hsound⟩ := hs.sound
  apply Nat.le_antisymm
  · have hsub : ids ⊆ List.range h.size := fun j hj => List.mem_range.2 (hs.mem_lt hj)
    simpa using (List.subperm_of_subset hs.nodup hsub).length_le
  · have hsub : List.range h.size ⊆ ids := fun j hj => (hs.processed j).1
      (hsound.processed_of_idle hw j (hs.analyzed j (List.mem_range.1 hj)))
    simpa using (List.subperm_of_subset List.nodup_range hsub).length_le

/-- As many steps as there are nodes left empty the queue. -/
theorem Draining.loop (hs : Draining h r ids s) (hb : h.Built) (hlegal : AllLegal T h)
    (hfuel : h.size ≤ ids.length + fuel) :
    ∃ ids' s', loop T fuel s = .ok () s' ∧ s'.worklist = [] ∧ Draining h r ids' s' := by
  induction fuel generalizing s ids with
  | zero =>
    cases hw : s.worklist with
    | nil => exact ⟨ids, s, loop_of_nil hw, hw, hs⟩
    | cons id rest =>
      have hlt := hs.length_lt hw
      omega
  | succ fuel ih =>
    cases hw : s.worklist with
    | nil => exact ⟨ids, s, loop_of_nil hw, hw, hs⟩
    | cons id rest =>
      obtain ⟨s₁, hstep, hs₁⟩ := hs.step hb hlegal hw
      obtain ⟨ids', s', hloop, hs'⟩ := ih hs₁ (by rw [List.length_cons]; omega)
      refine ⟨ids', s', ?_, hs'⟩
      rw [loop_succ_of_cons hw]
      show EStateM.bind (Engine.step T id) (fun _ => Engine.loop T fuel) _ = _
      simp only [EStateM.bind, hstep, hloop]

/-- The end of a run on a legal graph that is its own live part. -/
theorem Draining.conclude (hs : Draining h r ids s) (hb : h.Built) (hlegal : AllLegal T h)
    (hw : s.worklist = []) (hr : r < h.size) (hlive : h.live .ok r = .ok h) :
    s.conclude T config = .ok h := by
  obtain ⟨rank, hsound⟩ := hs.sound
  have hfollow : s.draft.replaced.follow = .ok := by
    funext v
    rw [hsound.ordered.descends.follow_eq, hs.canon]
  have hcheck : s.check T = .ok () := by
    refine checkFrom_eq_ok (fun v => ⟨v, by rw [hfollow]⟩) (fun id
      (hid : s.draft.graph.Reached s.draft.replaced.follow s.root id) => ?_) fun id hid => ?_
    · rw [hfollow, hs.graph, hs.root] at hid
      have hlt := hb.reached_lt hr hid
      obtain ⟨n, hn⟩ : ∃ n, h.nodes[id]? = some n := ⟨_, Array.getElem?_eq_getElem hlt⟩
      refine ⟨hsound.processed_of_idle hw id (hs.analyzed id hlt), n, hs.graph ▸ hn,
        hlegal id n hn, fun slot _ => hs.plain _, fun hres => ?_⟩
      -- a node that is read has a result
      cases hid with
      | root => exact hs.root.symm
      | operand _ hm hv hw =>
        cases hw
        obtain ⟨_, t, ht⟩ := hb.operand hm hv
        obtain ⟨n', hn', hslot⟩ := Option.bind_eq_some_iff.1 ht
        rw [hn] at hn'
        cases hn'
        rw [hres] at hslot
        cases hslot
    · rw [List.mem_singleton.1 hid]
      exact .root
  have hresult : s.result = .ok h := by
    rw [Run.result, hfollow, hs.graph, hs.root, hlive]
  unfold Run.conclude
  rw [hcheck, hresult]
  split <;> rfl

/-- A run on a graph of legal live values visits every live node and changes nothing. -/
theorem run_of_allLegal (T : Target) (config : Config) (hg : g.Built) (hroot : g.root = some root)
    (hlive : g.live .ok root = .ok h) (hlegal : AllLegal T h) :
    ∃ s₀, Run.start g = .ok s₀ ∧ ∀ fuel, h.size ≤ fuel →
      ∃ s, run T config fuel s₀ = .ok ⟨h, h.size, 0⟩ s := by
  obtain ⟨ids, hx⟩ := (Graph.live_extracts (hg.descends root)).1 h hlive
  have hb := hx.built_graph
  have hself : h.live .ok (ids.length - 1) = .ok h := hx.live_eq.trans hlive
  have hstart : Run.start g = .ok { draft := { graph := h }, root := ids.length - 1 } := by
    simp only [Run.start, hroot, hlive, hx.root_eq, Option.getD_some]
  refine ⟨_, hstart, fun fuel hfuel => ?_⟩
  obtain ⟨_, s₁, hprepare, hseeded, hgraph, hr⟩ := (ends_prepare config hstart).exists_ok
  obtain ⟨hvisited, hcreated⟩ := uncounted_prepare config _ _ _ hprepare
  have hdraining : Draining h (ids.length - 1) [] s₁ :=
    ⟨⟨_, hseeded.sound⟩, hgraph, hr, hseeded.plain,
      fun j hj => (hseeded.analyzed j).2 (by rw [hgraph]; exact hj),
      fun j => by simp [hseeded.unprocessed j], List.nodup_nil, hvisited, hcreated⟩
  obtain ⟨ids', s₂, hloop, hw, hs₂⟩ := hdraining.loop hb hlegal (by simpa using hfuel)
  have hconclude : s₂.conclude T config = .ok h := hs₂.conclude hb hlegal hw hx.root_lt hself
  obtain ⟨s₃, hfinish⟩ := finish_of_ok hconclude
  refine ⟨s₃, ?_⟩
  rw [hs₂.visited, hs₂.length_eq hw, hs₂.created] at hfinish
  show EStateM.bind (prepare config) (fun _ => EStateM.bind (Engine.loop T fuel)
    fun _ => finish T config) _ = _
  simp only [EStateM.bind, hprepare, hloop, hfinish]

end

end Engine

/-! ### What a check ensures -/

namespace Run

variable {s : Run} {T : Target}

/-- Node `id` is legal and its canonical operands are in `done`. -/
def Checked (s : Run) (T : Target) (done : Nat → Prop) (id : Nat) : Prop :=
  ∃ n, s.draft.graph.nodes[id]? = some n ∧ (∀ t ∈ n.results, T.classify t = .legal) ∧
    ∀ v ∈ n.operands, ∀ w, s.draft.replaced.follow v = .ok w → done w.node

/-- With enough fuel, a check looks at all that it is asked for and at all that this reaches. -/
theorem checked_of_checkFrom {fuel : Nat} {stack : List NodeId} {seen : Array Bool}
    (hsize : seen.size = s.draft.graph.size)
    (hfuel : stack.length + Graph.Walk.undone s.draft.graph (seen[·]?.getD false) ≤ fuel)
    (h : s.checkFrom T fuel stack seen = .ok ()) :
    ∃ done : Nat → Prop, (∀ j, seen[j]?.getD false = true → done j) ∧ (∀ j ∈ stack, done j) ∧
      ∀ j, done j → seen[j]?.getD false = true ∨ s.Checked T done j := by
  fun_induction checkFrom s T fuel stack seen with
  | case1 stack seen =>
    obtain rfl : stack = [] := List.eq_nil_of_length_eq_zero (by omega)
    exact ⟨_, fun _ hj => hj, by simp, fun _ hj => .inl hj⟩
  | case2 seen => exact ⟨_, fun _ hj => hj, by simp, fun _ hj => .inl hj⟩
  | case3 fuel id stack seen hseen ih =>
    rw [List.length_cons] at hfuel
    obtain ⟨done, hdone, hstack, hchecked⟩ := ih hsize (by omega) h
    refine ⟨done, hdone, fun j hj => ?_, hchecked⟩
    rcases List.mem_cons.1 hj with rfl | hj
    · exact hdone j hseen
    · exact hstack j hj
  | case4 => cases h
  | case5 => cases h
  | case6 => cases h
  | case7 => cases h
  | case8 fuel id stack seen hseen hstate n hnode hfind operands hmap ih =>
    have hn := Graph.node_eq_ok hnode
    have hlt : id < seen.size := hsize ▸ Graph.lt_size_of_getElem? hn
    have hget (j : Nat) (hj : j ≠ id) :
        (seen.setIfInBounds id true)[j]?.getD false = seen[j]?.getD false := by
      simp [Ne.symm hj]
    have hundone := Graph.Walk.undone_insert hn (seen[·]?.getD false)
      ((seen.setIfInBounds id true)[·]?.getD false) (by simpa using hseen) (by simp [hlt]) hget
    obtain ⟨done, hdone, hstack, hchecked⟩ := ih (by simpa using hsize) (by
      simp only [List.length_append, List.length_reverse, List.length_map, List.length_cons,
        (mapM_eq_ok hmap).1] at hfuel ⊢
      omega) h
    have hid : done id := hdone id (by simp [hlt])
    refine ⟨done, fun j hj => ?_, fun j hj => ?_, fun j hj => ?_⟩
    · by_cases heq : j = id
      · exact heq ▸ hid
      · exact hdone j ((hget j heq).trans hj)
    · rcases List.mem_cons.1 hj with rfl | hj
      · exact hid
      · exact hstack j (List.mem_append_right _ hj)
    · by_cases heq : j = id
      · subst heq
        refine .inr ⟨n, hn, fun t ht => ?_, fun v hv w hw => ?_⟩
        · simpa using List.find?_eq_none.1 hfind t ht
        · apply hstack
          rw [List.mem_append, List.mem_reverse, List.mem_map]
          exact .inl ⟨w, mem_of_mapM_eq_ok hmap hv hw, rfl⟩
      · exact (hchecked j hj).imp_left fun hseen' => (hget j heq).symm.trans hseen'

/-- What the root reaches in a run that passes its check is legal. -/
theorem legal_of_check (h : s.check T = .ok ()) {id : Nat}
    (hid : s.draft.graph.Reached s.draft.replaced.follow s.root id) :
    ∃ n, s.draft.graph.nodes[id]? = some n ∧ ∀ t ∈ n.results, T.classify t = .legal := by
  have hunseen (j : Nat) :
      (Array.replicate s.draft.graph.size false)[j]?.getD false = false := by
    rw [Array.getElem?_replicate]
    split <;> rfl
  obtain ⟨done, _, hroot, hchecked⟩ := checked_of_checkFrom Array.size_replicate (by
    have := Graph.Walk.work_start s.draft.graph s.root
    simp only [Graph.Walk.work, Graph.join_replicate_none, Option.isSome_none] at this
    simp only [hunseen, List.length_singleton]
    omega) h
  have hchecked' (j : Nat) (hj : done j) : s.Checked T done j :=
    (hchecked j hj).resolve_left (by rw [hunseen]; simp)
  have hall : done id := by
    induction hid with
    | root => exact hroot _ List.mem_cons_self
    | operand _ hn hv hw ih =>
      obtain ⟨m, hm, _, hreads⟩ := hchecked' _ ih
      rw [hn] at hm
      cases hm
      exact hreads _ hv _ hw
  obtain ⟨n, hn, hlegal, _⟩ := hchecked' id hall
  exact ⟨n, hn, hlegal⟩

end Run

/-- The result of a run that passed its check holds legal values only, and is its own live part. -/
theorem legal_of_verified {T : Target} {config : Config} {fuel : Nat} {g h : Graph}
    (hl : legalize T { config with verify := true } fuel g = .ok h) :
    h.Built ∧ AllLegal T h ∧ ∃ r, h.root = some r ∧ h.live .ok r = .ok h := by
  obtain ⟨s, hc, hconclude⟩ := exists_completes hl
  obtain ⟨_, _, hhead⟩ := hc.head
  obtain ⟨⟨rank, hsound⟩, _⟩ := hhead.sound
  have hdescends := hsound.ordered.graded.graph_descends s.root
  unfold Run.conclude at hconclude
  rw [if_pos rfl] at hconclude
  cases hcheck : s.check T with
  | error e =>
    rw [hcheck] at hconclude
    cases hconclude
  | ok _ =>
    rw [hcheck] at hconclude
    cases hresult : s.result with
    | error f =>
      rw [hresult] at hconclude
      cases hconclude
    | ok h' =>
      rw [hresult] at hconclude
      cases hconclude
      obtain ⟨ids, hx⟩ := (Graph.live_extracts hdescends).1 h hresult
      refine ⟨hx.built_graph, fun k n hn => ?_, _, hx.root_eq, hx.live_eq.trans hresult⟩
      have hk : k < ids.length := hx.size_eq ▸ Graph.lt_size_of_getElem? hn
      obtain ⟨m, hm, _, hres, _⟩ := (hx.stands k _ n (List.getElem?_eq_getElem hk) hn).node
      obtain ⟨m', hm', hlegal⟩ := Run.legal_of_check hcheck
        ((hx.mem_iff _).1 (List.getElem_mem hk))
      rw [hm] at hm'
      cases hm'
      rw [hres]
      exact hlegal

/-- Legal graphs stay as they are. When all values that the root reaches are legal, a run returns the
live part, after one visit for each of its nodes and without creating any. What a checked run
returns is such a graph, and comes out of another run unchanged. -/
theorem legal_fixed_point (T : Target) (config : Config) {g : Graph} {root : NodeId}
    (hg : g.Built) (hroot : g.root = some root) (hlt : root < g.size) :
    ((∀ (id : Nat) n, g.Reached .ok root id → g.nodes[id]? = some n →
        ∀ t ∈ n.results, T.classify t = .legal) →
      ∃ h s₀, g.live .ok root = .ok h ∧ Run.start g = .ok s₀ ∧ ∀ fuel, h.size ≤ fuel →
        (∃ s, Engine.run T config fuel s₀ = .ok ⟨h, h.size, 0⟩ s) ∧
        legalize T config fuel g = .ok h) ∧
    ∀ fuel h, legalize T { config with verify := true } fuel g = .ok h →
      ∀ config' fuel', h.size ≤ fuel' → legalize T config' fuel' h = .ok h := by
  have hlegalize {g h : Graph} {s₀ s : Run} {config : Config} {fuel : Nat}
      (hstart : Run.start g = .ok s₀)
      (hrun : Engine.run T config fuel s₀ = .ok ⟨h, h.size, 0⟩ s) :
      legalize T config fuel g = .ok h := by
    simp only [legalize, hstart, bind, Except.bind, hrun]
    rfl
  constructor
  · intro hlegal
    obtain ⟨h, ids, hlive, hx⟩ := hg.live_ok hlt
    have hall : AllLegal T h := by
      intro k n hn
      have hk : k < ids.length := hx.size_eq ▸ Graph.lt_size_of_getElem? hn
      have hid := List.getElem?_eq_getElem hk
      obtain ⟨m, hm, _, hres, _⟩ := (hx.stands k _ n hid hn).node
      rw [hres]
      exact hlegal _ m ((hx.mem_iff _).1 (List.getElem_mem hk)) hm
    obtain ⟨s₀, hstart, hrun⟩ := run_of_allLegal T config hg hroot hlive hall
    refine ⟨h, s₀, hlive, hstart, fun fuel hfuel => ?_⟩
    obtain ⟨s, hs⟩ := hrun fuel hfuel
    exact ⟨⟨s, hs⟩, hlegalize hstart hs⟩
  · intro fuel h hl config' fuel' hfuel
    obtain ⟨hb, hall, r, hr, hlive⟩ := legal_of_verified hl
    obtain ⟨s₀, hstart, hrun⟩ := run_of_allLegal T config' hb hr hlive hall
    obtain ⟨s, hs⟩ := hrun fuel' hfuel
    exact hlegalize hstart hs

/-- Twice an argument, beside a dead node of an illegal type. -/
def legalDoubling : Graph :=
  ((((Graph.empty.push { opcode := .argument, results := [.i32], attr := .arg 0 0 }).push
    { opcode := .undef, results := [.i64] }).push
    { opcode := .int .add, operands := [⟨0, 0⟩, ⟨0, 0⟩], results := [.i32] }).push
    { opcode := .output, operands := [⟨2, 0⟩], attr := .widths [32] }).setRoot 3

theorem legal_fixed_point_doubling :
    ∃ T h, Target.int32.target = .ok T ∧ legalDoubling.live .ok 3 = .ok h ∧ h.size = 3 ∧
      legalize T {} 3 legalDoubling = .ok h ∧ legalize T {} 3 h = .ok h := by
  have hclassify : (Target.int32.target.toOption.map fun T =>
      decide (T.classify .i32 = .legal)) = some true := by
    decide
  have hsize : (legalDoubling.live .ok 3).toOption.map (·.size) = some 3 := by
    decide
  obtain ⟨T, hT, hclassify⟩ := Description.exists_target hclassify
  have hi32 : T.classify .i32 = .legal := of_decide_eq_true hclassify
  have hlive {id : Nat} (hid : legalDoubling.Reached .ok 3 id) : id = 0 ∨ id = 2 ∨ id = 3 := by
    induction hid with
    | root => exact .inr (.inr rfl)
    | @operand id n v w _ hn hv hw ih =>
      cases hw
      rcases ih with rfl | rfl | rfl <;> cases hn <;> revert v <;> decide
  obtain ⟨hrun, hagain⟩ :=
    legal_fixed_point T {} (Graph.built_of_pushAll? 3 rfl : legalDoubling.Built) rfl (by decide)
  obtain ⟨h, s₀, hh, _, hfuel⟩ := hrun fun id n hid hn t ht => by
    rcases hlive hid with rfl | rfl | rfl <;> cases hn
    · exact (List.mem_singleton.1 ht) ▸ hi32
    · exact (List.mem_singleton.1 ht) ▸ hi32
    · cases ht
  have hthree : h.size = 3 := by
    rw [hh] at hsize
    exact Option.some.inj hsize
  have hl := (hfuel 3 (Nat.le_of_eq hthree)).2
  exact ⟨T, h, hT, hh, hthree, hl, hagain 3 h hl {} 3 (Nat.le_of_eq hthree)⟩

end Dataflow.Legal
