import Dataflow.Proofs.Heads

/-!
# The scheduler

At every head of the loop, for any graph and any target, the queue and the states of the nodes
agree with the edges of the graph. So no step meets a node in a state that it does not expect.
-/

namespace Dataflow.Legal

open Engine

namespace Run

/-- The queue, the states and the use lists agree with the graph. Sources are canonical: edges are
followed through the redirections. -/
structure Consistent (s : Run) : Prop where
  resolves : ∀ v, s.draft.replaced.follow v = .ok (s.draft.replaced.canon v)
  queue_nodup : s.worklist.Nodup
  mem_queue_iff : ∀ id, id ∈ s.worklist ↔ s.states.get id = .ready
  pending : ∀ id k, s.states.get id = .pending k → 0 < k ∧ k = s.waiting id
  idle : ∀ id, s.states.get id = .ready ∨ s.states.get id = .processed → s.waiting id = 0
  known : ∀ id, s.states.get id ≠ .new → id < s.draft.graph.size
  sources : ∀ (id : Nat) n v, s.states.get id ≠ .new → s.draft.graph.nodes[id]? = some n →
    v ∈ n.operands → s.states.get (s.draft.replaced.canon v).node ≠ .new
  uses_nodup : ∀ id, (s.draft.graph.usesAt id).Nodup
  mem_uses_iff : ∀ id slot user i, ⟨user, i, slot⟩ ∈ s.draft.graph.usesAt id ↔
    ∃ n v, s.draft.graph.nodes[user]? = some n ∧ n.operands[i]? = some v ∧
      s.draft.replaced.canon v = ⟨id, slot⟩

theorem Sound.consistent {s : Run} {rank : Nat → Nat} (h : s.Sound none rank) : s.Consistent where
  resolves := h.ordered.descends.follow_eq
  queue_nodup := h.scheduled.nodup
  mem_queue_iff id := by simpa using h.scheduled.mem_iff id
  pending := h.scheduled.pending
  idle := h.scheduled.idle
  known := h.scheduled.known
  sources := h.sourced
  uses_nodup := h.attached.nodup
  mem_uses_iff id slot user i := by
    rw [h.attached.mem_iff]
    constructor
    · rintro ⟨v, ⟨n, hn, hv⟩, hc⟩
      exact ⟨n, v, hn, hv, hc⟩
    · rintro ⟨n, v, hn, hv, hc⟩
      exact ⟨v, ⟨n, hn, hv⟩, hc⟩

/-- With an empty queue, the source of lowest rank that is not processed would be ready. -/
theorem Sound.processed_of_idle {s : Run} {rank : Nat → Nat} (h : s.Sound none rank)
    (hw : s.worklist = []) (id : Nat) (hid : s.states.get id ≠ .new) :
    s.states.get id = .processed := by
  induction hr : rank id using Nat.strongRecOn generalizing id with
  | ind r ih =>
    cases hs : s.states.get id with
    | new => exact absurd hs hid
    | processed => rfl
    | ready =>
      have := (h.scheduled.mem_iff id).2 ⟨hs, by simp⟩
      rw [hw] at this
      cases this
    | pending k =>
      obtain ⟨hk, hwaiting⟩ := h.scheduled.pending id k hs
      obtain ⟨n, hn⟩ : ∃ n, s.draft.graph.nodes[id]? = some n :=
        ⟨_, Array.getElem?_eq_getElem (h.scheduled.known id hid)⟩
      rw [hwaiting, waiting_eq hn, List.countP_pos_iff] at hk
      obtain ⟨v, hv, hwaits⟩ := hk
      have hlow : rank (s.draft.replaced.canon v).node < r := hr ▸ Nat.lt_of_le_of_lt
        (h.ordered.descends.rank_canon v) (h.ordered.operands id n v hn hv).2
      have hdone := ih _ hlow _ (h.sourced id n v hid hn hv) rfl
      simp [waits, States.isProcessed, hdone] at hwaits

/-- A check only complains of nodes that are not processed, of illegal types and of faults. -/
theorem checkFrom_error {s : Run} {T : Target} {fuel : Nat} {stack : List NodeId}
    {seen : Array Bool} {e : Error} (h : s.checkFrom T fuel stack seen = .error e) :
    (∃ id, e = .unprocessed id) ∨ (∃ id op t, e = .illegalType id op t) ∨ ∃ f, e = .fault f := by
  fun_induction checkFrom s T fuel stack seen with
  | case1 => cases h
  | case2 => cases h
  | case3 _ _ _ _ _ ih => exact ih h
  | case4 =>
    cases h
    exact .inl ⟨_, rfl⟩
  | case5 =>
    cases h
    exact .inr (.inr ⟨_, rfl⟩)
  | case6 =>
    cases h
    exact .inr (.inl ⟨_, _, _, rfl⟩)
  | case7 =>
    cases h
    exact .inr (.inr ⟨_, rfl⟩)
  | case8 _ _ _ _ _ _ _ _ _ _ _ ih => exact ih h

theorem conclude_eq_error {s : Run} {T : Target} {config : Config} {e : Error}
    (h : s.conclude T config = .error e) :
    config.verify = true ∧ s.check T = .error e ∨ ∃ f, s.result = .error f ∧ e = .fault f := by
  have hresult (hr : s.result.mapError Error.fault = .error e) :
      ∃ f, s.result = .error f ∧ e = .fault f := by
    cases hf : s.result with
    | ok h => rw [hf] at hr; cases hr
    | error f =>
      rw [hf] at hr
      cases hr
      exact ⟨f, rfl, rfl⟩
  unfold conclude at h
  cases hv : config.verify with
  | false =>
    rw [hv] at h
    exact .inr (hresult h)
  | true =>
    rw [hv] at h
    cases hc : s.check T with
    | ok _ =>
      simp only [hc] at h
      exact .inr (hresult h)
    | error e' =>
      simp only [hc] at h
      cases h
      exact .inl ⟨rfl, rfl⟩

end Run

namespace Engine

variable {T : Target} {config : Config} {g : Graph} {ids : List NodeId} {s : Run}

/-- The error reports a broken run, and not a graph that cannot be made legal. -/
def Internal : Error → Prop
  | .invalidState .. | .unprocessed .. | .illegalType .. => True
  | _ => False

theorem ordinary_not_internal : Ordinary fun e => ¬ Internal e where
  fault _ _ h := h
  noResultRule _ _ _ h := h
  noOperandRule _ _ _ _ h := h
  fromRule e h := by
    cases e with
    | invalidState | unprocessed | illegalType => exact h.elim
    | _ => exact id
  conversion _ h := h

/-- Steps keep a run sound, so every head is. -/
theorem Head.sound (h : Head T config g ids s) :
    (∃ rank, s.Sound none rank) ∧ ids.Nodup ∧ ∀ id ∈ ids, s.states.get id = .processed := by
  induction h with
  | seeded hs hp =>
    exact ⟨⟨_, ((ends_prepare config hs).of_ok hp).1.sound⟩, List.nodup_nil, nofun⟩
  | @visited ids rest id s s' _ hw hstep ih =>
    obtain ⟨⟨rank, hsound⟩, hnodup, hprocessed⟩ := ih
    obtain ⟨hsound', hid, hkept⟩ := (ends_step_sound .any T hsound hw).of_ok hstep
    refine ⟨hsound', List.nodup_cons.2 ⟨fun hmem => ?_, hnodup⟩, fun j hj => ?_⟩
    · have hready := hsound.ready_head hw
      rw [hprocessed id hmem] at hready
      cases hready
    · rcases List.mem_cons.1 hj with rfl | hj
      · exact hid
      · exact hkept j (hprocessed j hj)

theorem Stops.not_internal {e : Error} (h : Stops T config g e) : ¬ Internal e := by
  obtain ⟨ids, rest, j, s, s', hhead, hw, hstep⟩ := h
  obtain ⟨⟨rank, hsound⟩, _⟩ := hhead.sound
  exact (ends_step_sound ordinary_not_internal T hsound hw).of_error hstep

/-- Internal errors can only come from the check of a completed run. -/
theorem check_of_internal {fuel : Nat} {e : Error} (hl : legalize T config fuel g = .error e)
    (he : Internal e) : ∃ s, Completes T config fuel g s ∧ s.check T = .error e := by
  rcases completes_or_stops T config fuel g with ⟨s, hc⟩ | ⟨e', he', hcause⟩
  · rw [hc.legalize_eq] at hl
    rcases Run.conclude_eq_error hl with ⟨_, hcheck⟩ | ⟨f, _, rfl⟩
    · exact ⟨s, hc, hcheck⟩
    · exact he.elim
  · rw [hl] at he'
    cases he'
    rcases hcause with rfl | ⟨f, rfl⟩ | rfl | hstops
    · exact he.elim
    · exact he.elim
    · exact he.elim
    · exact absurd he hstops.not_internal

end Engine

/-- At every head of the loop the scheduler agrees with the graph, no node was visited twice, and
when the queue is empty every node that has a state is processed. No run ends because a node is in
an unexpected state. -/
theorem scheduler_invariant (T : Target) (config : Config) (g : Graph) :
    (∀ ids s, Head T config g ids s → s.Consistent ∧ ids.Nodup ∧
      (s.worklist = [] → ∀ id, s.states.get id ≠ .new → s.states.get id = .processed)) ∧
    ∀ fuel id state expected, legalize T config fuel g ≠ .error (.invalidState id state expected) := by
  refine ⟨fun ids s h => ?_, fun fuel id state expected h => ?_⟩
  · obtain ⟨⟨rank, hsound⟩, hnodup, _⟩ := h.sound
    exact ⟨hsound.consistent, hnodup, hsound.processed_of_idle⟩
  · obtain ⟨s, _, hcheck⟩ := check_of_internal h trivial
    rcases Run.checkFrom_error hcheck with ⟨_, he⟩ | ⟨_, _, _, he⟩ | ⟨_, he⟩ <;> cases he

theorem scheduler_invariant_doubling :
    ∃ T ids s, Target.int32.target = .ok T ∧ Head T { verify := false } doubling ids s ∧
      s.worklist = [] ∧ s.Consistent ∧ ids.Nodup ∧
      ∀ id, s.states.get id ≠ .new → s.states.get id = .processed := by
  obtain ⟨T, h, hT, hl⟩ := legalize_doubling
  obtain ⟨s, hc, _⟩ := exists_completes hl
  obtain ⟨hw, ids, hhead⟩ := hc.head
  obtain ⟨hcons, hnodup, hdone⟩ := (scheduler_invariant T _ doubling).1 ids s hhead
  exact ⟨T, ids, s, hT, hhead, hw, hcons, hnodup, hdone hw⟩

end Dataflow.Legal
