import Dataflow.Proofs.Analysis

/-!
# The schedule

At every head of the loop the worklist holds the ready nodes, and a pending node counts its operand
edges that read unprocessed nodes. Inside a visit the counts of some users are behind: the schedule
is therefore stated for the count that is due for each node, and due counts catch up with the edges
when the users have been told.
-/

namespace Dataflow.Legal

namespace Run

/-- The worklist and the states are in step, where node `id` is due to wait for `due id` edges.
The current node is ready and not queued any more. -/
structure Scheduled (s : Run) (current : Option Nat) (due : Nat → Nat) : Prop where
  nodup : s.worklist.Nodup
  mem_iff : ∀ id, id ∈ s.worklist ↔ s.states.get id = .ready ∧ current ≠ some id
  current : ∀ id, current = some id → s.states.get id = .ready
  known : ∀ id, s.states.get id ≠ .new → id < s.draft.graph.size
  pending : ∀ id k, s.states.get id = .pending k → 0 < k ∧ k = due id
  idle : ∀ id, s.states.get id = .ready ∨ s.states.get id = .processed → due id = 0

/-- The canonical sources of nodes that have states have states. -/
def Sourced (s : Run) : Prop :=
  ∀ (id : Nat) n v, s.states.get id ≠ .new → s.draft.graph.nodes[id]? = some n →
    v ∈ n.operands → s.states.get (s.draft.replaced.canon v).node ≠ .new

namespace Scheduled

variable {s s' : Run} {current : Option Nat} {due : Nat → Nat}

theorem of_eq (h : s.Scheduled current due) (hw : s'.worklist = s.worklist)
    (hs : s'.states = s.states) (hg : s'.draft.graph.size = s.draft.graph.size) :
    s'.Scheduled current due where
  nodup := hw ▸ h.nodup
  mem_iff := by
    rw [hw, hs]
    exact h.mem_iff
  current := by
    rw [hs]
    exact h.current
  known := by
    rw [hs, hg]
    exact h.known
  pending := by
    rw [hs]
    exact h.pending
  idle := by
    rw [hs]
    exact h.idle

theorem notMem_of_pending (h : s.Scheduled current due) {id k : Nat}
    (hid : s.states.get id = .pending k) : id ∉ s.worklist := by
  intro hm
  have hready := ((h.mem_iff id).1 hm).1
  rw [hid] at hready
  cases hready

theorem nodup_settles (h : s.Scheduled current due) (hs : s.Settles s') : s'.worklist.Nodup := by
  obtain ⟨added, hw, hnodup, hadded⟩ := hs.queued
  rw [hw]
  refine List.nodup_append.2 ⟨hnodup, h.nodup, fun j hj k hk hjk => ?_⟩
  subst hjk
  exact absurd ((hadded j).1 hj).1 (by simp [((h.mem_iff j).1 hk).1])

/-- What analysis queues is ready, and nothing else gets ready. -/
theorem mem_worklist_settles (h : s.Scheduled current due) (hs : s.Settles s') (id : Nat) :
    id ∈ s'.worklist ↔ s'.states.get id = .ready ∧ current ≠ some id := by
  obtain ⟨added, hw, _, hadded⟩ := hs.queued
  have ready_iff : s'.states.get id = .ready ↔ id ∈ added ∨ s.states.get id = .ready := by
    rw [hadded]
    by_cases hid : s.states.get id = .new
    · simp [hid]
    · rw [hs.kept id hid]
      simp [hid]
  rw [hw, List.mem_append, h.mem_iff, ready_iff]
  constructor
  · rintro (hid | hid)
    · refine ⟨.inl hid, fun hc => ?_⟩
      have := h.current id hc
      rw [((hadded id).1 hid).1] at this
      cases this
    · exact ⟨.inr hid.1, hid.2⟩
  · rintro ⟨hid | hid, hc⟩
    · exact .inl hid
    · exact .inr ⟨hid, hc⟩

/-- Analysis of new nodes keeps the schedule, when new nodes are due to wait for their edges. -/
theorem settles (h : s.Scheduled current due) (hs : s.Settles s')
    (hnew : ∀ j, s.states.get j = .new → due j = s.waiting j) : s'.Scheduled current due where
  nodup := h.nodup_settles hs
  mem_iff := h.mem_worklist_settles hs
  current id hid := by
    rw [hs.kept id (by rw [h.current id hid]; simp), h.current id hid]
  known id hid := by
    rw [hs.graph]
    by_cases hold : s.states.get id = .new
    · obtain ⟨_, n, hn, _⟩ := hs.counted id hold hid
      exact Graph.lt_size_of_getElem? hn
    · exact h.known id hold
  pending id k hk := by
    by_cases hold : s.states.get id = .new
    · have hc := (hs.counted id hold (by rw [hk]; simp)).1
      rw [hk] at hc
      rw [hnew id hold]
      have := NodeState.ofPending_eq_pending_iff.1 hc.symm
      omega
    · exact h.pending id k (hs.kept id hold ▸ hk)
  idle id hid := by
    by_cases hold : s.states.get id = .new
    · have hc := (hs.counted id hold (by rcases hid with hid | hid <;> simp [hid])).1
      rw [hnew id hold]
      rcases hid with hid | hid
      · exact NodeState.ofPending_eq_ready_iff.1 (hc.symm.trans hid)
      · exact absurd (hc.symm.trans hid) (NodeState.ofPending_ne_processed _)
    · exact h.idle id (hs.kept id hold ▸ hid)

end Scheduled

theorem Sourced.settles {s s' : Run} {rank : Nat → Nat} (h : s.Sourced) (hs : s.Settles s')
    (hd : s.draft.replaced.Descends rank) : s'.Sourced := by
  intro id n v hid hn hv
  rw [hs.keeps.canon_eq hd]
  rw [hs.graph] at hn
  by_cases hold : s.states.get id = .new
  · obtain ⟨_, m, hm, hsources⟩ := hs.counted id hold hid
    rw [hn] at hm
    cases hm
    exact hsources v hv
  · exact hs.analyzed (h id n v hold hn hv)

end Run

/-! ### Users of a replaced value -/

namespace Run

variable {s : Run} {id k : Nat}

/-- `s` without the state of node `id`. -/
def forget (s : Run) (id : Nat) : Run :=
  { s with states := s.states.set id .new }

@[simp]
theorem get_forget (s : Run) (id j : Nat) :
    (s.forget id).states.get j = if j = id then .new else s.states.get j :=
  States.get_set ..

theorem waiting_forget (hid : s.states.get id = .pending k) :
    (s.forget id).waiting = s.waiting := by
  have hproc : ∀ j, (s.forget id).states.get j = .processed ↔ s.states.get j = .processed := by
    intro j
    rw [get_forget]
    split
    · next h => simp [h, hid]
    · exact Iff.rfl
  funext j
  have hwaits : (s.forget id).waits = s.waits := by
    funext v
    simp only [waits, States.isProcessed]
    exact congrArg _ (decide_eq_decide.2 (hproc _))
  simp only [waiting, hwaits]
  rfl

/-- A pending node whose state is forgotten may be due to wait for any number of edges. -/
theorem Scheduled.forget {current : Option Nat} {due due' : Nat → Nat}
    (h : s.Scheduled current due) (hid : s.states.get id = .pending k)
    (hdue : ∀ j, j ≠ id → due' j = due j) : (s.forget id).Scheduled current due' where
  nodup := h.nodup
  mem_iff j := by
    rw [show (s.forget id).worklist = s.worklist from rfl, h.mem_iff, get_forget]
    split
    · next hjid => simp [hjid, hid]
    · exact Iff.rfl
  current j hj := by
    have hjr := h.current j hj
    rw [get_forget, if_neg (by rintro rfl; rw [hid] at hjr; cases hjr), hjr]
  known j hj := by
    refine h.known j fun hnew => ?_
    rw [get_forget, hnew] at hj
    simp at hj
  pending j m hj := by
    rw [get_forget] at hj
    split at hj
    · cases hj
    · next hjid => exact hdue j hjid ▸ h.pending j m hj
  idle j hj := by
    rw [get_forget] at hj
    split at hj
    · simp at hj
    · next hjid => exact hdue j hjid ▸ h.idle j hj

end Run

namespace Engine

open Run

variable {E : Error → Prop} {s : Run} {current : Option Nat} {due : Nat → Nat} {rank : Nat → Nat}

/-- A pending node whose edges are counted again is due to wait for as many as there are. -/
theorem ends_reanalyze (hr : s.draft.Ranked rank)
    (hsched : s.Scheduled current due) (hsrc : s.Sourced)
    (hnew : ∀ j, s.states.get j = .new → due j = s.waiting j) {id k : Nat}
    (hid : s.states.get id = .pending k) :
    Ends E (reanalyze id) s fun _ s' =>
      s'.Scheduled current (fun j => if j = id then s.waiting id else due j) ∧ s'.Sourced ∧
        s.Keeps s' ∧ ∀ j, j ≠ id → s'.states.get j = s.states.get j := by
  refine .bind (P := fun _ s' => s.forget id = s') rfl ?_
  rintro _ _ rfl
  have hlt : id < s.draft.graph.size := hsched.known id (by rw [hid]; simp)
  refine (ends_analyze (s := s.forget id) hr hlt).mono ?_
  intro _ s' h
  -- the operands have states, so no other node is analysed
  have hsame : ∀ j, j ≠ id → s'.states.get j = s.states.get j := fun j hj => by
    rw [h.shallow ?_ j hj, get_forget, if_neg hj]
    intro n v hn hv
    have hlt : rank (s.draft.replaced.canon v).node < rank id :=
      Nat.lt_of_le_of_lt (hr.descends.rank_canon v) (hr.operands id n v hn hv)
    have hne : (s.draft.replaced.canon v).node ≠ id := fun heq => by
      rw [heq] at hlt
      omega
    rw [get_forget]
    show (if (s.draft.replaced.canon v).node = id then NodeState.new else _) ≠ _
    rw [if_neg hne]
    exact hsrc id n v (by rw [hid]; simp) hn hv
  refine ⟨?_, ?_, ?_, hsame⟩
  · refine (hsched.forget hid fun j hj => if_neg hj).settles h.settles fun j hj => ?_
    rw [waiting_forget hid]
    split
    · next hjid => rw [hjid]
    · next hjid =>
      rw [get_forget, if_neg hjid] at hj
      exact hnew j hj
  · intro j n v hj hn hv
    rw [h.settles.graph] at hn
    rw [h.settles.keeps.canon_eq hr.descends]
    by_cases hjid : j = id
    · subst hjid
      obtain ⟨_, m, hm, hsources⟩ := h.settles.counted j (by simp) hj
      rw [hn] at hm
      cases hm
      exact hsources v hv
    · have hv := hsrc j n v (hsame j hjid ▸ hj) hn hv
      by_cases hcid : (s.draft.replaced.canon v).node = id
      · exact hcid ▸ h.analyzed
      · exact (hsame _ hcid).symm ▸ hv
  · refine ⟨⟨fun j => ?_, fun j hj => ?_⟩, h.settles.graph, h.settles.conversions,
      h.settles.replaced, h.settles.root⟩
    · rw [h.settles.keeps.processed_iff, get_forget]
      split
      · next hjid => simp [hjid, hid]
      · exact Iff.rfl
    · by_cases hjid : j = id
      · exact hjid ▸ h.analyzed
      · exact (hsame j hjid).symm ▸ hj

/-- When the users of a replaced value have been counted again, every node is due to wait for its
edges. -/
theorem ends_revisitUsers (users : List Nat) (hnodup : users.Nodup) {s : Run}
    {due : Nat → Nat} (hr : s.draft.Ranked rank) (hsched : s.Scheduled current due)
    (hsrc : s.Sourced)
    (hrest : ∀ j, j ∉ users ∨ s.states.get j = .new → due j = s.waiting j)
    (husers : ∀ j ∈ users, s.states.get j = .new ∨ ∃ k, s.states.get j = .pending k) :
    Ends E (users.forM revisitUser) s fun _ s' =>
      s'.Scheduled current s'.waiting ∧ s'.Sourced ∧ s.Keeps s' := by
  induction users generalizing s due with
  | nil =>
    have hdue : due = s.waiting := funext fun j => hrest j (.inl List.not_mem_nil)
    exact .pure ⟨hdue ▸ hsched, hsrc, .refl s⟩
  | cons user users ih =>
    obtain ⟨huser, hnodup⟩ := List.nodup_cons.1 hnodup
    show Ends E (revisitUser user >>= fun _ => users.forM revisitUser) s _
    refine .bind (P := fun _ s' => ∃ due', s'.Scheduled current due' ∧ s'.Sourced ∧ s.Keeps s' ∧
      (∀ j, j ≠ user → s'.states.get j = s.states.get j) ∧
      ∀ j, j ∉ users ∨ s'.states.get j = .new → due' j = s'.waiting j) ?_ ?_
    · refine .bind (P := fun x s' => s.states.get user = x ∧ s = s') ⟨rfl, rfl⟩ ?_
      rintro _ _ ⟨rfl, rfl⟩
      rcases husers user List.mem_cons_self with hnew | ⟨k, hk⟩
      · rw [hnew]
        refine .pure ⟨due, hsched, hsrc, .refl s, fun _ _ => rfl, fun j hj => hrest j ?_⟩
        rcases hj with hj | hj
        · by_cases hju : j = user
          · exact .inr (hju ▸ hnew)
          · exact .inl (by simp [hju, hj])
        · exact .inr hj
      · rw [hk]
        refine (ends_reanalyze hr hsched hsrc (fun j hj => hrest j (.inr hj)) hk).mono ?_
        rintro _ s' ⟨hsched', hsrc', hkeeps, hsame⟩
        refine ⟨_, hsched', hsrc', hkeeps, hsame, fun j hj => ?_⟩
        rw [hkeeps.waiting_eq hr.descends]
        split
        · next hju => rw [hju]
        · next hju =>
          refine hrest j ?_
          rw [hsame j hju] at hj
          rcases hj with hj | hj
          · exact .inl (by simp [hju, hj])
          · exact .inr hj
    · rintro _ s₁ ⟨due', hsched', hsrc', hkeeps, hsame, hrest'⟩
      refine (ih hnodup (hr.keeps hkeeps) hsched' hsrc' hrest' fun j hj => ?_).mono ?_
      · rw [hsame j (by rintro rfl; exact huser hj)]
        exact husers j (List.mem_cons_of_mem user hj)
      · rintro _ s₂ ⟨h₁, h₂, h₃⟩
        exact ⟨h₁, h₂, hkeeps.trans h₃⟩

end Engine

/-! ### Users of a processed node -/

namespace Run

variable {s : Run} {rank : Nat → Nat}

/-- `s` with node `id` processed. -/
def mark (s : Run) (id : Nat) : Run :=
  { s with states := s.states.set id .processed }

@[simp]
theorem get_mark (s : Run) (id j : Nat) :
    (s.mark id).states.get j = if j = id then .processed else s.states.get j :=
  States.get_set ..

/-- The edges that a node waits for when `id` is processed, and those that read `id`. -/
theorem waiting_eq_mark_add (h : s.draft.graph.Attached s.draft.replaced.canon) {id : Nat}
    (hid : s.states.get id ≠ .processed) (user : Nat) :
    s.waiting user = (s.mark id).waiting user +
      (s.draft.graph.usesAt id).countP (·.user = user) := by
  have split (vs : List Value) : vs.countP s.waits = vs.countP (s.mark id).waits +
      vs.countP (fun v => (s.draft.replaced.canon v).node = id) := by
    induction vs with
    | nil => rfl
    | cons v vs ih =>
      simp only [List.countP_cons, ih, waits, States.isProcessed, get_mark]
      by_cases hv : (s.draft.replaced.canon v).node = id
      · simp [hv, hid, show (s.mark id).draft = s.draft from rfl]
        omega
      · simp [hv, show (s.mark id).draft = s.draft from rfl]
        omega
  cases hn : s.draft.graph.nodes[user]? with
  | some n =>
    rw [waiting_eq hn, waiting_eq (s := s.mark id) hn, split, h.countP_source hn]
  | none =>
    have hnone : (s.draft.graph.usesAt id).countP (·.user = user) = 0 := by
      refine List.countP_eq_zero.2 fun u hu huser => ?_
      obtain ⟨v, ⟨n, hm, _⟩, _⟩ := (h.mem_iff id u).1 hu
      simp only [decide_eq_true_eq] at huser
      rw [huser, hn] at hm
      cases hm
    simp [waiting, hn, hnone, show (s.mark id).draft = s.draft from rfl]

end Run

namespace Engine

open Run

variable {E : Error → Prop} {s : Run} {due : Nat → Nat} {rank : Nat → Nat}

theorem operandProcessed_run {user k : Nat} (hk : s.states.get user = .pending (k + 1)) :
    ∃ log, operandProcessed user s = .ok () { s with
      draft := { s.draft with log }
      states := s.states.set user (.ofPending k)
      worklist := if k = 0 then user :: s.worklist else s.worklist } := by
  have hres : s.states.resolveOperand user =
      .ok (k = 0) (s.states.set user (.ofPending k)) := by
    simp [States.resolveOperand, hk, States.setPending]
  by_cases h0 : k = 0
  · subst h0
    refine ⟨s.draft.log.push (.queued user), ?_⟩
    rw [operandProcessed, get_bind_run, hres]
    rfl
  · refine ⟨s.draft.log, ?_⟩
    rw [operandProcessed, get_bind_run, hres, decide_eq_false h0, if_neg h0]
    rfl

/-- A pending user may wait for another number of edges, and is queued when that is none. -/
theorem scheduled_setPending {due' : Nat → Nat} {user k : Nat}
    (h : s.Scheduled none due) (hu : s.states.get user = .pending k)
    (hdue : ∀ j, j ≠ user → due' j = due j) (log : Array Event) :
    Scheduled { s with
      draft := { s.draft with log }
      states := s.states.set user (.ofPending (due' user))
      worklist := if due' user = 0 then user :: s.worklist else s.worklist } none due' where
  nodup := by
    dsimp only
    split
    · exact List.nodup_cons.2 ⟨h.notMem_of_pending hu, h.nodup⟩
    · exact h.nodup
  mem_iff j := by
    rw [States.get_set]
    by_cases hj : j = user
    · subst hj
      rw [if_pos rfl, NodeState.ofPending_eq_ready_iff]
      split <;> simp [*, h.notMem_of_pending hu]
    · have hw : j ∈ (if due' user = 0 then user :: s.worklist else s.worklist) ↔
          j ∈ s.worklist := by
        split <;> simp [hj]
      rw [if_neg hj, hw, h.mem_iff]
  current := by simp
  known j hj := by
    rw [States.get_set] at hj
    refine h.known j fun hnew => ?_
    split at hj
    · next hju => rw [hju, hu] at hnew; cases hnew
    · exact hj hnew
  pending j m hj := by
    rw [States.get_set] at hj
    split at hj
    · next hju =>
      subst hju
      have := NodeState.ofPending_eq_pending_iff.1 hj
      omega
    · next hju => exact hdue j hju ▸ h.pending j m hj
  idle j hj := by
    rw [States.get_set] at hj
    split at hj
    · next hju =>
      subst hju
      rcases hj with hj | hj
      · exact NodeState.ofPending_eq_ready_iff.1 hj
      · exact absurd hj (NodeState.ofPending_ne_processed _)
    · next hju => exact hdue j hju ▸ h.idle j hj

/-- A user that is told of one edge waits for one edge less. -/
theorem ends_operandProcessed {user : Nat}
    (h : s.Scheduled none fun j => due j + if j = user then 1 else 0) :
    Ends E (operandProcessed user) s fun _ s' =>
      s'.Scheduled none due ∧ s.Keeps s' ∧
        ∀ j, s.states.get j = .new → s'.states.get j = .new := by
  have off : ∀ j, j ≠ user → due j = due j + if j = user then 1 else 0 := fun j hj => by
    rw [if_neg hj, Nat.add_zero]
  cases hu : s.states.get user with
  | new =>
    have hrun : operandProcessed user s = .ok () s := by
      rw [operandProcessed, get_bind_run, States.resolveOperand, hu]
      rfl
    unfold Ends
    rw [hrun]
    refine ⟨⟨h.nodup, h.mem_iff, h.current, h.known, fun j k hj => ?_, fun j hj => ?_⟩,
      .refl s, fun _ hj => hj⟩
    · rw [off j (by rintro rfl; rw [hu] at hj; cases hj)]
      exact h.pending j k hj
    · rw [off j (by rintro rfl; simp [hu] at hj)]
      exact h.idle j hj
  | ready =>
    have := h.idle user (.inl hu)
    simp at this
  | processed =>
    have := h.idle user (.inr hu)
    simp at this
  | pending k =>
    have hk := (h.pending user k hu).2
    rw [if_pos rfl] at hk
    subst hk
    obtain ⟨log, hrun⟩ := operandProcessed_run hu
    unfold Ends
    rw [hrun]
    refine ⟨scheduled_setPending h hu off log,
      ⟨⟨fun j => ?_, fun j hj => ?_⟩, rfl, rfl, .refl _, rfl⟩, fun j hj => ?_⟩
    · dsimp only
      rw [States.get_set]
      split
      · next hj => simp [hj, hu, NodeState.ofPending_ne_processed]
      · exact Iff.rfl
    · dsimp only
      rw [States.get_set]
      split
      · exact NodeState.ofPending_ne_new _
      · exact hj
    · dsimp only
      rw [States.get_set, if_neg (by rintro rfl; rw [hu] at hj; cases hj), hj]

theorem ends_tellUsers (users : List Nat) {s : Run} {due : Nat → Nat}
    (h : s.Scheduled none fun j => due j + users.count j) :
    Ends E (users.forM operandProcessed) s fun _ s' =>
      s'.Scheduled none due ∧ s.Keeps s' ∧
        ∀ j, s.states.get j = .new → s'.states.get j = .new := by
  induction users generalizing s with
  | nil => exact .pure ⟨h, .refl s, fun _ hj => hj⟩
  | cons user users ih =>
    have hdue : (fun j => due j + (user :: users).count j) =
        fun j => due j + users.count j + if j = user then 1 else 0 := by
      funext j
      rw [List.count_cons]
      by_cases hj : j = user
      · simp [hj]
        omega
      · simp [hj, Ne.symm hj]
    rw [hdue] at h
    show Ends E (operandProcessed user >>= fun _ => users.forM operandProcessed) s _
    refine .bind (ends_operandProcessed h) ?_
    rintro _ s₁ ⟨h₁, hk₁, hn₁⟩
    refine (ih h₁).mono ?_
    rintro _ s₂ ⟨h₂, hk₂, hn₂⟩
    exact ⟨h₂, hk₁.trans hk₂, fun j hj => hn₂ j (hn₁ j hj)⟩

/-- The current node is off the schedule once it is marked, before its users are told. -/
theorem scheduled_mark {id : Nat} (h : s.Scheduled (some id) due) :
    (s.mark id).Scheduled none due where
  nodup := h.nodup
  mem_iff j := by
    rw [show (s.mark id).worklist = s.worklist from rfl, h.mem_iff, get_mark]
    by_cases hj : j = id
    · simp [hj]
    · simp [hj, Ne.symm hj]
  current := by simp
  known j hj := by
    have hid := h.current id rfl
    refine h.known j fun hnew => ?_
    rw [get_mark, hnew] at hj
    split at hj
    · next hjid => rw [hjid, hid] at hnew; cases hnew
    · simp at hj
  pending j k hj := by
    rw [get_mark] at hj
    split at hj
    · cases hj
    · exact h.pending j k hj
  idle j hj := by
    rw [get_mark] at hj
    split at hj
    · next hjid => rw [hjid]; exact h.idle id (.inl (h.current id rfl))
    · exact h.idle j hj

/-- A processed node is off the schedule, and its users wait for their other edges. -/
theorem ends_finishNode {id : Nat} (hr : s.draft.Ranked rank)
    (ha : s.draft.graph.Attached s.draft.replaced.canon) (h : s.Scheduled (some id) s.waiting)
    (hsrc : s.Sourced) :
    Ends E (finishNode id) s fun _ s' =>
      s'.Scheduled none s'.waiting ∧ s'.Sourced ∧ (s.mark id).Keeps s' := by
  have hid := h.current id rfl
  have hwait : ∀ user, s.waiting user = (s.mark id).waiting user +
      (s.draft.graph.usesAt id).countP (·.user = user) :=
    waiting_eq_mark_add ha (by rw [hid]; simp)
  refine .bind (P := fun _ s' => s.mark id = s') rfl ?_
  rintro _ _ rfl
  refine .bind (P := fun x s' => s.mark id = x ∧ s.mark id = s') ⟨rfl, rfl⟩ ?_
  rintro _ _ ⟨rfl, rfl⟩
  refine .bind (P := fun us s' => us.toList = s.draft.graph.usesAt id ∧ s.mark id = s') ?_ ?_
  · have hlt : id < s.draft.graph.uses.size :=
      ha.size_uses ▸ h.known id (by rw [hid]; simp)
    have hget : s.draft.graph.uses[id]? = some s.draft.graph.uses[id] :=
      Array.getElem?_eq_getElem hlt
    have hok : s.draft.graph.usesOf id = .ok s.draft.graph.uses[id] := by
      simp only [Graph.usesOf, hget]
    refine .ofFault (fun f hf => ?_) fun us hus => ⟨?_, rfl⟩
    · rw [show (s.mark id).draft = s.draft from rfl, hok] at hf
      cases hf
    · rw [show (s.mark id).draft = s.draft from rfl, hok] at hus
      cases hus
      rw [Graph.usesAt, hget]
      rfl
  · rintro us _ ⟨hus, rfl⟩
    have hmark : (s.mark id).Scheduled none fun j =>
        (s.mark id).waiting j + (us.toList.map (·.user)).count j := by
      have hdue : (fun j => (s.mark id).waiting j + (us.toList.map (·.user)).count j) =
          s.waiting := by
        funext j
        rw [hwait, hus, List.count, List.countP_map]
        rfl
      rw [hdue]
      exact scheduled_mark h
    show Ends E (forM us.toList fun u => operandProcessed u.user) _ _
    rw [← List.forM_map]
    refine (ends_tellUsers _ hmark).mono ?_
    rintro _ s' ⟨h', hkeeps, hnew⟩
    rw [hkeeps.waiting_eq hr.descends]
    refine ⟨h', fun j n v hj hn hv => ?_, hkeeps⟩
    rw [hkeeps.canon_eq hr.descends]
    rw [hkeeps.graph] at hn
    refine hkeeps.analyzed _ ?_
    rw [get_mark]
    split
    · simp
    · refine hsrc j n v (fun hj₀ => hj (hnew j ?_)) hn hv
      rw [get_mark, if_neg (by rintro rfl; rw [hid] at hj₀; cases hj₀), hj₀]

end Engine

end Dataflow.Legal
