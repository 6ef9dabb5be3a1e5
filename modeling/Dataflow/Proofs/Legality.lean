import Dataflow.Proofs.Frame
import Dataflow.Proofs.Scheduler

/-!
# Legality of results

A node that was visited and stayed in place reads values of legal types. So once all nodes are
processed, the root reaches legal values only, and checking the result finds nothing.
-/

namespace Dataflow.Legal

open Engine

namespace Run

variable {s s' : Run} {T : Target} {rank rank' : Nat → Nat} {id : Nat} {n : Node}

/-- Node `id` was not converted and did not give way. -/
structure InPlace (s : Run) (T : Target) (id : Nat) (n : Node) : Prop where
  legal : ∀ t ∈ n.results, T.classify t = .legal
  plain : ∀ slot < n.results.length, s.draft.replaced.next? ⟨id, slot⟩ = none
  root : n.results = [] → id = s.root

/-- The operands of node `n` are legal. -/
def ReadsLegal (s : Run) (T : Target) (n : Node) : Prop :=
  ∀ v ∈ n.operands, ∃ t, s.draft.graph.typeOf? (s.draft.replaced.canon v) = some t ∧
    T.classify t = .legal

/-- Processed nodes that are in place read legal values. -/
structure Settled (s : Run) (T : Target) : Prop where
  shaped : ∀ (id : Nat) n, s.draft.graph.nodes[id]? = some n → n.Shaped
  root_known : s.states.get s.root ≠ .new
  root_output : ∃ n, s.draft.graph.nodes[s.root]? = some n ∧ n.results = []
  reads : ∀ (id : Nat) n, s.states.get id = .processed → s.draft.graph.nodes[id]? = some n →
    s.InPlace T id n → s.ReadsLegal T n

theorem ReadsLegal.framed (h : s.ReadsLegal T n) (hf : Framed id s s')
    (hne : ∀ v ∈ n.operands, (s.draft.replaced.canon v).node ≠ id) : s'.ReadsLegal T n := by
  intro v hv
  obtain ⟨t, ht, hlegal⟩ := h v hv
  rw [hf.canon v (hne v hv)]
  refine ⟨t, ?_, hlegal⟩
  obtain ⟨m, hm, hslot⟩ := Option.bind_eq_some_iff.1 ht
  simp [Graph.typeOf?, hf.nodes _ m hm, hslot]

/-- The visited node is read neither by itself nor by processed nodes. -/
theorem source_ne (hs : s.Sound none rank) {rest : List Nat} (hw : s.worklist = id :: rest) {j : Nat}
    (hj : s.states.get j = .ready ∨ s.states.get j = .processed)
    (hn : s.draft.graph.nodes[j]? = some n) {v : Value} (hv : v ∈ n.operands) :
    (s.draft.replaced.canon v).node ≠ id := by
  intro heq
  have hdone := hs.source_processed hj hn hv
  rw [heq, hs.ready_head hw] at hdone
  cases hdone

/-- A node that was visited and is in place was left as it was. -/
theorem reads_visited (hs : s.Sound none rank) {rest : List Nat} (hw : s.worklist = id :: rest)
    (hn : s.draft.graph.nodes[id]? = some n) (hstep : Stepped T id n s s')
    (hplace : s'.InPlace T id n) : s'.ReadsLegal T n := by
  have hf := hstep.framed hs.ordered.descends
  obtain ⟨worklist, visited, s₁, rank₁, hvisited, h₁, hk⟩ := hstep
  cases hvisited with
  | converted t ht hillegal _ =>
    exact absurd (hplace.legal t (by rw [ht]; exact List.mem_singleton_self t)) hillegal
  | kept _ _ hreads =>
    have hreads : s.ReadsLegal T n := hreads
    exact hreads.framed hf fun v hv => source_ne hs hw (.inl (hs.ready_head hw)) hn hv
  | revised i _ hr =>
    rcases hr.cases with ⟨new, m, hres, hnew, _, _, _, _, _, hroot⟩ | ⟨w, s₂, hlen, _, _, hrep⟩
    · have hid : id = s₁.root := (hplace.root hres).trans hk.root
      have hlt := Graph.lt_size_of_getElem? hn
      dsimp only at hroot hnew
      split at hroot
      · rw [hid, hroot] at hlt
        exact absurd hlt (Nat.not_lt_of_le hnew)
      · next hne => exact absurd (hid.trans hroot).symm hne
    · have hplain := hplace.plain 0 (by omega)
      rw [hk.replaced.next?_eq_none] at hplain
      exact absurd rfl ((hrep.next _).1 hplain).1

theorem Settled.stepped (h : s.Settled T) (hs : s.Sound none rank) {rest : List Nat}
    (hw : s.worklist = id :: rest) (hn : s.draft.graph.nodes[id]? = some n)
    (hstep : Stepped T id n s s')
    (hnew : ∀ (j : Nat) m, s.draft.graph.size ≤ j → s'.draft.graph.nodes[j]? = some m → m.Shaped) :
    s'.Settled T := by
  have hf := hstep.framed hs.ordered.descends
  have hback : ∀ (j : Nat) m, j < s.draft.graph.size → s'.draft.graph.nodes[j]? = some m →
      s.draft.graph.nodes[j]? = some m := fun j m hj hm => by
    obtain ⟨m', hm'⟩ : ∃ m', s.draft.graph.nodes[j]? = some m' :=
      ⟨_, Array.getElem?_eq_getElem hj⟩
    rw [hf.nodes j m' hm'] at hm
    rw [hm', hm]
  refine ⟨fun j m hm => ?_, ?_, ?_, fun j m hj hm hplace => ?_⟩
  · by_cases hj : j < s.draft.graph.size
    · exact h.shaped j m (hback j m hj hm)
    · exact hnew j m (Nat.le_of_not_lt hj) hm
  · rcases hstep.root with hroot | ⟨_, _, hknown, _⟩
    · rw [hroot]
      exact hstep.analyzed h.root_known
    · exact hknown
  · rcases hstep.root with hroot | ⟨_, _, _, m, hm, _, hres⟩
    · obtain ⟨m, hm, hres⟩ := h.root_output
      exact ⟨m, hroot ▸ hf.nodes _ m hm, hres⟩
    · exact ⟨m, hm, hres⟩
  · rcases (hstep.processed_iff j).1 hj with rfl | hold
    · rw [hf.nodes j n hn] at hm
      cases hm
      exact reads_visited hs hw hn hstep hplace
    · have hlt : j < s.draft.graph.size := hs.scheduled.known j (by rw [hold]; simp)
      have hm' := hback j m hlt hm
      have hne : j ≠ id := fun heq => by
        rw [heq, hs.ready_head hw] at hold
        cases hold
      refine (h.reads j m hold hm' ⟨hplace.legal, fun slot hslot => ?_, fun hres => ?_⟩).framed hf ?_
      · exact (hf.next ⟨j, slot⟩ hne).1 (hplace.plain slot hslot)
      · rcases hstep.root with hroot | ⟨_, hge, _⟩
        · rw [← hroot]
          exact hplace.root hres
        · have := hplace.root hres
          omega
      · exact fun v hv => source_ne hs hw (.inr hold) hm' hv

/-- When everything is processed, the root reaches nodes in place only. -/
theorem Settled.reached (h : s.Settled T) (hs : s.Sound none rank) (hw : s.worklist = [])
    (hr : s.draft.graph.Reached s.draft.replaced.follow s.root id) :
    s.states.get id = .processed ∧
      ∃ n, s.draft.graph.nodes[id]? = some n ∧ s.InPlace T id n := by
  have hd := hs.ordered.descends
  induction hr with
  | root =>
    obtain ⟨n, hn, hres⟩ := h.root_output
    exact ⟨hs.processed_of_idle hw _ h.root_known, n, hn, by simp [hres], by simp [hres],
      fun _ => rfl⟩
  | @operand id n v w _ hn hv hw' ih =>
    rw [hd.follow_eq] at hw'
    cases hw'
    obtain ⟨hdone, m, hm, hplace⟩ := ih
    rw [hn] at hm
    cases hm
    obtain ⟨t, ht, hlegal⟩ := h.reads id n hdone hn hplace v hv
    obtain ⟨m, hm, hslot⟩ := Option.bind_eq_some_iff.1 ht
    have hone : m.results.length = 1 := (h.shaped _ m hm).resolve_right fun hout => by
      rw [hout.2] at hslot
      cases hslot
    obtain ⟨t', ht'⟩ := List.length_eq_one_iff.1 hone
    have hzero : (s.draft.replaced.canon v).slot = 0 := by
      have := (List.getElem?_eq_some_iff.1 hslot).1
      omega
    rw [ht', hzero] at hslot
    cases hslot
    refine ⟨hs.processed_of_idle hw _ (hs.sourced id n v (by rw [hdone]; simp) hn hv), m, hm, ?_, ?_,
      by simp [ht']⟩
    · simpa [ht'] using hlegal
    · intro slot hslot
      have hplain := hd.next?_canon v
      rwa [show s.draft.replaced.canon v = ⟨(s.draft.replaced.canon v).node, slot⟩ by
        rw [show slot = (s.draft.replaced.canon v).slot by omega]] at hplain

theorem checkFrom_eq_ok {root : Nat} (hfollow : ∀ v, ∃ w, s.draft.replaced.follow v = .ok w)
    (hall : ∀ id, s.draft.graph.Reached s.draft.replaced.follow root id →
      s.states.get id = .processed ∧ ∃ n, s.draft.graph.nodes[id]? = some n ∧ s.InPlace T id n)
    {fuel : Nat} {stack : List Nat} {seen : Array Bool}
    (hstack : ∀ id ∈ stack, s.draft.graph.Reached s.draft.replaced.follow root id) :
    s.checkFrom T fuel stack seen = .ok () := by
  fun_induction checkFrom s T fuel stack seen with
  | case1 => rfl
  | case2 => rfl
  | case3 fuel id stack seen hseen ih =>
    exact ih fun j hj => hstack j (List.mem_cons_of_mem id hj)
  | case4 fuel id stack seen hseen hstate =>
    have hdone := (hall id (hstack id List.mem_cons_self)).1
    simp [States.isProcessed, hdone] at hstate
  | case5 fuel id stack seen hseen hstate f hnode =>
    obtain ⟨_, n, hn, _⟩ := hall id (hstack id List.mem_cons_self)
    rw [Graph.node_of_getElem? hn] at hnode
    cases hnode
  | case6 fuel id stack seen hseen hstate n hnode t hfind =>
    obtain ⟨_, m, hm, hplace⟩ := hall id (hstack id List.mem_cons_self)
    rw [Graph.node_eq_ok hnode] at hm
    cases hm
    have hillegal := List.find?_some hfind
    simp [hplace.legal t (List.mem_of_find?_eq_some hfind)] at hillegal
  | case7 fuel id stack seen hseen hstate n hnode hfind f hmap =>
    obtain ⟨v, _, hv⟩ := mapM_eq_error hmap
    obtain ⟨w, hw⟩ := hfollow v
    rw [hw] at hv
    cases hv
  | case8 fuel id stack seen hseen hstate n hnode hfind operands hmap ih =>
    refine ih fun j hj => ?_
    rcases List.mem_append.1 hj with hj | hj
    · rw [List.mem_reverse, List.mem_map] at hj
      obtain ⟨w, hw, rfl⟩ := hj
      obtain ⟨i, hi⟩ := List.getElem?_of_mem hw
      obtain ⟨v, hv, hvw⟩ := (mapM_eq_ok hmap).2 i w hi
      exact .operand (hstack id List.mem_cons_self) (Graph.node_eq_ok hnode)
        (List.mem_of_getElem? hv) hvw
    · exact hstack j (List.mem_cons_of_mem id hj)

end Run

namespace Engine

open Run

variable {T : Target} {config : Config} {fuel : Nat} {g h : Graph} {ids : List NodeId} {s : Run}
  {root : NodeId}

/-- The root of a graph is an output without results; all other nodes have one result. -/
structure Rooted (g : Graph) (root : NodeId) : Prop where
  root_eq : g.root = some root
  output : ∃ n, g.nodes[root]? = some n ∧ n.opcode = .output ∧ n.results = []
  one : ∀ (id : Nat) n, g.nodes[id]? = some n → id ≠ root → n.results.length = 1

theorem Rooted.shaped (hg : Rooted g root) {id : Nat} {n : Node} (hn : g.nodes[id]? = some n) :
    n.Shaped := by
  by_cases hid : id = root
  · obtain ⟨m, hm, hop, hres⟩ := hg.output
    rw [← hid, hn] at hm
    cases hm
    exact .inr ⟨hop, hres⟩
  · exact .inl (hg.one id n hn hid)

theorem Rooted.settled_start (hg : Rooted g root) {s₀ : Run} (hs : Run.start g = .ok s₀)
    (hp : prepare config s₀ = .ok () s) : s.Settled T := by
  obtain ⟨hseeded, hgraph, hroot⟩ := (ends_prepare config hs).of_ok hp
  obtain ⟨root', live, r, hroot', hlive, hr, rfl⟩ := start_spec hs
  obtain ⟨ids, r', hsize, hr', hids, _, _, hstands⟩ := Graph.live_spec hlive
  rw [hg.root_eq] at hroot'
  cases hroot'
  rw [hr] at hr'
  cases hr'
  dsimp only at hgraph hroot
  have hr_lt : r < live.size := hsize ▸ (List.getElem?_eq_some_iff.1 hids).1
  refine ⟨fun k n hn => ?_, ?_, ?_, fun id n hid => absurd hid (hseeded.unprocessed id)⟩
  · rw [hgraph] at hn
    have hk : k < ids.length := hsize ▸ Graph.lt_size_of_getElem? hn
    obtain ⟨m, hm, hop, hres, _⟩ := (hstands k _ n (List.getElem?_eq_getElem hk) hn).node
    unfold Node.Shaped
    rw [hop, hres]
    exact hg.shaped hm
  · rw [hroot, hseeded.analyzed, hgraph]
    exact hr_lt
  · obtain ⟨n, hn⟩ : ∃ n, live.nodes[r]? = some n := ⟨_, Array.getElem?_eq_getElem hr_lt⟩
    obtain ⟨m, hm, _, hres, _⟩ := (hstands r _ n hids hn).node
    obtain ⟨m', hm', _, hres'⟩ := hg.output
    rw [hm] at hm'
    cases hm'
    rw [hroot, hgraph]
    exact ⟨n, hn, hres.trans hres'⟩

theorem Head.settled (hg : Rooted g root) (hs : Head T config g ids s) : s.Settled T := by
  induction hs with
  | seeded hs hp => exact hg.settled_start hs hp
  | @visited ids rest id s s' hhead hw hstep ih =>
    obtain ⟨⟨rank, hsound⟩, _⟩ := hhead.sound
    obtain ⟨n, hn⟩ : ∃ n, s.draft.graph.nodes[id]? = some n :=
      ⟨_, Array.getElem?_eq_getElem (hsound.scheduled.known id (by rw [hsound.ready_head hw]; simp))⟩
    obtain ⟨_, hstepped, hnew⟩ := (ends_step (E := fun _ => True) T hsound hw hn
      (ih.shaped id n hn) fun _ _ => trivial).of_ok hstep
    exact ih.stepped hsound hw hn hstepped hnew

/-- A step of a run visits the next node of the worklist. -/
theorem Head.next (hg : Rooted g root) (hs : Head T config g ids s) {id : Nat} {rest : List Nat}
    (hw : s.worklist = id :: rest) : ∃ n rank, s.draft.graph.nodes[id]? = some n ∧
      s.Sound none rank ∧
      ∀ {E : Error → Prop}, (∀ e, Fails T id n s.draft e → E e) →
        Ends E (step T id) { s with worklist := rest } fun _ s' => Stepped T id n s s' := by
  obtain ⟨⟨rank, hsound⟩, _⟩ := hs.sound
  obtain ⟨n, hn⟩ : ∃ n, s.draft.graph.nodes[id]? = some n :=
    ⟨_, Array.getElem?_eq_getElem (hsound.scheduled.known id (by rw [hsound.ready_head hw]; simp))⟩
  refine ⟨n, rank, hn, hsound, fun hE => ?_⟩
  exact (ends_step T hsound hw hn ((hs.settled hg).shaped id n hn) hE).mono fun _ _ h => h.2.1

/-- At the end of the loop, the root reaches processed nodes of legal types only. -/
theorem Completes.reached (hg : Rooted g root) (hc : Completes T config fuel g s) {id : Nat}
    (hr : s.draft.graph.Reached s.draft.replaced.follow s.root id) :
    s.states.get id = .processed ∧
      ∃ n, s.draft.graph.nodes[id]? = some n ∧ s.InPlace T id n := by
  obtain ⟨hw, ids, hhead⟩ := hc.head
  obtain ⟨⟨rank, hsound⟩, _⟩ := hhead.sound
  exact (hhead.settled hg).reached hsound hw hr

theorem Completes.check_eq_ok (hg : Rooted g root) (hc : Completes T config fuel g s) :
    s.check T = .ok () := by
  obtain ⟨_, ids, hhead⟩ := hc.head
  obtain ⟨⟨rank, hsound⟩, _⟩ := hhead.sound
  refine checkFrom_eq_ok (fun v => ⟨_, hsound.ordered.descends.follow_eq v⟩)
    (fun id hr => hc.reached hg hr) fun id hid => ?_
  rw [List.mem_singleton.1 hid]
  exact .root

/-- Without a check, the result of a run on a graph of one output is legal all the same: its nodes
produce values of legal types, and everything that the final root reaches was processed. A check
accepts the same result, and never complains of unprocessed nodes or illegal types. -/
theorem legal_without_check (T : Target) (config : Config) (fuel : Nat) {g : Graph} {root : NodeId}
    (hg : Rooted g root) :
    (∀ h, legalize T { config with verify := false } fuel g = .ok h →
      (∀ (id : Nat) n, h.nodes[id]? = some n → ∀ t ∈ n.results, T.classify t = .legal) ∧
      (∃ s, Completes T { config with verify := false } fuel g s ∧ s.result = .ok h ∧
        ∀ id, s.draft.graph.Reached s.draft.replaced.follow s.root id →
          s.states.get id = .processed) ∧
      legalize T { config with verify := true } fuel g = .ok h) ∧
    (∀ id, legalize T config fuel g ≠ .error (.unprocessed id)) ∧
    ∀ id op t, legalize T config fuel g ≠ .error (.illegalType id op t) := by
  have hcheck (s : Run) (config : Config) (hc : Completes T config fuel g s) :
      s.conclude T config = s.result.mapError .fault := by
    unfold Run.conclude
    rw [hc.check_eq_ok hg]
    split <;> rfl
  have hcomplains (e : Error) (he : Internal e) : legalize T config fuel g ≠ .error e := fun hl => by
    obtain ⟨s, hc, hs⟩ := check_of_internal hl he
    rw [hc.check_eq_ok hg] at hs
    cases hs
  refine ⟨fun h hl => ?_, fun id => hcomplains _ trivial, fun id op t => hcomplains _ trivial⟩
  obtain ⟨s, hc, hconclude⟩ := exists_completes hl
  rw [hcheck s _ hc] at hconclude
  have hresult : s.result = .ok h := by
    cases hr : s.result with
    | error f => rw [hr] at hconclude; cases hconclude
    | ok h' =>
      rw [hr] at hconclude
      cases hconclude
      rfl
  refine ⟨fun k n hn => ?_, ⟨s, hc, hresult, fun id hr => (hc.reached hg hr).1⟩, ?_⟩
  · obtain ⟨ids, r, hsize, _, _, hids, _, hstands⟩ := Graph.live_spec hresult
    have hk : k < ids.length := hsize ▸ Graph.lt_size_of_getElem? hn
    obtain ⟨m, hm, _, hres, _⟩ := (hstands k _ n (List.getElem?_eq_getElem hk) hn).node
    obtain ⟨_, m', hm', hplace⟩ := hc.reached hg (hids _ (List.getElem_mem hk))
    rw [hm] at hm'
    cases hm'
    rw [hres]
    exact hplace.legal
  · have hc' : Completes T { config with verify := true } fuel g s := hc
    rw [hc'.legalize_eq, hcheck s _ hc', hresult]
    rfl

theorem rooted_doubling : Rooted doubling 2 := by
  refine ⟨rfl, ⟨_, rfl, rfl, rfl⟩, fun id n hn hid => ?_⟩
  have hlt : id < 3 := Graph.lt_size_of_getElem? hn
  obtain rfl | rfl : id = 0 ∨ id = 1 := by
    have : id ≠ 2 := hid
    omega
  all_goals
    cases hn
    rfl

theorem legal_without_check_doubling :
    Rooted doubling 2 ∧ ∃ T h, Target.int32.target = .ok T ∧
      legalize T { verify := false } 100 doubling = .ok h ∧
      (∀ (id : Nat) n, h.nodes[id]? = some n → ∀ t ∈ n.results, T.classify t = .legal) ∧
      legalize T { verify := true } 100 doubling = .ok h := by
  obtain ⟨T, h, hT, hl⟩ := legalize_doubling
  obtain ⟨hlegal, _, hverify⟩ := (legal_without_check T {} 100 rooted_doubling).1 h hl
  exact ⟨rooted_doubling, T, h, hT, hl, hlegal, hverify⟩

end Engine

end Dataflow.Legal
