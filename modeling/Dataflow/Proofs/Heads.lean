import Dataflow.Proofs.Live
import Dataflow.Proofs.Step
import Dataflow.Target.Description

/-!
# Heads of the loop

A run copies the live part of its graph, counts the edges of every node, and then takes one step
after the other. What holds at the first head of the loop and is kept by steps holds at every head.
-/

namespace Dataflow.Legal

namespace Engine

open Run

variable {E : Error → Prop} {T : Target} {config : Config} {fuel : Nat} {g h : Graph} {s s' : Run}
  {ids : List NodeId}

/-- The loop of a run on `g` comes by in state `s`, after visits of the nodes `ids`, the last one
first. -/
inductive Head (T : Target) (config : Config) (g : Graph) : List NodeId → Run → Prop
  | seeded {s s' : Run} : Run.start g = .ok s → prepare config s = .ok () s' →
    Head T config g [] s'
  | visited {ids rest : List NodeId} {id : NodeId} {s s' : Run} : Head T config g ids s →
    s.worklist = id :: rest → step T id { s with worklist := rest } = .ok () s' →
    Head T config g (id :: ids) s'

/-! ### The first head -/

theorem start_spec (hs : Run.start g = .ok s) :
    ∃ root live r, g.root = some root ∧ g.live .ok root = .ok live ∧ live.root = some r ∧
      s = { draft := { graph := live }, root := r } := by
  unfold Run.start at hs
  split at hs
  · cases hs
  · next root hroot =>
    split at hs
    · cases hs
    · next live hlive =>
      cases hs
      obtain ⟨_, r, _, hr, _⟩ := Graph.live_spec hlive
      exact ⟨root, live, r, hroot, hlive, hr, by rw [hr]; rfl⟩

/-- The state in which a run starts is sound: nothing is scheduled yet. -/
theorem start_sound (hs : Run.start g = .ok s) (log : Array Event) :
    ({ s with draft := { s.draft with log } } : Run).Sound none (fun j => j) := by
  obtain ⟨root, live, r, _, hlive, _, rfl⟩ := start_spec hs
  obtain ⟨_, r', _, _, _, _, ⟨k, hk, rfl⟩, _⟩ := Graph.live_spec hlive
  have hplain : ∀ v, ({} : Replacements).next? v = none := fun v =>
    Std.TreeMap.getElem?_emptyc
  have hdescends : ({} : Replacements).Descends (fun j => j) := fun v w hw => by
    rw [hplain] at hw
    cases hw
  have hnew : ∀ j, ({} : States).get j = .new := fun j => by
    show (Option.getD (∅ : Std.TreeMap NodeId NodeState)[j]? .new) = .new
    rw [Std.TreeMap.getElem?_emptyc, Option.getD_none]
  have hattached := (Graph.attached_empty ({} : Replacements).canon).grow hk fun _ _ _ _ v _ =>
    hdescends.canon_self (hplain v)
  refine ⟨⟨⟨fun id n v hn hv => ?_, fun v w hw => ?_, fun v c hc => ?_⟩,
    ⟨hattached.size_uses, hattached.nodup, hattached.mem_iff⟩, fun v w hw => ?_, fun v c hc => ?_⟩,
    ⟨List.nodup_nil, fun id => ?_, nofun, fun id hid => absurd (hnew id) hid, fun id m hm => ?_,
      fun id hid => ?_⟩, fun id n v hid => absurd (hnew id) hid⟩
  · have hlt := hk.operand_lt (Nat.zero_le id) hn hv
    exact ⟨hlt, hlt⟩
  · exact absurd hw (by rw [hplain]; simp)
  · exact absurd hc (by rw [Conversions.get?_empty]; simp)
  · exact absurd hw (by rw [hplain]; simp)
  · exact absurd hc (by rw [Conversions.get?_empty]; simp)
  · simp [hnew id]
  · exact absurd hm (by simp [hnew id])
  · exact absurd hid (by simp [hnew id])

/-- A run in which the nodes below `k` are counted, and nothing else was done. -/
structure SeededTo (k : Nat) (s : Run) : Prop where
  sound : s.Sound none (fun j => j)
  analyzed : ∀ j : Nat, s.states.get j ≠ .new ↔ j < k
  unprocessed : ∀ j, s.states.get j ≠ .processed
  plain : ∀ v, s.draft.replaced.next? v = none
  unconverted : ∀ v, s.draft.conversions.get? v = none

theorem ends_seedFrom (ns : List Node) (k : Nat) (h : SeededTo k s)
    (hns : s.draft.graph.nodes.toList.drop k = ns) :
    Ends E (((ns.map (·.operands.length)).zipIdx k).forM fun (count, id) => setPending id count) s
      fun _ s' => SeededTo s.draft.graph.size s' ∧ s'.draft.graph = s.draft.graph ∧
        s'.root = s.root := by
  induction ns generalizing k s with
  | nil =>
    have hk : s.draft.graph.nodes.size ≤ k := by simpa using List.drop_eq_nil_iff.1 hns
    refine .pure ⟨⟨h.sound, fun j => ?_, h.unprocessed, h.plain, h.unconverted⟩, rfl, rfl⟩
    have hknown : j < k → j < s.draft.graph.nodes.size := fun hj =>
      h.sound.scheduled.known j ((h.analyzed j).2 hj)
    rw [h.analyzed, Graph.size]
    omega
  | cons n ns ih =>
    have hn : s.draft.graph.nodes[k]? = some n := by
      rw [← Array.getElem?_toList, ← List.head?_drop, hns, List.head?_cons]
    have hrest : s.draft.graph.nodes.toList.drop (k + 1) = ns := by
      rw [← List.drop_drop, hns, List.drop_one, List.tail_cons]
    have hd := h.sound.ordered.descends
    have hsources : ∀ v ∈ n.operands,
        s.states.get (s.draft.replaced.canon v).node ≠ .new := fun v hv => by
      rw [hd.canon_self (h.plain v), h.analyzed]
      exact (h.sound.ordered.operands k n v hn hv).1
    have hwaiting : s.waiting k = n.operands.length := by
      rw [waiting_eq hn, List.countP_eq_length]
      intro v _
      simp [waits, States.isProcessed, h.unprocessed]
    have hnew : s.states.get k = .new := by
      have := h.analyzed k
      simpa using this
    rw [List.map_cons, List.zipIdx_cons]
    show Ends E (setPending k n.operands.length >>= fun _ => List.forM _ _) s _
    rw [← hwaiting]
    refine .bind (ends_setPending hnew hn hsources) ?_
    rintro _ s₁ ⟨hsettles, hk, hother⟩
    have h₁ : SeededTo (k + 1) s₁ := by
      refine ⟨h.sound.settles hsettles, fun j => ?_, fun j => ?_, fun v => ?_, fun v => ?_⟩
      · by_cases hj : j = k
        · subst hj
          simp [hk]
        · rw [hother j hj, h.analyzed]
          omega
      · rw [Ne, hsettles.keeps.processed_iff]
        exact h.unprocessed j
      · rw [hsettles.replaced.next?_eq_none]
        exact h.plain v
      · rw [hsettles.conversions]
        exact h.unconverted v
    refine (ih (k + 1) h₁ (by rw [hsettles.graph]; exact hrest)).mono ?_
    rintro _ s₂ ⟨h₂, hg, hr⟩
    rw [hsettles.graph] at h₂ hg
    exact ⟨h₂, hg, hr.trans hsettles.root⟩

/-- At the first head of the loop every node is counted. -/
theorem ends_prepare (config : Config) (hs : Run.start g = .ok s) :
    Ends (fun _ => False) (prepare config) s fun _ s' => SeededTo s'.draft.graph.size s' ∧
      s'.draft.graph = s.draft.graph ∧ s'.root = s.root := by
  have hseed (log : Array Event) : Ends (fun _ => False) seed
      { s with draft := { s.draft with log } } fun _ s' => SeededTo s'.draft.graph.size s' ∧
        s'.draft.graph = s.draft.graph ∧ s'.root = s.root := by
    have hsound := start_sound hs log
    obtain ⟨root, live, r, _, _, _, rfl⟩ := start_spec hs
    refine (ends_seedFrom _ 0 ⟨hsound, fun j => ?_, fun j => ?_, fun v => ?_, fun v => ?_⟩
      rfl).mono ?_
    · simp [States.get]
    · simp [States.get]
    · exact Std.TreeMap.getElem?_emptyc
    · exact Conversions.get?_empty v
    · rintro _ s' ⟨hseeded, hgraph, hroot⟩
      rw [hgraph]
      exact ⟨hseeded, rfl, hroot⟩
  unfold prepare
  split
  · exact hseed _
  · exact hseed _

/-! ### The loop and the end of a run -/

/-- Some step of a run on `g` ends with error `e`. -/
def Stops (T : Target) (config : Config) (g : Graph) (e : Error) : Prop :=
  ∃ ids rest id s s', Head T config g ids s ∧ s.worklist = id :: rest ∧
    step T id { s with worklist := rest } = .error e s'

theorem loop_of_nil (hw : s.worklist = []) : loop T fuel s = .ok () s := by
  cases fuel with
  | zero =>
    rw [loop, get_bind_run, hw]
    rfl
  | succ fuel =>
    rw [loop, get_bind_run, hw]
    rfl

theorem loop_zero_of_cons {id : NodeId} {rest : List NodeId} (hw : s.worklist = id :: rest) :
    loop T 0 s = .error .exhausted s := by
  rw [loop, get_bind_run, hw]
  rfl

theorem loop_succ_of_cons {id : NodeId} {rest : List NodeId} (hw : s.worklist = id :: rest) :
    loop T (fuel + 1) s = (step T id >>= fun _ => loop T fuel) { s with worklist := rest } := by
  rw [loop, get_bind_run, hw]
  rfl

theorem ends_loop (hs : Head T config g ids s) :
    Ends (fun e => e = .exhausted ∨ Stops T config g e) (loop T fuel) s fun _ s' =>
      s'.worklist = [] ∧ ∃ ids', Head T config g ids' s' := by
  induction fuel generalizing s ids with
  | zero =>
    unfold Ends
    cases hw : s.worklist with
    | nil =>
      rw [loop_of_nil hw]
      exact ⟨hw, ids, hs⟩
    | cons id rest =>
      rw [loop_zero_of_cons hw]
      exact .inl rfl
  | succ fuel ih =>
    cases hw : s.worklist with
    | nil =>
      unfold Ends
      rw [loop_of_nil hw]
      exact ⟨hw, ids, hs⟩
    | cons id rest =>
      unfold Ends
      rw [loop_succ_of_cons hw]
      show Ends _ (step T id >>= fun _ => loop T fuel) _ _
      refine .bind (P := fun _ s' => Head T config g (id :: ids) s') ?_ fun _ s' hs' => ih hs'
      unfold Ends
      cases hstep : step T id { s with worklist := rest } with
      | ok _ s' => exact .visited hs hw hstep
      | error e s' => exact .inr ⟨ids, rest, id, s, s', hs, hw, hstep⟩

/-- The loop of a run on `g` comes to its end, in state `s`. -/
def Completes (T : Target) (config : Config) (fuel : Nat) (g : Graph) (s : Run) : Prop :=
  ∃ s₀, Run.start g = .ok s₀ ∧ (prepare config >>= fun _ => loop T fuel) s₀ = .ok () s

theorem ends_prepare_loop (T : Target) (config : Config) (fuel : Nat)
    (hs : Run.start g = .ok s) :
    Ends (fun e => e = .exhausted ∨ Stops T config g e)
      (prepare config >>= fun _ => loop T fuel) s fun _ s' =>
      s'.worklist = [] ∧ ∃ ids, Head T config g ids s' := by
  refine .bind (P := fun _ s' => Head T config g [] s') ?_ fun _ _ hhead => ends_loop hhead
  unfold Ends
  cases hp : prepare config s with
  | ok _ s' => exact .seeded hs hp
  | error e s' => exact ((ends_prepare config hs).of_error hp).elim

theorem Completes.head (hc : Completes T config fuel g s) :
    s.worklist = [] ∧ ∃ ids, Head T config g ids s := by
  obtain ⟨s₀, hs, hrun⟩ := hc
  exact (ends_prepare_loop T config fuel hs).of_ok hrun

/-- A run is its loop and then its end. -/
theorem legalize_eq (T : Target) (config : Config) (fuel : Nat) (hs : Run.start g = .ok s) :
    legalize T config fuel g =
      match (prepare config >>= fun _ => loop T fuel) s with
      | .ok _ s' =>
        match finish T config s' with
        | .ok outcome _ => .ok outcome.graph
        | .error e _ => .error e
      | .error e _ => .error e := by
  have hrun : run T config fuel =
      (prepare config >>= fun _ => loop T fuel) >>= fun _ => finish T config :=
    (bind_assoc _ _ _).symm
  unfold legalize
  rw [hs, hrun]
  show (match EStateM.bind (prepare config >>= fun _ => loop T fuel)
    (fun _ => finish T config) s with | .ok outcome _ => _ | .error e _ => _) = _
  unfold EStateM.bind
  cases (prepare config >>= fun _ => loop T fuel) s with
  | ok _ s' =>
    dsimp only
    cases finish T config s' <;> rfl
  | error e s' => rfl

theorem start_eq_error {e : Error} (hs : Run.start g = .error e) :
    (∀ T config fuel, legalize T config fuel g = .error e) ∧ (e = .noRoot ∨ ∃ f, e = .fault f) := by
  refine ⟨fun T config fuel => by simp only [legalize, hs]; rfl, ?_⟩
  unfold Run.start at hs
  split at hs
  · cases hs
    exact .inl rfl
  · split at hs <;> cases hs
    exact .inr ⟨_, rfl⟩

/-- A run comes to the end of its loop, or ends with an error before. -/
theorem completes_or_stops (T : Target) (config : Config) (fuel : Nat) (g : Graph) :
    (∃ s, Completes T config fuel g s) ∨ ∃ e, legalize T config fuel g = .error e ∧
      (e = .noRoot ∨ (∃ f, e = .fault f) ∨ e = .exhausted ∨ Stops T config g e) := by
  cases hs : Run.start g with
  | error e =>
    obtain ⟨hl, he⟩ := start_eq_error hs
    exact .inr ⟨e, hl T config fuel, he.imp_right .inl⟩
  | ok s₀ =>
    rw [legalize_eq T config fuel hs]
    cases hrun : (prepare config >>= fun _ => loop T fuel) s₀ with
    | ok _ s => exact .inl ⟨s, s₀, hs, hrun⟩
    | error e s =>
      exact .inr ⟨e, rfl, .inr (.inr ((ends_prepare_loop T config fuel hs).of_error hrun))⟩

theorem finish_of_error {e : Error} (he : s.conclude T config = .error e) :
    finish T config s = .error e s := by
  rw [finish, get_bind_run, he]
  rfl

theorem finish_of_ok (hh : s.conclude T config = .ok h) :
    ∃ s', finish T config s = .ok ⟨h, s.visited, s.draft.created⟩ s' := by
  rw [finish, get_bind_run, hh]
  cases hd : config.dumpGraphs <;> exact ⟨_, rfl⟩

/-- What a run that comes to the end of its loop gives. -/
theorem Completes.legalize_eq (hc : Completes T config fuel g s) :
    legalize T config fuel g = s.conclude T config := by
  obtain ⟨s₀, hs, hrun⟩ := hc
  rw [Engine.legalize_eq T config fuel hs, hrun]
  dsimp only
  cases hh : s.conclude T config with
  | error e => rw [finish_of_error hh]
  | ok h =>
    obtain ⟨s', hf⟩ := finish_of_ok hh
    rw [hf]

theorem exists_completes (hl : legalize T config fuel g = .ok h) :
    ∃ s, Completes T config fuel g s ∧ s.conclude T config = .ok h := by
  rcases completes_or_stops T config fuel g with ⟨s, hc⟩ | ⟨e, he, _⟩
  · exact ⟨s, hc, hc.legalize_eq ▸ hl⟩
  · rw [hl] at he
    cases he

end Engine

/-- The state in which a computation ends, if it succeeds. -/
def Engine.final? {α : Type} (x : Engine α) (s : Run) : Option Run :=
  (x >>= fun _ => get).run' s

theorem Engine.final?_eq_some {α : Type} {x : Engine α} {s s' : Run} (h : x.final? s = some s') :
    ∃ a, x s = .ok a s' := by
  unfold final? EStateM.run' EStateM.run at h
  rw [show (x >>= fun _ => get) s = EStateM.bind x (fun _ => get) s from rfl, EStateM.bind] at h
  cases hx : x s with
  | ok a t =>
    rw [hx] at h
    cases h
    exact ⟨a, rfl⟩
  | error e t =>
    rw [hx] at h
    cases h

/-- Twice a 64-bit argument. -/
def doubling : Graph :=
  (((Graph.empty.push { opcode := .argument, results := [.i64], attr := .arg 0 0 }).push
    { opcode := .int .add, operands := [⟨0, 0⟩, ⟨0, 0⟩], results := [.i64] }).push
    { opcode := .output, operands := [⟨1, 0⟩], attr := .widths [64] }).setRoot 2

theorem legalize_doubling :
    ∃ T h, Target.int32.target = .ok T ∧ legalize T { verify := false } 100 doubling = .ok h := by
  have hok : (Target.int32.target.toOption.map fun T =>
      (legalize T { verify := false } 100 doubling).toOption.isSome) = some true := by
    decide +kernel
  obtain ⟨T, hT, hl⟩ := Description.exists_target hok
  obtain ⟨h, hh⟩ := Option.isSome_iff_exists.1 hl
  exact ⟨T, h, hT, Description.eq_ok_of_toOption hh⟩

end Dataflow.Legal
