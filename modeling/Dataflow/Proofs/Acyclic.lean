import Dataflow.Proofs.Passage
import Dataflow.Proofs.PostOrder
import Dataflow.Proofs.Scheduler

/-!
# No circles

Numbers of nodes stop being an order as soon as a value gives way to a later one. Ranks take their
place: the nodes of a rule find room just below the node it rewrites. At every state that a run
passes through, operands and redirections lead to lower ranks, so neither runs in a circle.
-/

namespace Dataflow.Legal

open Engine

/-! ### Ranks -/

namespace Draft

variable {d d' : Draft} {rank : Nat → Nat}

/-- Node `id` reads node `source`, through redirections. -/
def Reads (d : Draft) (id source : Nat) : Prop :=
  ∃ n v w, d.graph.nodes[id]? = some n ∧ v ∈ n.operands ∧ d.replaced.follow v = .ok w ∧
    w.node = source

/-- Neither redirections nor canonical edges run in a circle. Every chain of redirections has an
end, and what a value is redirected to does not depend on it. -/
structure Acyclic (d : Draft) : Prop where
  redirections : ∀ v, ¬ Relation.TransGen (fun v w => d.replaced.next? v = some w) v v
  resolves : ∀ v, ∃ w, d.replaced.follow v = .ok w
  dependencies : ∀ id, ¬ Relation.TransGen d.Reads id id
  independent : ∀ v w, d.replaced.next? v = some w →
    w.node ≠ v.node ∧ ¬ Relation.TransGen d.Reads w.node v.node

/-- Operands and redirections lead to nodes of lower rank. -/
structure Graded (d : Draft) (rank : Nat → Nat) : Prop where
  operands : ∀ (id : Nat) n v, d.graph.nodes[id]? = some n → v ∈ n.operands →
    rank v.node < rank id
  descends : d.replaced.Descends rank

theorem Ordered.graded (h : d.Ordered rank) : d.Graded rank :=
  ⟨fun id n v hn hv => (h.operands id n v hn hv).2, h.descends⟩

namespace Graded

theorem reads_lt (h : d.Graded rank) {id source : Nat} (hr : d.Reads id source) :
    rank source < rank id := by
  obtain ⟨n, v, w, hn, hv, hw, rfl⟩ := hr
  rw [h.descends.follow_eq] at hw
  cases hw
  exact Nat.lt_of_le_of_lt (h.descends.rank_canon v) (h.operands id n v hn hv)

theorem graph_descends (h : d.Graded rank) (root : Nat) :
    d.graph.Descends d.replaced.follow root rank := by
  intro id n v w _ hn hv hw
  exact h.reads_lt ⟨n, v, w, hn, hv, hw, rfl⟩

theorem depends_lt (h : d.Graded rank) {id source : Nat} (hr : Relation.TransGen d.Reads id source) :
    rank source < rank id := by
  induction hr with
  | single hr => exact h.reads_lt hr
  | tail _ hr ih => exact Nat.lt_trans (h.reads_lt hr) ih

theorem acyclic (h : d.Graded rank) : d.Acyclic where
  redirections v hv := by
    have hlt {u w : Value} (hr : Relation.TransGen (fun v w => d.replaced.next? v = some w) u w) :
        rank w.node < rank u.node := by
      induction hr with
      | single hr => exact h.descends _ _ hr
      | tail _ hr ih => exact Nat.lt_trans (h.descends _ _ hr) ih
    exact Nat.lt_irrefl _ (hlt hv)
  resolves v := ⟨_, h.descends.follow_eq v⟩
  dependencies id hid := Nat.lt_irrefl _ (h.depends_lt hid)
  independent v w hw := by
    have hlt := h.descends v w hw
    refine ⟨fun heq => ?_, fun hd => ?_⟩
    · rw [heq] at hlt
      exact Nat.lt_irrefl _ hlt
    · exact Nat.lt_asymm hlt (h.depends_lt hd)

/-- Compressing chains of redirections. -/
theorem shortens (h : d.Graded rank) (hn : d'.graph.nodes = d.graph.nodes)
    (hr : d.replaced.Shortens d'.replaced) : d'.Graded rank :=
  ⟨by rw [hn]; exact h.operands, h.descends.shortens hr⟩

end Graded

/-- Room below node `id` does not change the order of redirections. -/
theorem Ordered.descends_makeRoom (h : d.Ordered rank) (id room : Nat) :
    d.replaced.Descends (makeRoom rank id d.graph.size room) := fun v w hw => by
  obtain ⟨hv, hw, hlt⟩ := h.next v w hw
  exact (makeRoom_lt_iff hw hv).2 hlt

end Draft

/-! ### Safe actions -/

namespace Engine.Plan

variable {α β : Type} {x y : Engine α} {s : Run} {rank : Nat → Nat} {id : Nat}

/-- The ranks are right in every state that the action passes through. -/
def Keeps (p : Plan x) (rank : Nat → Nat) (s : Run) : Prop :=
  ∀ s', p.Passes s s' → s'.draft.Graded rank

/-- Some ranks are right in every state that the action passes through. -/
def Safe (p : Plan x) (s : Run) : Prop :=
  ∀ s', p.Passes s s' → ∃ rank, s'.draft.Graded rank

theorem Keeps.safe {p : Plan x} (hp : p.Keeps rank s) : p.Safe s := fun s' h => ⟨rank, hp s' h⟩

theorem Keeps.bind {f : α → Engine β} {p : Plan x} {q : ∀ a, Plan (f a)} (hp : p.Keeps rank s)
    (hq : ∀ a s₁, x s = .ok a s₁ → s₁.draft.Graded rank → (q a).Keeps rank s₁) :
    (Plan.bind p q).Keeps rank s := by
  rintro s' (h | ⟨a, s₁, hx, h⟩)
  · exact hp s' h
  · exact hq a s₁ hx (hp s₁ (p.passes_of_ok hx)) s' h

theorem Keeps.ite {c : Prop} [inst : Decidable c] {p : Plan x} {q : Plan y} (hp : p.Keeps rank s)
    (hq : q.Keeps rank s) : (Plan.ite (c := c) p q).Keeps rank s := by
  cases inst with
  | isTrue h => exact hp
  | isFalse h => exact hq

theorem Keeps.forM {f : α → Engine PUnit} {p : ∀ a, Plan (f a)} (as : List α)
    (hs : s.draft.Graded rank)
    (hp : ∀ a s, s.draft.Graded rank → (p a).Keeps rank s) : (Plan.forM p as).Keeps rank s := by
  induction as generalizing s with
  | nil =>
    rintro _ rfl
    exact hs
  | cons a as ih => exact .bind (hp a s hs) fun _ s₁ _ hs₁ => ih hs₁

theorem Mild.keeps {p : Plan x} (hp : p.Mild) (hs : s.draft.Graded rank) : p.Keeps rank s :=
  fun s' h => hs.shortens (hp s s' h).nodes (hp s s' h).replaced

theorem Mild.safe {p : Plan x} (hp : p.Mild) (hs : s.draft.Graded rank) : p.Safe s :=
  (hp.keeps hs).safe

theorem Safe.bind {f : α → Engine β} {p : Plan x} {q : ∀ a, Plan (f a)} (hp : p.Safe s)
    (hq : ∀ a s₁, x s = .ok a s₁ → (q a).Safe s₁) : (Plan.bind p q).Safe s := by
  rintro s' (h | ⟨a, s₁, hx, h⟩)
  · exact hp s' h
  · exact hq a s₁ hx s' h

theorem Safe.bind_mild {f : α → Engine β} {p : Plan x} {q : ∀ a, Plan (f a)} (hp : p.Safe s)
    (hq : ∀ a, (q a).Mild) : (Plan.bind p q).Safe s :=
  hp.bind fun a s₁ hx => by
    obtain ⟨rank, hs₁⟩ := hp s₁ (p.passes_of_ok hx)
    exact (hq a).safe hs₁

theorem Safe.ite {c : Prop} [inst : Decidable c] {p : Plan x} {q : Plan y} (hp : c → p.Safe s)
    (hq : ¬ c → q.Safe s) : (Plan.ite (c := c) p q).Safe s := by
  cases inst with
  | isTrue h => exact hp h
  | isFalse h => exact hq h

/-! ### Replacements -/

/-- A value is redirected to a value of lower rank. -/
theorem keeps_redirect (hs : s.draft.Graded rank) {v w : Value}
    (hw : rank w.node < rank v.node) : (Plan.redirect v w).Keeps rank s := by
  refine .bind (mild_get.keeps hs) fun s₁ _ hget _ => ?_
  cases hget
  refine .bind ((mild_edit (Edit.still_ofFault _)).keeps hs) fun replaced s₂ hok _ => ?_
  obtain ⟨hred, rfl⟩ := (Ends.ofFault (E := fun _ => True) (Q := fun r s' =>
    Replacements.redirect _ _ _ = .ok r ∧ s = s') (fun _ _ => trivial)
    fun _ h => ⟨h, rfl⟩).of_ok hok
  have hnew : replaced.Descends rank := fun a b hab => by
    rw [Replacements.next?_redirect hred] at hab
    split at hab
    · next ha =>
      cases hab
      exact ha ▸ hw
    · next ha =>
      change (s.draft.replaced.erase v).2.next? a = some b at hab
      rw [Replacements.next?_erase, if_neg ha] at hab
      exact hs.descends a b hab
  have hupdate (conversions : Conversions) : (Plan.update fun s : Run =>
      { s with draft := { s.draft with conversions, replaced } }).Keeps rank s := by
    rintro _ (rfl | rfl)
    · exact hs
    · exact ⟨hs.operands, hnew⟩
  refine .bind (hupdate _) fun _ s₃ _ hs₃ => Mild.keeps ?_ hs₃
  exact mild_bind (mild_take fun _ => ⟨rfl, .refl _⟩) fun _ => mild_bind (mild_report _) fun _ =>
    mild_pure _

/-- A value gives way to a value of lower rank. -/
theorem keeps_replaceValue (hs : s.draft.Graded rank) {v w : Value}
    (hw : rank w.node < rank v.node) : (Plan.replaceValue v w).Keeps rank s := by
  refine .bind ((mild_edit (Edit.still_canonical w)).keeps hs) fun u s₁ hu hs₁ => ?_
  obtain ⟨rfl, _⟩ := (ends_canonical (E := fun _ => True) hs.descends w).of_ok hu
  have hu : rank (s.draft.replaced.canon w).node < rank v.node :=
    Nat.lt_of_le_of_lt (hs.descends.rank_canon w) hw
  refine .ite ((mild_pure _).keeps hs₁) (.ite ?_ ?_)
  · exact .bind ((mild_throw _).keeps hs₁) nofun
  refine .bind ((mild_analyze _).keeps hs₁) fun _ s₂ _ hs₂ => ?_
  refine .bind (keeps_redirect hs₂ hu) fun _ s₃ _ hs₃ => Mild.keeps ?_ hs₃
  exact mild_forM (fun _ => mild_revisitUser _) _

/-- A node gives way to a node of lower rank. -/
theorem keeps_replaceNode (hs : s.draft.Graded rank) {new : Nat} (hnew : rank new < rank id) :
    (Plan.replaceNode id new).Keeps rank s := by
  refine .bind ((mild_edit (Edit.still_node _)).keeps hs) fun n s₁ _ hs₁ => ?_
  refine .bind ((mild_edit (Edit.still_node _)).keeps hs₁) fun m s₂ _ hs₂ => ?_
  refine .ite (.bind ((mild_throw _).keeps hs₂) nofun) ?_
  refine .bind (.forM _ hs₂ fun slot s hs => keeps_replaceValue hs hnew) fun _ s₃ _ hs₃ => ?_
  refine Mild.keeps (mild_bind (mild_analyze _) fun _ => mild_bind mild_get fun _ => ?_) hs₃
  exact mild_ite (mild_bind (mild_report _) fun _ => mild_update fun _ => ⟨rfl, .refl _⟩)
    (mild_pure _)

theorem keeps_succeed (hs : s.draft.Graded rank) {op : Opcode} {next : Successor}
    (hlow : Tracked.all (s.draft.Below rank id) next) : (Plan.succeed id op next).Keeps rank s := by
  cases next with
  | node new => exact .ite ((mild_pure _).keeps hs) (keeps_replaceNode hs hlow.2)
  | value w =>
    refine .bind ((mild_edit (Edit.still_node _)).keeps hs) fun n s₁ _ hs₁ => ?_
    exact .ite (.bind ((mild_throw _).keeps hs₁) nofun) (keeps_replaceValue hs₁ hlow.2)

/-! ### Visits -/

/-- The nodes of a rule find room below the visited node, at every point of it. -/
theorem safe_rule [Tracked α] {x : Edit α} (h : s.Sound (some id) rank)
    (hflow : ∀ S : Scope, S.id = id → S.Flows x) : (Plan.edit x).Safe s := by
  rintro _ ⟨d, hd, rfl⟩
  obtain ⟨hg, hg'⟩ := hd.grows
  have hf := hflow (s.draft.scope rank _ h.lt_size) rfl s.draft (h.ordered.closed h.lt_size)
    (Nat.le_refl _)
  have hclosed : (s.draft.scope rank (x.run s.draft).draft.graph.size h.lt_size).Closed
      (x.run s.draft).draft := by
    cases hr : x.run s.draft with
    | ok a d' =>
      rw [hr] at hf
      exact hf.1
    | error e d' =>
      rw [hr] at hf
      exact hf.1
  have hend := h.ordered.grows h.lt_size (x.grows s.draft) hclosed
  exact ⟨_, fun i n v hn hv => (hend.operands i n v (hg'.graph.getElem? hn) hv).2,
    (h.ordered.descends_makeRoom id _).shortens hg.replaced⟩

theorem quiet_report {e : Event} {s' : Run} (h : Engine.report e s = .ok () s') : s.Quiet s' := by
  cases h
  exact ⟨rfl, rfl, .refl _, rfl, rfl, rfl⟩

theorem safe_convertResult (h : s.Sound (some id) rank) (T : Target) (op : Opcode) (slot : Nat)
    (t : ValueType) : (Plan.convertResult T id op slot t).Safe s := by
  refine ((mild_report _).safe h.ordered.graded).bind fun _ s₁ hs₁ => ?_
  have h₁ := h.settles (quiet_report hs₁).settles
  have hrule (rule : ResultRule) (hr : resultRule? (T.classify t) op = some rule) :
      (Plan.bind (.edit (rule T id slot)) fun parts =>
        .recordParts (T.classify t) ⟨id, slot⟩ parts).Safe s₁ :=
    (safe_rule h₁ fun S hS => hS ▸ Scope.flows_resultRule hr T slot).bind_mild
      fun _ => mild_recordParts _ _ _
  generalize resultRule? (T.classify t) op = r at hrule
  cases r with
  | none => exact (mild_throw _).safe h₁.ordered.graded
  | some rule => exact hrule rule rfl

theorem safe_convertResults (T : Target) (op : Opcode) (ts : List ValueType) (slot : Nat) {s : Run}
    {rank : Nat → Nat} (h : s.Sound (some id) rank) :
    (Plan.convertResults T id op slot ts).Safe s := by
  induction ts generalizing slot s rank with
  | nil => exact (mild_pure _).safe h.ordered.graded
  | cons t ts ih =>
    refine .ite (fun _ => ih (slot + 1) h) fun _ => ?_
    refine (safe_convertResult h T op slot t).bind fun _ s₁ hs₁ => ?_
    obtain ⟨_, ⟨rank₁, h₁⟩, _⟩ :=
      (ends_convertResult (E := fun _ => True) h T op slot t fun _ _ => trivial).of_ok hs₁
    exact (ih (slot + 1) h₁).bind_mild fun _ => mild_pure _

theorem safe_reviseOperand (T : Target) {n : Node} (is : List Nat) {s : Run}
    (h : s.Sound (some id) rank) (hn : s.draft.graph.nodes[id]? = some n)
    (his : ∀ i ∈ is, i < n.operands.length) :
    (Plan.reviseOperand T id n.opcode is).Safe s := by
  induction is generalizing s with
  | nil => exact (mild_pure _).safe h.ordered.graded
  | cons i is ih =>
    refine ((mild_edit (Edit.still_operand id i)).safe h.ordered.graded).bind fun v s₁ hs₁ => ?_
    obtain ⟨hq₁, _⟩ := (ends_operand (E := fun _ => True) h.ordered.descends hn
      (List.getElem?_eq_getElem (his i List.mem_cons_self))).of_ok hs₁
    have h₁ := h.settles hq₁.settles
    have hn₁ : s₁.draft.graph.nodes[id]? = some n := by rw [hq₁.graph, hn]
    refine ((mild_edit (Edit.still_typeOf v)).safe h₁.ordered.graded).bind fun t s₂ hs₂ => ?_
    obtain ⟨rfl, _⟩ := (ends_typeOf (E := fun _ => True) v fun _ => trivial).of_ok hs₂
    refine .ite (fun _ => ih h₁ hn₁ fun j hj => his j (List.mem_cons_of_mem i hj)) fun _ => ?_
    refine ((mild_report _).safe h₁.ordered.graded).bind fun _ s₂ hs₂ => ?_
    have h₂ := h₁.settles (quiet_report hs₂).settles
    have hrule (rule : OperandRule) (hr : operandRule? (T.classify t) n.opcode = some rule) :
        (Plan.bind (.edit (rule T id i)) fun next => .succeed id n.opcode next).Safe s₂ := by
      have hflow (S : Scope) (hS : S.id = id) := hS ▸ Scope.flows_operandRule hr T i
      refine (safe_rule h₂ hflow).bind fun next s₃ hs₃ => ?_
      obtain ⟨_, rank₃, h₃, hlow, _⟩ := (ends_rule (E := fun _ => True) (Run.Quiet.refl _) h₂ hflow
        fun _ _ _ _ _ _ => trivial).of_ok hs₃
      exact (keeps_succeed h₃.ordered.graded hlow).safe
    generalize operandRule? (T.classify t) n.opcode = r at hrule
    cases r with
    | none => exact (mild_throw _).safe h₂.ordered.graded
    | some rule => exact hrule rule rfl

theorem safe_visit (T : Target) (h : s.Sound (some id) rank) : (Plan.visit T id).Safe s := by
  refine ((mild_edit (Edit.still_node id)).safe h.ordered.graded).bind fun n s₁ hs₁ => ?_
  obtain ⟨rfl, hn⟩ := (ends_node (E := fun _ => True) id h.lt_size).of_ok hs₁
  refine (safe_convertResults T n.opcode n.results 0 h).bind fun any s₁ hs₁ => ?_
  obtain ⟨⟨rank₁, h₁⟩, _, hany⟩ :=
    (ends_convertResults .any T n.opcode n.results 0 h).of_ok hs₁
  refine .ite (fun _ => (mild_pure _).safe h₁.ordered.graded) fun hfalse => ?_
  rw [hany (by simpa using hfalse)]
  exact safe_reviseOperand T _ h hn fun i => List.mem_range.1

theorem safe_step (T : Target) (h : s.Sound none rank) {rest : List Nat}
    (hw : s.worklist = id :: rest) : (Plan.step T id).Safe { s with worklist := rest } := by
  have hpop := sound_pop h hw
  refine ((mild_stateOf id).safe hpop.ordered.graded).bind fun state s₁ hs₁ => ?_
  cases hs₁
  refine .ite (fun _ => Safe.bind ((mild_throw _).safe hpop.ordered.graded) nofun) fun _ => ?_
  refine Safe.bind (Mild.safe (mild_update fun _ => ⟨rfl, .refl _⟩) hpop.ordered.graded)
    fun _ s₁ hs₁ => ?_
  cases hs₁
  have hsound : ({ s with worklist := rest, visited := s.visited + 1 } : Run).Sound (some id) rank :=
    ⟨⟨hpop.ordered, hpop.attached, hpop.redirected, hpop.converted⟩,
      hpop.scheduled.of_eq rfl rfl rfl, hpop.sourced⟩
  exact Safe.bind_mild (safe_visit T hsound) fun _ => mild_finishNode _

/-! ### Runs -/

theorem safe_loop (T : Target) (fuel : Nat) {s : Run} {rank : Nat → Nat} (h : s.Sound none rank) :
    (Plan.loop T fuel).Safe s := by
  induction fuel generalizing s rank with
  | zero =>
    exact Mild.safe (mild_bind mild_get fun _ => mild_ite (mild_throw _) (mild_pure _))
      h.ordered.graded
  | succ fuel ih =>
    refine (mild_get.safe h.ordered.graded).bind fun s₁ s₂ hs₁ => ?_
    cases hs₁
    have hcons (id : NodeId) (rest : List NodeId) (hw : s.worklist = id :: rest) :
        (Plan.bind (.update fun s : Run => { s with worklist := rest }) fun _ =>
          .bind (.step T id) fun _ => .loop T fuel).Safe s := by
      refine Safe.bind (Mild.safe (mild_update fun _ => ⟨rfl, .refl _⟩) h.ordered.graded)
        fun _ s₁ hs₁ => ?_
      cases hs₁
      refine (safe_step T h hw).bind fun _ s₂ hs₂ => ?_
      obtain ⟨⟨rank₂, h₂⟩, _⟩ := (ends_step_sound .any T h hw).of_ok hs₂
      exact ih h₂
    generalize s.worklist = worklist at hcons
    cases worklist with
    | nil => exact (mild_pure _).safe h.ordered.graded
    | cons id rest => exact hcons id rest rfl

theorem safe_run (T : Target) (config : Config) (fuel : Nat) {g : Graph}
    (hs : Run.start g = .ok s) : (Plan.run T config fuel).Safe s := by
  have hstart := (start_sound hs s.draft.log).ordered.graded
  refine ((mild_prepare config).safe hstart).bind fun _ s₁ hs₁ => ?_
  exact (safe_loop T fuel ((ends_prepare config hs).of_ok hs₁).1.sound).bind_mild
    fun _ => mild_finish _ _

end Engine.Plan

/-! ### Faults -/

/-- Nodes read earlier nodes only. -/
def Forward (g : Graph) : Prop :=
  ∀ (id : Nat) n v, g.nodes[id]? = some n → v ∈ n.operands → v.node < id

theorem Run.checkFrom_ne_cyclic {s : Run} {T : Target} {fuel : Nat} {stack : List NodeId}
    {seen : Array Bool} (h : s.draft.Acyclic) :
    s.checkFrom T fuel stack seen ≠ .error (.fault .cyclic) := by
  intro hc
  fun_induction checkFrom s T fuel stack seen with
  | case1 => cases hc
  | case2 => cases hc
  | case3 _ _ _ _ _ ih => exact ih hc
  | case4 => cases hc
  | case5 _ _ _ _ _ _ _ hn =>
    cases hc
    exact Graph.node_ne_cyclic _ _ hn
  | case6 => cases hc
  | case7 _ _ _ _ _ _ _ _ _ _ hops =>
    obtain ⟨v, _, hv⟩ := mapM_eq_error hops
    obtain ⟨w, hw⟩ := h.resolves v
    rw [hw] at hv
    cases hv
  | case8 _ _ _ _ _ _ _ _ _ _ _ ih => exact ih hc

namespace Engine

variable {T : Target} {config : Config} {g : Graph} {s : Run}

theorem ordinary_not_cyclic : Ordinary (· ≠ .fault .cyclic) where
  fault f hf h := hf (by simpa using h)
  noResultRule _ _ _ := nofun
  noOperandRule _ _ _ _ := nofun
  fromRule e he h := by
    subst h
    exact he rfl
  conversion _ := nofun

theorem conclude_ne_cyclic {rank : Nat → Nat} (h : s.draft.Graded rank) :
    s.conclude T config ≠ .error (.fault .cyclic) := by
  intro hc
  rcases Run.conclude_eq_error hc with ⟨_, hcheck⟩ | ⟨f, hresult, hf⟩
  · exact Run.checkFrom_ne_cyclic h.acyclic hcheck
  · cases hf
    obtain ⟨id, _, hb⟩ := (Graph.live_extracts (h.graph_descends s.root)).2 _ hresult
    cases hb with
    | astray n v _ _ _ hv =>
      rw [h.descends.follow_eq] at hv
      cases hv

theorem start_ne_cyclic (hg : Forward g) : Run.start g ≠ .error (.fault .cyclic) := by
  unfold Run.start
  split
  · exact nofun
  next root _ =>
  split
  · next f hl =>
    intro hf
    cases hf
    have hd : g.Descends .ok root (fun id => id) := fun id n v w _ hn hv hw => by
      cases hw
      exact hg id n v hn hv
    obtain ⟨id, _, hb⟩ := (Graph.live_extracts hd).2 _ hl
    cases hb with
    | astray n v _ _ _ hv => cases hv
  · exact nofun

/-- A run that starts does not end for a circle. -/
theorem legalize_ne_cyclic (T : Target) (config : Config) (fuel : Nat) (hs : Run.start g = .ok s) :
    legalize T config fuel g ≠ .error (.fault .cyclic) := by
  rw [legalize_eq T config fuel hs]
  cases hrun : (prepare config >>= fun _ => loop T fuel) s with
  | error e s' =>
    rintro h
    cases h
    rcases (ends_prepare_loop T config fuel hs).of_error hrun with h | ⟨_, rest, id, s, s', hh, hw, hstep⟩
    · cases h
    · obtain ⟨⟨rank, hsound⟩, _⟩ := hh.sound
      exact (ends_step_sound ordinary_not_cyclic T hsound hw).of_error hstep rfl
  | ok _ s' =>
    obtain ⟨_, ids, hh⟩ := (ends_prepare_loop T config fuel hs).of_ok hrun
    obtain ⟨⟨rank, hsound⟩, _⟩ := hh.sound
    dsimp only
    cases hc : s'.conclude T config with
    | error e =>
      rw [finish_of_error hc]
      rintro h
      cases h
      exact conclude_ne_cyclic hsound.ordered.graded hc
    | ok h =>
      obtain ⟨s'', hf⟩ := finish_of_ok hc
      rw [hf]
      exact nofun

end Engine

/-- Redirections and canonical edges run in no circle, in every state that a run passes through. So
a run never ends with the fault of a circle, whose causes would be a chain of redirections without
end, an analysis that meets a node below itself, and a copy that looks up an operand that it has not
emitted. -/
theorem acyclic_throughout (T : Target) (config : Config) (fuel : Nat) (g : Graph) :
    (∀ s₀ s, Run.start g = .ok s₀ → (Plan.run T config fuel).Passes s₀ s → s.draft.Acyclic) ∧
    (∀ s₀, Run.start g = .ok s₀ → legalize T config fuel g ≠ .error (.fault .cyclic)) ∧
    (Forward g → legalize T config fuel g ≠ .error (.fault .cyclic)) := by
  refine ⟨fun s₀ s hs hp => ?_, fun s₀ hs => legalize_ne_cyclic T config fuel hs, fun hg => ?_⟩
  · obtain ⟨rank, h⟩ := Plan.safe_run T config fuel hs s hp
    exact h.acyclic
  · cases hs : Run.start g with
    | ok s => exact legalize_ne_cyclic T config fuel hs
    | error e =>
      have hstart := start_ne_cyclic hg
      rw [hs] at hstart
      rw [legalize, hs]
      intro h
      cases h
      exact hstart rfl

/-- Twice the low half of a 64-bit argument. -/
def truncation : Graph :=
  ((((Graph.empty.push { opcode := .argument, results := [.i64], attr := .arg 0 0 }).push
    { opcode := .truncate, operands := [⟨0, 0⟩], results := [.i32] }).push
    { opcode := .int .add, operands := [⟨1, 0⟩, ⟨1, 0⟩], results := [.i32] }).push
    { opcode := .output, operands := [⟨2, 0⟩], attr := .widths [32] }).setRoot 3

theorem forward_truncation : Forward truncation := by
  intro id n v hn hv
  have hlt : id < 4 := Graph.lt_size_of_getElem? hn
  obtain rfl | rfl | rfl | rfl : id = 0 ∨ id = 1 ∨ id = 2 ∨ id = 3 := by omega
  all_goals
    cases hn
    revert v
    decide

/-- The addition comes to read a later node, and still there is no circle. -/
theorem acyclic_throughout_truncation :
    ∃ T s₀ s source, Target.int32.target = .ok T ∧ Run.start truncation = .ok s₀ ∧
      (Plan.run T {} 100).Passes s₀ s ∧ s.draft.Reads 2 source ∧ 2 < source ∧ s.draft.Acyclic ∧
      legalize T {} 100 truncation ≠ .error (.fault .cyclic) := by
  have hok : (Target.int32.target.toOption.map fun T =>
      decide ((do
        let s₀ ← (Run.start truncation).toOption
        let s ← (Engine.run T {} 100).final? s₀
        return (s.draft.graph.nodes[2]?.map (·.operands),
          (s.draft.replaced.follow ⟨1, 0⟩).toOption)) =
        some (some [⟨1, 0⟩, ⟨1, 0⟩], some ⟨4, 0⟩))) = some true := by
    decide +kernel
  obtain ⟨T, hT, hok⟩ := Description.exists_target hok
  obtain ⟨s₀, hs, hok⟩ := Option.bind_eq_some_iff.1 (of_decide_eq_true hok)
  have hs := Description.eq_ok_of_toOption hs
  obtain ⟨s, hfinal, hread⟩ := Option.bind_eq_some_iff.1 hok
  obtain ⟨outcome, hrun⟩ := final?_eq_some hfinal
  obtain ⟨hn, hfollow⟩ := Prod.mk.inj (Option.some.inj hread)
  obtain ⟨n, hn, hops⟩ := Option.map_eq_some_iff.1 hn
  have hfollow := Description.eq_ok_of_toOption hfollow
  have hpasses := (Plan.run T {} 100).passes_of_ok hrun
  obtain ⟨hacyclic, _, hnever⟩ := acyclic_throughout T {} 100 truncation
  exact ⟨T, s₀, s, 4, hT, hs, hpasses, ⟨n, ⟨1, 0⟩, ⟨4, 0⟩, hn, by simp [hops], hfollow, rfl⟩,
    by decide, hacyclic s₀ s hs hpasses, hnever forward_truncation⟩

end Dataflow.Legal
