import Dataflow.Proofs.Visit

/-!
# Steps of the loop

A step takes a ready node off the worklist, visits it and marks it processed. Its results of
illegal types are converted; or, when its results are legal, it gives way to a successor for its
first illegal operand; or it stays as it is.
-/

namespace Dataflow.Legal

namespace Engine

open Run

variable {α : Type} {E : Error → Prop} {s : Run} {rank : Nat → Nat} {id : Nat}

/-! ### Results and operands -/

/-- Errors that any run may end with: the graph cannot be made legal. -/
structure Ordinary (E : Error → Prop) : Prop where
  fault : ∀ f, f ≠ .cyclic → E (.fault f)
  noResultRule : ∀ action op id, E (.noResultRule action op id)
  noOperandRule : ∀ action op id i, E (.noOperandRule action op id i)
  fromRule : ∀ e, e.FromRule → E e
  conversion : ∀ e, E (.conversion e)

theorem Ordinary.any : Ordinary fun _ => True :=
  ⟨fun _ _ => trivial, fun _ _ _ => trivial, fun _ _ _ _ => trivial, fun _ _ => trivial,
    fun _ => trivial⟩

theorem Ordinary.unrecorded (hE : Ordinary E) {d : Draft} {action : Action} {v : Value}
    {parts : Parts} {e : Error} (h : Unrecorded d action v parts e) : E e := by
  cases h with
  | untyped => exact hE.fault _ (by simp)
  | misfit => exact hE.fault _ (by simp)
  | taken => exact hE.conversion _

/-- Result `slot` of node `id`, of type `t`, was converted. -/
def Converted (T : Target) (id : Nat) (op : Opcode) (slot : Nat) (t : ValueType) (s s' : Run) :
    Prop :=
  ∃ rule kind parts s₁, resultRule? (T.classify t) op = some rule ∧
    (T.classify t).kind? = some kind ∧ Ran (rule T id slot) s parts s₁ ∧
    Recorded id slot kind parts s₁ s'

theorem Converted.stays {T : Target} {op : Opcode} {slot : Nat} {t : ValueType} {s' : Run}
    (h : Converted T id op slot t s s') : s.Stays s' := by
  obtain ⟨rule, kind, parts, s₁, _, _, hran, hrec⟩ := h
  exact hran.stays.1.trans hrec.toStays

theorem kind?_of_resultRule? {action : Action} {op : Opcode} {rule : ResultRule}
    (h : resultRule? action op = some rule) : ∃ kind, action.kind? = some kind := by
  cases action with
  | legal => cases h
  | _ => exact ⟨_, rfl⟩

/-- Why a result of node `id`, of the illegal type `t`, cannot be converted. -/
inductive Unconverted (T : Target) (id : Nat) (op : Opcode) (slot : Nat) (t : ValueType)
    (d : Draft) : Error → Prop
  | noRule : resultRule? (T.classify t) op = none →
    Unconverted T id op slot t d (.noResultRule (T.classify t) op id)
  | rule (rule : ResultRule) (d₁ d₂ : Draft) (e : Error) :
    resultRule? (T.classify t) op = some rule → d.Quiet d₁ →
    (rule T id slot).run d₁ = .error e d₂ → e.FromRule → Unconverted T id op slot t d e
  | record (rule : ResultRule) (parts : Parts) (d₁ d₂ : Draft) (e : Error) :
    resultRule? (T.classify t) op = some rule → d.Quiet d₁ →
    (rule T id slot).run d₁ = .ok parts d₂ → Unrecorded d₂ (T.classify t) ⟨id, slot⟩ parts e →
    Unconverted T id op slot t d e

theorem ends_convertResult (h : s.Sound (some id) rank) (T : Target) (op : Opcode) (slot : Nat)
    (t : ValueType) (hE : ∀ e, Unconverted T id op slot t s.draft e → E e) :
    Ends E (convertResult T id op slot t) s fun _ s' =>
      Converted T id op slot t s s' ∧ (∃ rank', s'.Sound (some id) rank') ∧
        ∀ (j : Nat) n, s.draft.graph.size ≤ j → s'.draft.graph.nodes[j]? = some n → n.Shaped := by
  unfold convertResult
  refine .bind (P := fun _ s' => s.Quiet s') ⟨rfl, rfl, .refl _, rfl, rfl, rfl⟩ ?_
  intro _ s₀ hq
  have h₀ := h.settles hq.settles
  split
  · next hr => exact hE _ (.noRule hr)
  · next rule hr =>
    obtain ⟨kind, hkind⟩ := kind?_of_resultRule? hr
    refine .bind (ends_rule hq h₀ (fun S hS => hS ▸ Scope.flows_resultRule hr T slot)
      fun s₁ e d hq₁ hrun he => hE e (.rule rule s₁.draft d e hr hq₁.draft hrun he)) ?_
    rintro parts s₁ ⟨hran, rank', h₁, hlow, hshape⟩
    refine (ends_recordParts h₁ slot hkind hlow fun e he => hE e ?_).mono ?_
    · obtain ⟨s₂, hq₂, hrun, _⟩ := hran
      exact .record rule parts s₂.draft s₁.draft e hr hq₂.draft hrun he
    rintro _ s₂ ⟨h₂, hrec⟩
    refine ⟨⟨rule, kind, parts, s₁, hr, hkind, hran, hrec⟩, ⟨rank', h₂⟩, ?_⟩
    rw [hrec.graph]
    exact hshape

/-- A successor took the place of node `id`. -/
def GaveWay (id : Nat) (n : Node) (s s' : Run) : Successor → Prop
  | .node new => Succeeded id new n.results s s'
  | .value w => n.results.length = 1 ∧ Replaced ⟨id, 0⟩ w s s'

/-- Node `id` gave way to a successor for its operand `i`, whose type is illegal. -/
def Revised (T : Target) (id : Nat) (n : Node) (i : Nat) (s s' : Run) : Prop :=
  ∃ v t rule successor s₁, n.operands[i]? = some v ∧
    s.draft.graph.typeOf? (s.draft.replaced.canon v) = some t ∧ T.classify t ≠ .legal ∧
    operandRule? (T.classify t) n.opcode = some rule ∧ Ran (rule T id i) s successor s₁ ∧
    GaveWay id n s₁ s' successor

theorem Revised.stays {T : Target} {n : Node} {i : Nat} {s' : Run} (h : Revised T id n i s s') :
    s.Stays s' := by
  obtain ⟨v, t, rule, successor, s₁, _, _, _, _, hran, hgave⟩ := h
  refine hran.stays.1.trans ?_
  cases successor with
  | node new => exact hgave.toStays
  | value w => exact hgave.2.toStays

theorem ends_operand (hd : s.draft.replaced.Descends rank) {id i : Nat} {n : Node} {v : Value}
    (hn : s.draft.graph.nodes[id]? = some n) (hv : n.operands[i]? = some v) :
    Ends E (liftM (Edit.operand id i) : Engine Value) s fun w s' =>
      s.Quiet s' ∧ w = s.draft.replaced.canon v := by
  have hop : s.draft.graph.operand id i = .ok v := by
    simp [Graph.operand, Graph.node_of_getElem? hn, bind, Except.bind, hv]
  unfold Edit.operand
  rw [liftM_bind_edit]
  refine .bind (P := fun d s' => s.draft = d ∧ s = s') ⟨rfl, rfl⟩ ?_
  rintro _ _ ⟨rfl, rfl⟩
  rw [liftM_bind_edit]
  refine .bind (.ofFault (Q := fun u s' => v = u ∧ s = s') (fun f hf => ?_) fun u hu => ?_) ?_
  · rw [hop] at hf
    cases hf
  · rw [hop] at hu
    cases hu
    exact ⟨rfl, rfl⟩
  rintro _ _ ⟨rfl, rfl⟩
  refine (ends_canonical hd v).mono ?_
  rintro w s' ⟨rfl, hq⟩
  exact ⟨hq, rfl⟩

/-- Why a successor cannot take the place of node `n`. -/
inductive Unplaced (d : Draft) (n : Node) (id : Nat) : Successor → Error → Prop
  | node (new : Nat) (m : Node) : d.graph.nodes[new]? = some m →
    m.results.length ≠ n.results.length → Unplaced d n id (.node new) (.fault .noSuchResult)
  | value (v : Value) : n.results.length ≠ 1 →
    Unplaced d n id (.value v) (.unsupported n.opcode id .valueForManyResults)

theorem ends_succeed (h : s.Sound (some id) rank)
    (hplain : ∀ slot, s.draft.replaced.next? ⟨id, slot⟩ = none) {n : Node}
    (hn : s.draft.graph.nodes[id]? = some n) {successor : Successor}
    (hlow : Tracked.all (s.draft.Below rank id) successor)
    (hE : ∀ e, Unplaced s.draft n id successor e → E e) :
    Ends E (succeed id n.opcode successor) s fun _ s' =>
      s'.Sound (some id) rank ∧ GaveWay id n s s' successor := by
  cases successor with
  | node new =>
    have hlow : s.draft.Below rank id ⟨new, 0⟩ := hlow
    have hne : new ≠ id := fun heq => by
      rw [heq] at hlow
      exact absurd hlow.2 (Nat.lt_irrefl _)
    show Ends E (if new = id then pure () else replaceNode id new) s _
    rw [if_neg hne]
    exact ends_replaceNode h hplain hn hlow fun m hm hlen => hE _ (.node new m hm hlen)
  | value w =>
    unfold succeed
    refine .bind (ends_node id h.lt_size) ?_
    rintro m _ ⟨rfl, hm⟩
    rw [hn] at hm
    cases hm
    split
    · next hlen => exact hE _ (.value w hlen)
    · next hlen =>
      refine (ends_replaceValue h (hplain 0) hlow).mono ?_
      rintro _ s' ⟨h', hr⟩
      exact ⟨h', Decidable.not_not.1 hlen, hr⟩

/-- Why node `n` cannot give way for its operand `v`, number `i`. -/
inductive Unrevised (T : Target) (id : Nat) (n : Node) (i : Nat) (v : Value) (d : Draft) :
    Error → Prop
  | untyped : d.graph.typeOf? (d.replaced.canon v) = none →
    Unrevised T id n i v d (.fault .noSuchResult)
  | noRule (t : ValueType) : d.graph.typeOf? (d.replaced.canon v) = some t →
    T.classify t ≠ .legal → operandRule? (T.classify t) n.opcode = none →
    Unrevised T id n i v d (.noOperandRule (T.classify t) n.opcode id i)
  | rule (t : ValueType) (rule : OperandRule) (d₁ d₂ : Draft) (e : Error) :
    d.graph.typeOf? (d.replaced.canon v) = some t →
    operandRule? (T.classify t) n.opcode = some rule → d.Quiet d₁ →
    (rule T id i).run d₁ = .error e d₂ → e.FromRule → Unrevised T id n i v d e
  | place (t : ValueType) (rule : OperandRule) (successor : Successor) (d₁ d₂ : Draft)
    (e : Error) : d.graph.typeOf? (d.replaced.canon v) = some t →
    operandRule? (T.classify t) n.opcode = some rule → d.Quiet d₁ →
    (rule T id i).run d₁ = .ok successor d₂ → Unplaced d₂ n id successor e →
    Unrevised T id n i v d e

theorem Ordinary.unrevised (hE : Ordinary E) {T : Target} {n : Node} {i : Nat} {v : Value}
    {d : Draft} {e : Error} (h : Unrevised T id n i v d e) : E e := by
  cases h with
  | untyped => exact hE.fault _ (by simp)
  | noRule => exact hE.noOperandRule _ _ _ _
  | rule _ _ _ _ _ _ _ _ _ he => exact hE.fromRule e he
  | place _ _ _ _ _ _ _ _ _ _ he =>
    cases he with
    | node => exact hE.fault _ (by simp)
    | value => exact hE.fromRule _ trivial

/-- The operands of a node are legal up to the first illegal one, for which it gives way. -/
theorem ends_reviseOperand (T : Target) {n : Node} (is : List Nat) (h : s.Sound (some id) rank)
    {s₀ : Run} (hq : s.Quiet s₀) (hplain : ∀ slot, s.draft.replaced.next? ⟨id, slot⟩ = none)
    (hn : s.draft.graph.nodes[id]? = some n) (his : ∀ i ∈ is, i < n.operands.length)
    (hE : ∀ i v e, n.operands[i]? = some v → Unrevised T id n i v s.draft e → E e) :
    Ends E (reviseOperand T id n.opcode is) s₀ fun _ s' => (∃ rank', s'.Sound (some id) rank') ∧
      ((s.Quiet s' ∧ ∀ i ∈ is, ∃ v t, n.operands[i]? = some v ∧
          s.draft.graph.typeOf? (s.draft.replaced.canon v) = some t ∧ T.classify t = .legal) ∨
        ((∃ i, Revised T id n i s s') ∧ ∀ (j : Nat) m, s.draft.graph.size ≤ j →
          s'.draft.graph.nodes[j]? = some m → m.Shaped)) := by
  have hd := h.ordered.descends
  induction is generalizing s₀ with
  | nil => exact .pure ⟨⟨rank, h.settles hq.settles⟩, .inl ⟨hq, by simp⟩⟩
  | cons i is ih =>
    unfold reviseOperand
    have h₀ := h.settles hq.settles
    obtain ⟨v, hv⟩ : ∃ v, n.operands[i]? = some v :=
      ⟨_, List.getElem?_eq_getElem (his i List.mem_cons_self)⟩
    refine .bind (ends_operand h₀.ordered.descends (hq.graph ▸ hn) hv) ?_
    rintro w s₁ ⟨hq₁, rfl⟩
    have hq' := hq.trans hq₁
    rw [hq.settles.keeps.canon_eq hd]
    refine .bind (ends_typeOf _ fun ht => hE i v _ hv (.untyped ?_)) ?_
    · rwa [hq'.graph] at ht
    rintro t _ ⟨rfl, ht⟩
    rw [hq'.graph] at ht
    dsimp only
    split
    · next hlegal =>
      refine (ih hq' fun j hj => his j (List.mem_cons_of_mem i hj)).mono ?_
      rintro _ s' ⟨hsound, hquiet | hrevised⟩
      · refine ⟨hsound, .inl ⟨hquiet.1, fun j hj => ?_⟩⟩
        rcases List.mem_cons.1 hj with rfl | hj
        · exact ⟨v, t, hv, ht, hlegal⟩
        · exact hquiet.2 j hj
      · exact ⟨hsound, .inr hrevised⟩
    · next hlegal =>
      refine .bind (P := fun _ s' => s.Quiet s') ?_ ?_
      · exact hq'.trans ⟨rfl, rfl, .refl _, rfl, rfl, rfl⟩
      intro _ s₂ hq₂
      split
      · next hr => exact hE i v _ hv (.noRule t ht hlegal hr)
      · next rule hr =>
        refine .bind (ends_rule hq₂ (h.settles hq₂.settles)
          (fun S hS => hS ▸ Scope.flows_operandRule hr T i)
          fun s₁ e d hq₁ hrun he => hE i v e hv (.rule t rule s₁.draft d e ht hr hq₁.draft hrun he)) ?_
        rintro successor s₃ ⟨hran, rank', h₃, hlow, hshape⟩
        have hgrows := hran.grows
        refine (ends_succeed h₃ (fun slot => (hgrows.replaced.next?_eq_none _).2 (hplain slot))
          (hgrows.graph.getElem? hn) hlow fun e he => hE i v e hv ?_).mono ?_
        · obtain ⟨s₁, hq₁, hrun, _⟩ := hran
          exact .place t rule successor s₁.draft s₃.draft e ht hr hq₁.draft hrun he
        rintro _ s₄ ⟨h₄, hgave⟩
        refine ⟨⟨rank', h₄⟩, .inr ⟨⟨i, v, t, rule, successor, s₃, hv, ht, hlegal, hr, hran, hgave⟩,
          ?_⟩⟩
        have hnodes : s₄.draft.graph.nodes = s₃.draft.graph.nodes := by
          cases successor with
          | node new => exact hgave.nodes
          | value w => exact hgave.2.nodes
        rw [hnodes]
        exact hshape

/-! ### Visits -/

/-- The results from `slot` on are converted where they are illegal. -/
theorem ends_convertResults (hE : Ordinary E) (T : Target) (op : Opcode) (ts : List ValueType)
    (slot : Nat) {s : Run} {rank : Nat → Nat} (h : s.Sound (some id) rank) :
    Ends E (convertResults T id op slot ts) s fun any s' =>
      (∃ rank', s'.Sound (some id) rank') ∧ s.Stays s' ∧ (any = false → s' = s) := by
  induction ts generalizing slot s rank with
  | nil => exact .pure ⟨⟨rank, h⟩, .refl s, fun _ => rfl⟩
  | cons t ts ih =>
    unfold convertResults
    split
    · exact ih (slot + 1) h
    · refine .bind (ends_convertResult h T op slot t fun e he => ?_) ?_
      · cases he with
        | noRule => exact hE.noResultRule _ _ _
        | rule _ _ _ _ _ _ _ he => exact hE.fromRule e he
        | record _ _ _ _ _ _ _ _ he => exact hE.unrecorded he
      rintro _ s₁ ⟨hconv, ⟨rank₁, h₁⟩, _⟩
      refine .bind (ih (slot + 1) h₁) ?_
      rintro _ s₂ ⟨h₂, hstays, _⟩
      exact .pure ⟨h₂, hconv.stays.trans hstays, by simp⟩

/-- A visit keeps a run sound, whatever the node. -/
theorem ends_visit_sound (hE : Ordinary E) (T : Target) (h : s.Sound (some id) rank)
    (hplain : ∀ slot, s.draft.replaced.next? ⟨id, slot⟩ = none) :
    Ends E (visit T id) s fun _ s' => (∃ rank', s'.Sound (some id) rank') ∧ s.Stays s' := by
  unfold visit
  refine .bind (ends_node id h.lt_size) ?_
  rintro n _ ⟨rfl, hn⟩
  refine .bind (ends_convertResults hE T n.opcode n.results 0 h) ?_
  rintro any s₁ ⟨h₁, hstays, hany⟩
  split
  · exact .pure ⟨h₁, hstays⟩
  · next hfalse =>
    rw [hany (by simpa using hfalse)]
    refine (ends_reviseOperand T _ h (Quiet.refl s) hplain hn (fun i => List.mem_range.1)
      fun i v e _ => hE.unrevised).mono ?_
    rintro _ s₂ ⟨h₂, ⟨hquiet, _⟩ | ⟨⟨i, hi⟩, _⟩⟩
    · exact ⟨h₂, hquiet.settles.keeps.toStays⟩
    · exact ⟨h₂, hi.stays⟩

/-- What a visit of node `id`, of one result or an output, did. -/
inductive Visited (T : Target) (id : Nat) (n : Node) (s s' : Run) : Prop
  | converted (t : ValueType) : n.results = [t] → T.classify t ≠ .legal →
    Converted T id n.opcode 0 t s s' → Visited T id n s s'
  | kept : (∀ t ∈ n.results, T.classify t = .legal) → s.Quiet s' →
    (∀ v ∈ n.operands, ∃ t, s.draft.graph.typeOf? (s.draft.replaced.canon v) = some t ∧
      T.classify t = .legal) → Visited T id n s s'
  | revised (i : Nat) : (∀ t ∈ n.results, T.classify t = .legal) → Revised T id n i s s' →
    Visited T id n s s'

theorem convertResults_of_legal {T : Target} {op : Opcode} (ts : List ValueType) (slot : Nat)
    (h : ∀ t ∈ ts, T.classify t = .legal) : convertResults T id op slot ts = pure false := by
  induction ts generalizing slot with
  | nil => rfl
  | cons t ts ih =>
    rw [convertResults, if_pos (h t List.mem_cons_self)]
    exact ih (slot + 1) fun u hu => h u (List.mem_cons_of_mem t hu)

/-- Why the visit of node `id`, of one result or an output, can fail. -/
inductive Fails (T : Target) (id : Nat) (n : Node) (d : Draft) : Error → Prop
  | result (t : ValueType) (e : Error) : n.results = [t] → T.classify t ≠ .legal →
    Unconverted T id n.opcode 0 t d e → Fails T id n d e
  | operand (i : Nat) (v : Value) (e : Error) : (∀ t ∈ n.results, T.classify t = .legal) →
    n.operands[i]? = some v → Unrevised T id n i v d e → Fails T id n d e

theorem ends_visit (T : Target) (h : s.Sound (some id) rank)
    (hplain : ∀ slot, s.draft.replaced.next? ⟨id, slot⟩ = none) {n : Node}
    (hn : s.draft.graph.nodes[id]? = some n) (hshape : n.Shaped)
    (hE : ∀ e, Fails T id n s.draft e → E e) :
    Ends E (visit T id) s fun _ s' => Visited T id n s s' ∧
      (∃ rank', s'.Sound (some id) rank') ∧
      ∀ (j : Nat) m, s.draft.graph.size ≤ j → s'.draft.graph.nodes[j]? = some m → m.Shaped := by
  unfold visit
  refine .bind (ends_node id h.lt_size) ?_
  rintro m _ ⟨rfl, hm⟩
  rw [hn] at hm
  cases hm
  by_cases hlegal : ∀ t ∈ n.results, T.classify t = .legal
  · rw [convertResults_of_legal n.results 0 hlegal, pure_bind, if_neg (by simp)]
    refine (ends_reviseOperand T _ h (Quiet.refl s) hplain hn (fun i => List.mem_range.1)
      fun i v e hv he => hE e (.operand i v e hlegal hv he)).mono ?_
    rintro _ s' ⟨h', ⟨hquiet, hoperands⟩ | ⟨⟨i, hi⟩, hnew⟩⟩
    · refine ⟨.kept hlegal hquiet fun v hv => ?_, h', fun j m hj hm => ?_⟩
      · obtain ⟨i, hi⟩ := List.getElem?_of_mem hv
        obtain ⟨u, t, hu, ht, hlegal⟩ := hoperands i
          (List.mem_range.2 (List.getElem?_eq_some_iff.1 hi).1)
        rw [hi] at hu
        cases hu
        exact ⟨t, ht, hlegal⟩
      · rw [hquiet.graph] at hm
        exact absurd (Graph.lt_size_of_getElem? hm) (by omega)
    · exact ⟨.revised i hlegal hi, h', hnew⟩
  · have hone : n.results.length = 1 := hshape.resolve_right fun hout => hlegal (by simp [hout.2])
    obtain ⟨t, ht⟩ := List.length_eq_one_iff.1 hone
    rw [ht, List.forall_mem_singleton] at hlegal
    rw [ht, convertResults, if_neg hlegal]
    refine .bind (P := fun any s' => any = true ∧ Converted T id n.opcode 0 t s s' ∧
      (∃ rank', s'.Sound (some id) rank') ∧ ∀ (j : Nat) m, s.draft.graph.size ≤ j →
        s'.draft.graph.nodes[j]? = some m → m.Shaped) ?_ ?_
    · refine .bind (ends_convertResult h T n.opcode 0 t fun e he =>
        hE e (.result t e ht hlegal he)) ?_
      rintro _ s₁ h₁
      exact .pure ⟨rfl, h₁⟩
    · rintro _ s' ⟨rfl, hconv, h', hnew⟩
      exact .pure ⟨.converted t ht hlegal hconv, h', hnew⟩

/-! ### Steps -/

theorem scheduled_pop {due : Nat → Nat} (h : s.Scheduled none due) {rest : List Nat}
    (hw : s.worklist = id :: rest) :
    ({ s with worklist := rest } : Run).Scheduled (some id) due where
  nodup := by
    have hnodup := h.nodup
    rw [hw] at hnodup
    exact (List.nodup_cons.1 hnodup).2
  mem_iff j := by
    have hnodup := h.nodup
    have hj := h.mem_iff j
    rw [hw] at hnodup
    rw [hw, List.mem_cons] at hj
    constructor
    · intro hm
      exact ⟨(hj.1 (.inr hm)).1, fun heq => (List.nodup_cons.1 hnodup).1 (by cases heq; exact hm)⟩
    · rintro ⟨hr, hne⟩
      exact (hj.2 ⟨hr, by simp⟩).resolve_left fun heq => hne (by rw [heq])
  current j hj := by
    cases hj
    exact ((h.mem_iff id).1 (by rw [hw]; exact List.mem_cons_self)).1
  known := h.known
  pending := h.pending
  idle := h.idle

/-- A run whose next node is taken off the worklist. -/
theorem sound_pop (h : s.Sound none rank) {rest : List Nat} (hw : s.worklist = id :: rest) :
    ({ s with worklist := rest } : Run).Sound (some id) rank where
  ordered := h.ordered
  attached := h.attached
  redirected v w hv := .inl ((h.redirected v w hv).resolve_right (by simp))
  converted v c hv := .inl ((h.converted v c hv).resolve_right (by simp))
  scheduled := scheduled_pop h.scheduled hw
  sourced := h.sourced

/-- The next node of the worklist is not redirected. -/
theorem plain_head (h : s.Sound none rank) {rest : List Nat} (hw : s.worklist = id :: rest)
    (slot : Nat) : s.draft.replaced.next? ⟨id, slot⟩ = none := by
  cases hn : s.draft.replaced.next? ⟨id, slot⟩ with
  | none => rfl
  | some w =>
    have hprocessed := (h.redirected _ w hn).resolve_right (by simp)
    rw [h.ready_head hw] at hprocessed
    cases hprocessed

/-- Values of a node that is marked may stay redirected and converted. -/
theorem wired_mark (h : s.Wired (some id) rank) : (s.mark id).Wired none rank where
  ordered := h.ordered
  attached := h.attached
  redirected v w hv := by
    rw [get_mark]
    split
    · exact .inl rfl
    · next hne =>
      exact (h.redirected v w hv).imp_right fun heq => absurd (by simpa using heq.symm) hne
  converted v c hv := by
    rw [get_mark]
    split
    · exact .inl rfl
    · next hne =>
      exact (h.converted v c hv).imp_right fun heq => absurd (by simpa using heq.symm) hne

/-- Marking the current node processed ends its visit. -/
theorem ends_finishNode_sound (h : s.Sound (some id) rank) :
    Ends E (finishNode id) s fun _ s' => s'.Sound none rank ∧ (s.mark id).Keeps s' := by
  refine (ends_finishNode h.ordered.ranked h.attached h.scheduled h.sourced).mono ?_
  rintro _ s' ⟨hsched, hsrc, hk⟩
  exact ⟨⟨(wired_mark h.toWired).keeps hk, hsched, hsrc⟩, hk⟩

/-- A step visits the next node of the worklist and marks it processed. -/
theorem ends_step_of_visit {Q : Run → Prop} (T : Target) (h : s.Sound none rank) {rest : List Nat} (hw : s.worklist = id :: rest)
    (hvisit : ∀ s₀ : Run, s₀ = { s with worklist := rest, visited := s.visited + 1 } →
      s₀.Sound (some id) rank → (∀ slot, s₀.draft.replaced.next? ⟨id, slot⟩ = none) →
      Ends E (visit T id) s₀ fun _ s₁ => (∃ rank', s₁.Sound (some id) rank') ∧ s₀.Stays s₁ ∧ Q s₁) :
    Ends E (step T id) { s with worklist := rest } fun _ s' => (∃ rank', s'.Sound none rank') ∧
      s'.states.get id = .processed ∧
      (∀ j, s.states.get j = .processed → s'.states.get j = .processed) ∧
      ∃ s₁, Q s₁ ∧ (s₁.mark id).Keeps s' := by
  have hpop := sound_pop h hw
  have hplain := plain_head h hw
  have hready := hpop.scheduled.current id rfl
  unfold step
  refine .bind (P := fun x s' => x = .ready ∧ { s with worklist := rest } = s') ⟨hready, rfl⟩ ?_
  rintro _ _ ⟨rfl, rfl⟩
  rw [if_neg (by simp)]
  refine .bind (P := fun _ s' => s'.Sound (some id) rank ∧
    s' = { s with worklist := rest, visited := s.visited + 1 }) ⟨?_, rfl⟩ ?_
  · exact ⟨⟨hpop.ordered, hpop.attached, hpop.redirected, hpop.converted⟩,
      hpop.scheduled.of_eq rfl rfl rfl, hpop.sourced⟩
  rintro _ s₀ ⟨h₀, hs₀⟩
  have hstates : s₀.states = s.states := by rw [hs₀]
  refine .bind (hvisit s₀ hs₀ h₀ (by rw [hs₀]; exact hplain)) ?_
  rintro _ s₁ ⟨⟨rank₁, h₁⟩, hstays, hQ⟩
  refine (ends_finishNode_sound h₁).mono ?_
  rintro _ s₂ ⟨h₂, hk⟩
  refine ⟨⟨rank₁, h₂⟩, (hk.processed_iff id).2 (by simp), fun j hj => (hk.processed_iff j).2 ?_,
    s₁, hQ, hk⟩
  rw [get_mark, (hstays.processed_iff j).2 (hstates ▸ hj), ite_self]

/-- A step keeps a run sound and processes the next node of the worklist, whatever it is. -/
theorem ends_step_sound (hE : Ordinary E) (T : Target) (h : s.Sound none rank) {rest : List Nat}
    (hw : s.worklist = id :: rest) :
    Ends E (step T id) { s with worklist := rest } fun _ s' => (∃ rank', s'.Sound none rank') ∧
      s'.states.get id = .processed ∧
      ∀ j, s.states.get j = .processed → s'.states.get j = .processed := by
  refine (ends_step_of_visit (Q := fun _ => True) T h hw fun s₀ _ h₀ hplain => ?_).mono ?_
  · refine (ends_visit_sound hE T h₀ hplain).mono ?_
    rintro _ s₁ ⟨hsound, hstays⟩
    exact ⟨hsound, hstays, trivial⟩
  · rintro _ s' ⟨hsound, hid, hprocessed, _⟩
    exact ⟨hsound, hid, hprocessed⟩

/-- What a step did to a run: node `id` was visited and then marked. -/
def Stepped (T : Target) (id : Nat) (n : Node) (s s' : Run) : Prop :=
  ∃ worklist visited s₁ rank, Visited T id n { s with worklist, visited } s₁ ∧
    s₁.Sound (some id) rank ∧ (s₁.mark id).Keeps s'

theorem Visited.stays {T : Target} {n : Node} {s' : Run} (h : Visited T id n s s') :
    s.Stays s' := by
  cases h with
  | converted t _ _ hc => exact hc.stays
  | kept _ hq _ => exact hq.settles.keeps.toStays
  | revised i _ hr => exact hr.stays

/-- The step of a node of one result or of an output. -/
theorem ends_step (T : Target) (h : s.Sound none rank) {rest : List Nat}
    (hw : s.worklist = id :: rest) {n : Node} (hn : s.draft.graph.nodes[id]? = some n)
    (hshape : n.Shaped) (hE : ∀ e, Fails T id n s.draft e → E e) :
    Ends E (step T id) { s with worklist := rest } fun _ s' => (∃ rank', s'.Sound none rank') ∧
      Stepped T id n s s' ∧
      ∀ (j : Nat) m, s.draft.graph.size ≤ j → s'.draft.graph.nodes[j]? = some m → m.Shaped := by
  refine (ends_step_of_visit (Q := fun s₁ => (∃ worklist visited rank,
    Visited T id n { s with worklist, visited } s₁ ∧ s₁.Sound (some id) rank) ∧
      ∀ (j : Nat) m, s.draft.graph.size ≤ j → s₁.draft.graph.nodes[j]? = some m → m.Shaped)
    T h hw fun s₀ hs₀ h₀ hplain => ?_).mono ?_
  · have hdraft : s₀.draft = s.draft := by rw [hs₀]
    rw [← hdraft] at hn hE
    refine (ends_visit T h₀ hplain hn hshape hE).mono ?_
    rintro _ s₁ ⟨hvisited, ⟨rank₁, h₁⟩, hnew⟩
    refine ⟨⟨rank₁, h₁⟩, hvisited.stays, ⟨rest, s.visited + 1, rank₁, hs₀ ▸ hvisited, h₁⟩, ?_⟩
    rw [← hdraft]
    exact hnew
  · rintro _ s' ⟨hsound, _, _, s₁, ⟨⟨worklist, visited, rank₁, hvisited, h₁⟩, hnew⟩, hk⟩
    refine ⟨hsound, ⟨worklist, visited, s₁, rank₁, hvisited, h₁, hk⟩, ?_⟩
    rw [hk.graph]
    exact hnew

end Engine

end Dataflow.Legal
