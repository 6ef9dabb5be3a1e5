import Dataflow.Proofs.Step

/-!
# What a step leaves alone

A visit of node `id` adds nodes, and redirects or converts results of `id`. Other nodes keep their
operands and other values their canonical forms. An output that gives way makes room for a new
output.
-/

namespace Dataflow.Legal

/-! ### Successors -/

namespace Edit

variable {α : Type}

/-- A node that `x` puts in the place of another is a new output. -/
def Appends (x : Edit Successor) : Prop :=
  ∀ d new d', x.run d = .ok (.node new) d' → d.graph.size ≤ new ∧
    ∃ n, d'.graph.nodes[new]? = some n ∧ n.opcode = .output ∧ n.results = []

theorem Appends.bind {x : Edit α} {f : α → Edit Successor} (h : ∀ a, (f a).Appends) :
    (x >>= f).Appends := by
  intro d new d' hr
  have hg := x.grows d
  rw [run_bind] at hr
  cases hx : x.run d with
  | error e d₁ => rw [hx] at hr; cases hr
  | ok a d₁ =>
    rw [hx] at hr hg
    obtain ⟨hnew, hn⟩ := h a d₁ new d' hr
    exact ⟨Nat.le_trans hg.graph.size_le hnew, hn⟩

theorem appends_value (x : Edit Value) : (Successor.value <$> x).Appends := by
  intro d new d' hr
  have hmap : (Successor.value <$> x) = x >>= fun v => pure (.value v) :=
    (bind_pure_comp _ _).symm
  rw [hmap, run_bind] at hr
  cases hx : x.run d with
  | error e d₁ => rw [hx] at hr; cases hr
  | ok a d₁ => rw [hx] at hr; cases hr

theorem append_eq_ok {n : Node} {d d' : Draft} {id : NodeId} (h : (append n).run d = .ok id d') :
    d.graph.admits n ∧ id = d.graph.size ∧ d'.graph = d.graph.push n := by
  simp only [append] at h
  split at h
  · next hadmits =>
    cases h
    exact ⟨hadmits, rfl, rfl⟩
  · cases h

theorem appends_outputOf (id i : Nat) (parts : List Value) : (outputOf id i parts).Appends := by
  unfold outputOf
  refine .bind fun n => .bind fun ops => .bind fun observed => .bind fun sized => ?_
  unfold add
  simp only [bind_assoc]
  refine .bind fun operands => ?_
  intro d new d' hr
  rw [run_bind] at hr
  split at hr
  · next new' d₁ happend =>
    cases hr
    obtain ⟨_, rfl, hgraph⟩ := append_eq_ok happend
    have hnode := Graph.getElem?_push d.graph ⟨.output, operands, [],
      .widths ((observeParts i sized observed).map (·.2))⟩ d.graph.size
    rw [if_pos rfl] at hnode
    exact ⟨Nat.le_refl _, _, hgraph ▸ hnode, rfl, rfl⟩
  · cases hr

/-- Only outputs give way to nodes. -/
theorem eq_value_of_operandRule? {action : Action} {op : Opcode} {rule : OperandRule}
    (h : operandRule? action op = some rule) (hop : op ≠ .output) (T : Target) (id i : Nat) :
    ∃ x, rule T id i = Successor.value <$> x := by
  cases action
  case legal => cases h
  all_goals
    simp only [operandRule?, Widen.operand?, Halve.operand?, Soften.operand?,
      DoubleDouble.operand?, Scalarize.operand?, Split.operand?] at h
    split at h <;> cases h
  all_goals
    first
    | exact absurd rfl hop
    | exact ⟨_, rfl⟩

theorem appends_operandRule {action : Action} {op : Opcode} {rule : OperandRule}
    (h : operandRule? action op = some rule) (T : Target) (id i : Nat) :
    (rule T id i).Appends := by
  by_cases hop : op = .output
  · subst hop
    cases action with
    | legal => cases h
    | _ =>
      cases h
      exact .bind fun _ => .bind fun _ => appends_outputOf _ _ _
  · obtain ⟨x, hx⟩ := eq_value_of_operandRule? h hop T id i
    rw [hx]
    exact appends_value x

end Edit

namespace Engine

open Run

variable {T : Target} {id i : Nat} {n : Node} {s s' : Run} {rank : Nat → Nat}

/-- Node `id` gave way to a new output, or its only result to a value. -/
theorem Revised.cases (h : Revised T id n i s s') :
    (∃ new m, n.results = [] ∧ s.draft.graph.size ≤ new ∧ s.draft.Grows s'.draft ∧
      s'.draft.graph.nodes[new]? = some m ∧ m.opcode = .output ∧ m.results = [] ∧
      s'.states.get new ≠ .new ∧ s'.root = if s.root = id then new else s.root) ∨
    ∃ w s₁, n.results.length = 1 ∧ s.draft.Grows s₁.draft ∧ s₁.root = s.root ∧
      Replaced ⟨id, 0⟩ w s₁ s' := by
  obtain ⟨v, t, rule, successor, s₁, _, _, _, hrule, hran, hgave⟩ := h
  have hgrows := hran.grows
  obtain ⟨_, hroot⟩ := hran.stays
  cases successor with
  | node new =>
    obtain ⟨s₀, hq, hrun, _⟩ := hran
    obtain ⟨hnew, m, hm, hop, hres⟩ := Edit.appends_operandRule hrule T id i _ _ _ hrun
    obtain ⟨m', hm', hlen⟩ := hgave.length
    rw [hm] at hm'
    cases hm'
    rw [hres] at hlen
    have hempty : n.results = [] := List.eq_nil_of_length_eq_zero hlen.symm
    rw [hq.graph] at hnew
    have hquiet := hgave.empty hempty
    refine .inl ⟨new, m, hempty, hnew, hgrows.trans hquiet.grows, ?_, hop, hres, hgave.known, ?_⟩
    · rw [hgave.nodes, hm]
    · rw [hgave.root, hroot]
  | value w => exact .inr ⟨w, s₁, hgave.1, hgrows, hroot, hgave.2⟩

/-- Nodes stay as they are, and only results of node `id` get other canonical forms. -/
structure Framed (id : Nat) (s s' : Run) : Prop where
  nodes : ∀ (j : Nat) m, s.draft.graph.nodes[j]? = some m → s'.draft.graph.nodes[j]? = some m
  canon : ∀ u, (s.draft.replaced.canon u).node ≠ id →
    s'.draft.replaced.canon u = s.draft.replaced.canon u
  next : ∀ u, u.node ≠ id →
    (s'.draft.replaced.next? u = none ↔ s.draft.replaced.next? u = none)

theorem Framed.typeOf? (h : Framed id s s') (v : Value) (t : ValueType)
    (ht : s.draft.graph.typeOf? v = some t) : s'.draft.graph.typeOf? v = some t := by
  obtain ⟨m, hm, hres⟩ := Option.bind_eq_some_iff.1 ht
  rw [Graph.typeOf?, h.nodes _ m hm]
  exact hres

theorem Framed.size_le (h : Framed id s s') : s.draft.graph.size ≤ s'.draft.graph.size := by
  refine Nat.le_of_not_lt fun hlt => ?_
  have hm := h.nodes _ _ (Array.getElem?_eq_getElem hlt)
  exact Nat.lt_irrefl _ (Graph.lt_size_of_getElem? hm)

theorem framed_of_grows (hd : s.draft.replaced.Descends rank) (hg : s.draft.Grows s'.draft) :
    Framed id s s' :=
  ⟨fun _ _ => hg.graph.getElem?, fun u _ => by rw [hd.canon_shortens hg.replaced],
    fun u _ => hg.replaced.next?_eq_none u⟩

theorem Framed.trans {s'' : Run} (h : Framed id s s') (h' : Framed id s' s'') :
    Framed id s s'' where
  nodes j m hm := h'.nodes j m (h.nodes j m hm)
  canon u hu := by rw [h'.canon u (by rwa [h.canon u hu]), h.canon u hu]
  next u hu := (h'.next u hu).trans (h.next u hu)

theorem Visited.framed (h : Visited T id n s s') (hd : s.draft.replaced.Descends rank) :
    Framed id s s' := by
  cases h with
  | converted t _ _ hc =>
    obtain ⟨rule, kind, parts, s₁, _, _, hran, hrec⟩ := hc
    have hg := hran.grows
    refine (framed_of_grows hd hg).trans ⟨fun j m hm => hrec.graph ▸ hm, fun u _ => ?_,
      fun u _ => hrec.replaced.next?_eq_none u⟩
    rw [(hd.shortens hg.replaced).canon_shortens hrec.replaced]
  | kept _ hq _ => exact framed_of_grows hd hq.draft.grows
  | revised i _ hr =>
    rcases hr.cases with ⟨_, _, _, _, hg, _⟩ | ⟨w, s₁, _, hg, _, hrep⟩
    · exact framed_of_grows hd hg
    · refine (framed_of_grows hd hg).trans ⟨fun j m hm => hrep.nodes ▸ hm, fun u hu => ?_,
        fun u hu => ?_⟩
      · rw [hrep.canon, if_neg fun heq => hu (by rw [heq])]
      · rw [hrep.next]
        exact and_iff_right fun heq => hu (by rw [heq])

namespace Stepped

theorem framed (h : Stepped T id n s s') (hd : s.draft.replaced.Descends rank) :
    Framed id s s' := by
  obtain ⟨worklist, visited, s₁, rank₁, hvisited, h₁, hk⟩ := h
  have hf := hvisited.framed hd
  refine ⟨fun j m hm => ?_, fun u hu => ?_, fun u hu => ?_⟩
  · rw [hk.graph]
    exact hf.nodes j m hm
  · rw [hk.canon_eq h₁.ordered.descends]
    exact hf.canon u hu
  · exact (hk.replaced.next?_eq_none u).trans (hf.next u hu)

theorem processed_iff (h : Stepped T id n s s') (j : Nat) :
    s'.states.get j = .processed ↔ j = id ∨ s.states.get j = .processed := by
  obtain ⟨worklist, visited, s₁, rank₁, hvisited, _, hk⟩ := h
  rw [hk.processed_iff, get_mark]
  split
  · simp [*]
  · next hne =>
    rw [hvisited.stays.processed_iff]
    simp [hne]

theorem analyzed (h : Stepped T id n s s') {j : Nat} (hj : s.states.get j ≠ .new) :
    s'.states.get j ≠ .new := by
  obtain ⟨worklist, visited, s₁, rank₁, hvisited, _, hk⟩ := h
  refine hk.analyzed j ?_
  rw [get_mark]
  split
  · simp
  · exact hvisited.stays.analyzed j hj

/-- The root stays, or it was the visited node and is a new output now. -/
theorem root (h : Stepped T id n s s') : s'.root = s.root ∨
    s.root = id ∧ s.draft.graph.size ≤ s'.root ∧ s'.states.get s'.root ≠ .new ∧
      ∃ m, s'.draft.graph.nodes[s'.root]? = some m ∧ m.opcode = .output ∧ m.results = [] := by
  obtain ⟨worklist, visited, s₁, rank₁, hvisited, _, hk⟩ := h
  have hroot : s'.root = s₁.root := hk.root
  rw [hroot, hk.graph]
  cases hvisited with
  | converted t _ _ hc =>
    obtain ⟨rule, kind, parts, s₂, _, _, hran, hrec⟩ := hc
    exact .inl (hrec.root.trans hran.stays.2)
  | kept _ hq _ => exact .inl hq.root
  | revised i _ hr =>
    rcases hr.cases with ⟨new, m, _, hnew, _, hm, hop, hres, hknown, hroot₁⟩ |
      ⟨w, s₂, _, _, hroot₂, hrep⟩
    · dsimp only at hroot₁
      split at hroot₁
      · next hid =>
        rw [hroot₁]
        refine .inr ⟨hid, hnew, hk.analyzed new ?_, m, hm, hop, hres⟩
        rw [get_mark]
        split
        · simp
        · exact hknown
      · exact .inl hroot₁
    · exact .inl (hrep.root.trans hroot₂)

end Stepped

end Engine

end Dataflow.Legal
