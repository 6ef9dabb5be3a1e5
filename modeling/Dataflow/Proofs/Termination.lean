import Dataflow.Proofs.Conversions
import Mathlib.Algebra.BigOperators.Group.Multiset.Basic
import Mathlib.Logic.Hydra

/-!
# Termination

A step takes a node off the unprocessed ones and adds nodes that are lighter than it. So the
multiset of the burdens of the unprocessed nodes becomes smaller with every step, and the loop comes
to an end.
-/

namespace Dataflow.Legal

open Engine

variable {T : Target} {limit : Limit} {strict total : Prop} {g g' : Graph} {n : Node}
  {ts : List ValueType} {t : ValueType} {id : Nat}

/-! ### New nodes are lighter -/

namespace Engine

variable {s s' : Run} {i : Nat}

theorem GaveWay.nodes {successor : Successor} (h : GaveWay id n s s' successor) :
    s'.draft.graph.nodes = s.draft.graph.nodes := by
  cases successor with
  | node new => exact Succeeded.nodes h
  | value w => exact h.2.nodes

/-- The burden of a node, from the types of its operands. -/
def burdenAt (T : Target) (g : Graph) (id : Nat) : Nat ×ₗ Nat :=
  (g.nodes[id]?).elim (toLex (0, 0)) fun n =>
    T.burden n.opcode (n.results ++ n.operands.filterMap g.typeOf?)

theorem burdenAt_eq (hn : g.nodes[id]? = some n)
    (hreads : n.operands.map g.typeOf? = ts.map some) :
    burdenAt T g id = T.burden n.opcode (n.results ++ ts) := by
  have hts : n.operands.filterMap g.typeOf? = ts := by
    have h := congrArg (List.filterMap fun t => t) hreads
    rw [List.filterMap_map, List.filterMap_map] at h
    exact h.trans List.filterMap_some
  rw [burdenAt, hn, Option.elim_some, hts]

theorem fresh_lighter {V : RewriteSpec} {d d' : Draft} (hV : V.Describes T id n d d')
    (hm : V.measured)
    (hfresh : V.Fresh d'.graph) {j : Nat} (hj : d.graph.size ≤ j) (hlt : j < d'.graph.size) :
    burdenAt T d'.graph j < burdenAt T d'.graph id := by
  obtain ⟨rfl, rfl, rfl, rfl, hfinal, _⟩ := hV
  obtain ⟨m, hm'⟩ : ∃ m, d'.graph.nodes[j]? = some m := ⟨_, Array.getElem?_eq_getElem hlt⟩
  obtain ⟨us, hgood⟩ := hfresh j m hj hm'
  rw [← hfinal] at hm' ⊢
  rw [burdenAt_eq hm' hgood.reads, burdenAt_eq V.node_final V.reads, ← V.ceiling_eq]
  exact hgood.admitted.lighter hm

/-- The new nodes of a visit are lighter than the visited node. -/
theorem Visited.lighter (hvisits : s.draft.Visits T limit strict total id n ts)
    (htotal : total → strict)
    (hlaned : ¬ limit.liberal ∧
      ∀ t ∈ n.results ++ ts, T.classify t = .legal → T.classify t.scalar = .legal)
    (hv : Visited T id n s s') {j : Nat} (hj : s.draft.graph.size ≤ j)
    (hlt : j < s'.draft.graph.size) :
    burdenAt T s'.draft.graph j < burdenAt T s'.draft.graph id := by
  cases hv with
  | converted t hres hillegal hc =>
    obtain ⟨d, d', kind, parts, hq, hg, hrule, hgraph, _⟩ := hc.drafts hres
    have hV := RewriteSpec.describes_typedSpec (hvisits.quiet hq) hg.graph
      ⟨t, by simp [hres], hillegal⟩ htotal True fun _ => hlaned
    rw [hgraph] at hlt ⊢
    rw [← hq.graph] at hj
    exact fresh_lighter hV trivial (hrule _ hV).1 hj hlt
  | kept _ hq _ =>
    rw [hq.graph] at hlt
    exact absurd hlt (Nat.not_lt_of_le hj)
  | revised i hlegal hr =>
    obtain ⟨d, d', v, u, successor, hq, hg, hv, hu, hillegal, hrule, s₁, rfl, _, hgave⟩ :=
      hr.drafts hlegal
    obtain ⟨_, hi, hu'⟩ := hvisits.type_at hv
    cases hu.symm.trans hu'
    have hV := RewriteSpec.describes_typedSpec (hvisits.quiet hq) hg.graph
      ⟨u, List.mem_append_right _ (List.mem_of_getElem? hi), hillegal⟩ htotal True fun _ => hlaned
    have hburden (k : Nat) : burdenAt T s'.draft.graph k = burdenAt T s₁.draft.graph k := by
      rw [burdenAt, burdenAt, hgave.nodes, Graph.typeOf?_congr hgave.nodes]
    rw [Graph.size, hgave.nodes] at hlt
    rw [hburden, hburden]
    rw [← hq.graph] at hj
    exact fresh_lighter hV trivial (hrule _ hV hi).1 hj hlt

end Engine

/-! ### Steps -/

namespace Run

variable {s s' : Run} {rank : Nat → Nat}

/-- The nodes that are not processed. -/
def unprocessed (s : Run) : Finset Nat :=
  (Finset.range s.draft.graph.size).filter fun j => s.states.get j ≠ .processed

/-- The burdens of the nodes that are not processed. -/
def remaining (T : Target) (s : Run) : Multiset (Nat ×ₗ Nat) :=
  ∑ j ∈ s.unprocessed, {burdenAt T s.draft.graph j}

theorem mem_unprocessed {j : Nat} :
    j ∈ s.unprocessed ↔ j < s.draft.graph.size ∧ s.states.get j ≠ .processed := by
  rw [unprocessed, Finset.mem_filter, Finset.mem_range]

/-- A step takes off the visited node and adds new ones. -/
theorem unprocessed_stepped (hd : s.draft.replaced.Descends rank) (h : Stepped T id n s s') :
    s'.unprocessed = s.unprocessed.erase id ∪
      s'.unprocessed.filter (s.draft.graph.size ≤ ·) := by
  have hsize := (h.framed hd).size_le
  ext j
  rw [Finset.mem_union, Finset.mem_erase, Finset.mem_filter, mem_unprocessed, mem_unprocessed, Ne,
    h.processed_iff, not_or]
  constructor
  · rintro ⟨hlt, hne, hj⟩
    by_cases hlt' : j < s.draft.graph.size
    · exact .inl ⟨hne, hlt', hj⟩
    · exact .inr ⟨⟨hlt, hne, hj⟩, Nat.le_of_not_lt hlt'⟩
  · rintro (⟨hne, hlt, hj⟩ | ⟨hj, _⟩)
    · exact ⟨Nat.lt_of_lt_of_le hlt hsize, hne, hj⟩
    · exact hj

section
variable (h : s.Typed T limit strict total) (hT : T.Regular) (htotal : total → strict)
  (hs : s.Sound none rank) {rest : List Nat} (hw : s.worklist = id :: rest)
  (hn : s.draft.graph.nodes[id]? = some n) (hstep : Stepped T id n s s')
include h hs

theorem Typed.burdenAt_stepped (hstep : Stepped T id n s s') {j : Nat} (hj : j ∈ s.unprocessed) :
    burdenAt T s'.draft.graph j = burdenAt T s.draft.graph j := by
  have hframed := hstep.framed hs.ordered.descends
  have hm := Array.getElem?_eq_getElem (mem_unprocessed.1 hj).1
  obtain ⟨us, hus⟩ := h.nodes j _ hm
  rw [burdenAt_eq hm hus.reads, burdenAt_eq (hframed.nodes j _ hm)
    (Graph.reads_mono hframed.typeOf? hus.reads)]

include hT htotal hw hn hstep

/-- Every step makes less of what remains. -/
theorem Typed.remaining_stepped (hlaned : ∀ g n ts, Suited T limit strict total g n ts →
      ¬ limit.liberal ∧
        ∀ t ∈ n.results ++ ts, T.classify t = .legal → T.classify t.scalar = .legal) :
    Relation.CutExpand (· < ·) (s'.remaining T) (s.remaining T) := by
  obtain ⟨ts, hvisits⟩ := h.visits_head hT hs hw hn
  have hid : id ∈ s.unprocessed :=
    mem_unprocessed.2 ⟨Graph.lt_size_of_getElem? hn, by rw [hs.ready_head hw]; simp⟩
  have hdisjoint : Disjoint (s.unprocessed.erase id)
      (s'.unprocessed.filter (s.draft.graph.size ≤ ·)) := by
    rw [Finset.disjoint_left]
    intro j hj hj'
    have hlt := (mem_unprocessed.1 (Finset.mem_of_mem_erase hj)).1
    exact absurd hlt (Nat.not_lt_of_le (Finset.mem_filter.1 hj').2)
  have hold : ∑ j ∈ s.unprocessed.erase id, ({burdenAt T s'.draft.graph j} : Multiset _) =
      ∑ j ∈ s.unprocessed.erase id, {burdenAt T s.draft.graph j} :=
    Finset.sum_congr rfl fun j hj => by
      rw [h.burdenAt_stepped hs hstep (Finset.mem_of_mem_erase hj)]
  rw [remaining, unprocessed_stepped hs.ordered.descends hstep, Finset.sum_union hdisjoint, hold,
    remaining, ← Finset.sum_erase_add _ _ hid, Relation.cutExpand_add_left]
  apply Relation.cutExpand_singleton
  intro x hx
  obtain ⟨j, hj, hx⟩ := Multiset.mem_sum.1 hx
  obtain ⟨hj, hge⟩ := Finset.mem_filter.1 hj
  rw [Multiset.mem_singleton.1 hx, ← h.burdenAt_stepped hs hstep hid]
  have hlt := (mem_unprocessed.1 hj).1
  obtain ⟨worklist, visited, s₁, _, hvisited, _, hk⟩ := hstep
  have hgraph : s'.draft.graph = s₁.draft.graph := hk.graph
  rw [hgraph] at hlt ⊢
  exact hvisited.lighter (s := { s with worklist, visited }) hvisits htotal
    (hlaned _ _ _ hvisits.suited) hge hlt

end

end Run

/-! ### The loop -/

namespace Engine

variable {config : Config} {root : NodeId} {ids : List NodeId} {s : Run} {k fuel : Nat}

/-- A loop that does not run out of fuel does the same with more of it. -/
theorem loop_of_le (hk : k ≤ fuel) (hends : ∀ s', loop T k s ≠ .error .exhausted s') :
    loop T fuel s = loop T k s := by
  induction k generalizing s fuel with
  | zero =>
    cases hw : s.worklist with
    | nil => rw [loop_of_nil hw, loop_of_nil hw]
    | cons id rest => exact absurd (loop_zero_of_cons hw) (hends s)
  | succ k ih =>
    obtain ⟨fuel, rfl⟩ : ∃ m, fuel = m + 1 := ⟨fuel - 1, by omega⟩
    cases hw : s.worklist with
    | nil => rw [loop_of_nil hw, loop_of_nil hw]
    | cons id rest =>
      rw [loop_succ_of_cons hw] at hends ⊢
      rw [loop_succ_of_cons hw]
      show EStateM.bind (step T id) _ _ = EStateM.bind (step T id) _ _
      change ∀ s', EStateM.bind (step T id) _ _ ≠ _ at hends
      unfold EStateM.bind at hends ⊢
      cases hstep : step T id { s with worklist := rest } with
      | error e s' => rfl
      | ok _ s' =>
        rw [hstep] at hends
        exact ih (by omega) hends

/-- From every head of a run on a graph of nodes that suit the target, the loop comes to its end. -/
theorem Head.loop_ends (hT : T.Regular) (htotal : total → strict) (hg : Rooted g root)
    (hnodes : ∀ (id : Nat) n, g.nodes[id]? = some n → ∃ ts, Suited T limit strict total g n ts)
    (hlaned : ∀ g n ts, Suited T limit strict total g n ts →
      ¬ limit.liberal ∧ ∀ t ∈ n.results ++ ts, T.classify t = .legal → T.classify t.scalar = .legal)
    (hs : Head T config g ids s) : ∃ k, ∀ s', loop T k s ≠ .error .exhausted s' := by
  have hwf : WellFounded (Relation.CutExpand fun x y : Nat ×ₗ Nat => x < y) :=
    WellFounded.cutExpand wellFounded_lt
  induction hr : s.remaining T using hwf.induction generalizing s ids with
  | _ x ih =>
  subst hr
  cases hw : s.worklist with
  | nil => exact ⟨0, fun s' => by rw [loop_of_nil hw]; simp⟩
  | cons id rest =>
    cases hstep : step T id { s with worklist := rest } with
    | error e s₁ =>
      have hrefused := Stops.refused hT htotal hg hnodes ⟨ids, rest, id, s, s₁, hs, hw, hstep⟩
      refine ⟨1, fun s' hl => ?_⟩
      rw [loop_succ_of_cons hw] at hl
      change EStateM.bind (step T id) _ _ = _ at hl
      rw [EStateM.bind, hstep] at hl
      cases hl
      exact hrefused.1
    | ok _ s₁ =>
      obtain ⟨n, rank, hn, hsound, hends⟩ := hs.next hg hw
      have hstepped := (hends (E := fun _ => True) fun _ _ => trivial).of_ok hstep
      have hless := (hs.typed hT htotal hg hnodes).remaining_stepped hT htotal hsound hw hn hstepped
        hlaned
      obtain ⟨k, hk⟩ := ih _ hless (hs.visited hw hstep) rfl
      refine ⟨k + 1, fun s' hl => hk s' ?_⟩
      rw [loop_succ_of_cons hw] at hl
      change EStateM.bind (step T id) _ _ = _ at hl
      rwa [EStateM.bind, hstep] at hl

/-- What is left to do at a head. -/
theorem Head.loop_eq (hs : Head T config g ids s) : ∃ s₀, Run.start g = .ok s₀ ∧
    ∀ fuel, (prepare config >>= fun _ => loop T (ids.length + fuel)) s₀ = loop T fuel s := by
  induction hs with
  | @seeded s₀ s hs hp =>
    refine ⟨s₀, hs, fun fuel => ?_⟩
    show EStateM.bind (prepare config) _ _ = _
    rw [EStateM.bind, hp, List.length_nil, Nat.zero_add]
  | @visited ids rest id s s' _ hw hstep ih =>
    obtain ⟨s₀, hs₀, hloop⟩ := ih
    refine ⟨s₀, hs₀, fun fuel => ?_⟩
    rw [List.length_cons, Nat.add_assoc, Nat.add_comm 1, hloop, loop_succ_of_cons hw]
    show EStateM.bind (step T id) _ _ = _
    rw [EStateM.bind, hstep]

/-- A run on such a graph comes to its end: the number of its visits is bounded, and with enough
fuel its result does not depend on the fuel. -/
theorem legalize_ends (hT : T.Regular) (htotal : total → strict) (hg : Rooted g root)
    (hnodes : ∀ (id : Nat) n, g.nodes[id]? = some n → ∃ ts, Suited T limit strict total g n ts)
    (hlaned : ∀ g n ts, Suited T limit strict total g n ts →
      ¬ limit.liberal ∧ ∀ t ∈ n.results ++ ts, T.classify t = .legal → T.classify t.scalar = .legal)
    (config : Config) : ∃ bound, (∀ ids s, Head T config g ids s → ids.length ≤ bound) ∧
      legalize T config bound g ≠ .error .exhausted ∧
      ∀ fuel, bound ≤ fuel → legalize T config fuel g = legalize T config bound g := by
  cases hs : Run.start g with
  | error e =>
    obtain ⟨hl, he⟩ := start_eq_error hs
    refine ⟨0, fun ids s hhead => ?_, fun hl' => ?_, fun fuel _ => by rw [hl, hl]⟩
    · obtain ⟨s₀, hs₀, _⟩ := hhead.loop_eq
      rw [hs] at hs₀
      cases hs₀
    · rw [hl] at hl'
      cases hl'
      rcases he with he | ⟨_, he⟩ <;> cases he
  | ok s₀ =>
    cases hp : prepare config s₀ with
    | error e s₁ => exact ((ends_prepare config hs).of_error hp).elim
    | ok _ s₁ =>
      have hseeded : Head T config g [] s₁ := .seeded hs hp
      obtain ⟨k, hk⟩ := hseeded.loop_ends hT htotal hg hnodes hlaned
      have hloop (fuel : Nat) : (prepare config >>= fun _ => loop T fuel) s₀ = loop T fuel s₁ := by
        show EStateM.bind (prepare config) _ _ = _
        rw [EStateM.bind, hp]
      refine ⟨k, fun ids s hhead => ?_, fun hl => ?_, fun fuel hfuel => ?_⟩
      · refine Nat.le_of_not_lt fun hlt => ?_
        cases hhead with
        | seeded => exact absurd hlt (Nat.not_lt_zero k)
        | @visited ids rest id s _ hhead hw _ =>
          obtain ⟨s₀', hs₀', hrest⟩ := hhead.loop_eq
          cases hs.symm.trans hs₀'
          have hzero := hrest 0
          rw [Nat.add_zero, hloop, loop_zero_of_cons hw, loop_of_le (Nat.le_of_lt_succ hlt) hk]
            at hzero
          exact hk s hzero
      · cases hrun : loop T k s₁ with
        | error e s =>
          rw [legalize_eq T config k hs, hloop, hrun] at hl
          cases hl
          exact hk s hrun
        | ok _ s =>
          have hc : Completes T config k g s := ⟨s₀, hs, (hloop k).trans hrun⟩
          rw [hc.legalize_eq] at hl
          rcases Run.conclude_eq_error hl with ⟨_, hcheck⟩ | ⟨_, _, hf⟩
          · rw [hc.check_eq_ok hg] at hcheck
            cases hcheck
          · cases hf
      · rw [legalize_eq T config fuel hs, legalize_eq T config k hs, hloop, hloop, loop_of_le hfuel hk]

end Engine

/-- A run on a well-typed graph visits finitely many nodes, for every target whose legal vectors
have legal lanes: the loop empties the worklist or ends with an error, whatever the fuel is from some
bound on. -/
theorem legalize_terminates {d : Description} {T : Target} (hT : d.target = .ok T)
    (hlaned : T.Laned) (config : Config) {g : Graph} {root : NodeId} (hg : WellTyped g root) :
    ∃ bound, (∀ ids s, Head T config g ids s → ids.length ≤ bound) ∧
      legalize T config bound g ≠ .error .exhausted ∧
      ∀ fuel, bound ≤ fuel → legalize T config fuel g = legalize T config bound g :=
  legalize_ends (Description.target_regular hT) id hg.toRooted (hg.suited T)
    (fun _ _ _ _ => ⟨id, fun t _ => hlaned t⟩) config

/-- A vector of eight floats, seen as integers. -/
def reinterpretation : Graph :=
  (((Graph.empty.push { opcode := .argument, results := [.v8f32], attr := .arg 0 0 }).push
    { opcode := .bitcast, operands := [⟨0, 0⟩], results := [.v8i32] }).push
    { opcode := .output, operands := [⟨1, 0⟩], attr := .widths [256] }).setRoot 2

theorem laned_of_description {d : Description}
    (h : ∀ t, (d.target.toOption.map fun T =>
      decide (T.classify t = .legal → T.classify t.scalar = .legal)) = some true) :
    ∃ T, d.target = .ok T ∧ T.Laned := by
  obtain ⟨T, hT, hlaned⟩ := Description.exists_target_forall h
  exact ⟨T, hT, fun t => of_decide_eq_true (hlaned t)⟩

theorem legalize_terminates_reinterpretation :
    (∃ T, Target.int32.target = .ok T ∧ T.Laned) ∧
    ∃ T, Target.simd128.target = .ok T ∧ T.Laned ∧ WellTyped reinterpretation 2 ∧
      ∃ bound, ∀ fuel, bound ≤ fuel → legalize T {} fuel reinterpretation ≠ .error .exhausted := by
  have hg : WellTyped reinterpretation 2 := by
    refine ⟨⟨rfl, ⟨_, rfl, rfl, rfl⟩, fun id n hn hid => ?_⟩, fun id n hn => ?_⟩
    all_goals
      have hlt : id < 3 := Graph.lt_size_of_getElem? hn
      obtain rfl | rfl | rfl : id = 0 ∨ id = 1 ∨ id = 2 := by omega
    all_goals cases hn
    · rfl
    · rfl
    · exact absurd rfl hid
    · exact ⟨[], rfl, .inr ⟨.v8f32, rfl, .argument⟩⟩
    · exact ⟨[.v8f32], rfl, .inr ⟨.v8i32, rfl, .bitcast rfl⟩⟩
    · exact ⟨[.v8i32], rfl, .inl ⟨rfl, rfl⟩⟩
  refine ⟨laned_of_description fun t => by cases t <;> decide, ?_⟩
  obtain ⟨T, hT, hlaned⟩ := laned_of_description (d := Target.simd128)
    fun t => by cases t <;> decide
  obtain ⟨bound, _, hne, heq⟩ := legalize_terminates hT hlaned {} hg
  refine ⟨T, hT, hlaned, hg, bound, fun fuel hfuel => ?_⟩
  rw [heq fuel hfuel]
  exact hne

end Dataflow.Legal
