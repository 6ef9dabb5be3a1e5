import Dataflow.Proofs.Acyclic
import Dataflow.Proofs.Termination

/-!
# Totality

A run on a well-typed graph fails only where a rule does: it starts, and at the end of the loop the
live part exists. For scalar integer code there is a rule for everything, and no rule fails, so a run
succeeds.
-/

namespace Dataflow.Legal

open Engine

variable {T : Target} {limit : Limit} {strict total : Prop} {config : Config} {fuel : Nat}
  {g : Graph} {s : Run} {root : NodeId}

/-- A run on a graph whose nodes read earlier ones starts. -/
theorem start_eq_ok (hg : Rooted g root) (hforward : Forward g)
    (hnodes : ∀ (id : Nat) n, g.nodes[id]? = some n → ∃ ts, Suited T limit strict total g n ts) :
    ∃ s, Run.start g = .ok s := by
  have hd : g.Descends .ok root fun id => id := fun id n v w _ hn hv hw => by
    cases hw
    exact hforward id n v hn hv
  obtain ⟨n, hn, _⟩ := hg.output
  obtain ⟨h, ids, hlive, _⟩ := Graph.live_ok hd (Graph.lt_size_of_getElem? hn) fun id n v hn hv => by
    obtain ⟨ts, hts⟩ := hnodes id n hn
    obtain ⟨t, _, ht⟩ := hts.typeOf? hv
    exact ⟨v, t, rfl, ht⟩
  simp only [Run.start, hg.root_eq, hlive]
  exact ⟨_, rfl⟩

/-- At the end of the loop the live part exists. -/
theorem Engine.Completes.result_eq_ok (hc : Completes T config fuel g s) (hT : T.Regular)
    (htotal : total → strict) (hg : Rooted g root)
    (hnodes : ∀ (id : Nat) n, g.nodes[id]? = some n → ∃ ts, Suited T limit strict total g n ts) :
    ∃ h, s.result = .ok h := by
  obtain ⟨_, ids, hhead⟩ := hc.head
  obtain ⟨⟨rank, hsound⟩, _⟩ := hhead.sound
  have htyped := hhead.typed hT htotal hg hnodes
  have hd := hsound.ordered.descends
  obtain ⟨h, ids, hresult, _⟩ := Graph.live_ok (hsound.ordered.graded.graph_descends s.root)
    (hsound.scheduled.known _ (hhead.settled hg).root_known) fun id n v hn hv => by
      obtain ⟨ts, hts⟩ := htyped.nodes id n hn
      obtain ⟨t, _, ht⟩ := hts.typeOf? hv
      exact ⟨_, t, hd.follow_eq v, (htyped.typeOf?_canon hd v).trans ht⟩
  exact ⟨h, hresult⟩

/-- So a run that comes to the end of its loop succeeds, checked or not. -/
theorem Engine.Completes.legalize_eq_ok (hc : Completes T config fuel g s) (hT : T.Regular)
    (htotal : total → strict) (hg : Rooted g root)
    (hnodes : ∀ (id : Nat) n, g.nodes[id]? = some n → ∃ ts, Suited T limit strict total g n ts) :
    ∃ h, legalize T config fuel g = .ok h := by
  obtain ⟨h, hresult⟩ := hc.result_eq_ok hT htotal hg hnodes
  refine ⟨h, ?_⟩
  rw [hc.legalize_eq, Run.conclude, hc.check_eq_ok hg, hresult]
  cases config.verify <;> rfl

/-- What a run can end with: a graph, no more fuel, or the error of a step. -/
theorem Engine.legalize_cases (hT : T.Regular) (htotal : total → strict) (hg : Rooted g root)
    (hforward : Forward g)
    (hnodes : ∀ (id : Nat) n, g.nodes[id]? = some n → ∃ ts, Suited T limit strict total g n ts)
    (config : Config) (fuel : Nat) :
    (∃ h, legalize T config fuel g = .ok h) ∨ ∃ e, legalize T config fuel g = .error e ∧
      (e = .exhausted ∨ Stops T config g e) := by
  obtain ⟨s, hs⟩ := start_eq_ok hg hforward hnodes
  cases hrun : (prepare config >>= fun _ => loop T fuel) s with
  | ok _ s' =>
    have hc : Completes T config fuel g s' := ⟨s, hs, hrun⟩
    exact .inl (hc.legalize_eq_ok hT htotal hg hnodes)
  | error e s' =>
    refine .inr ⟨e, ?_, (ends_prepare_loop T config fuel hs).of_error hrun⟩
    rw [legalize_eq T config fuel hs, hrun]

/-- Scalar integer code: nodes that compute words from earlier words, below an output. Constants are
in range, arguments start early enough to be read at a wider type, and the output observes at most
the whole of each value. Comparisons have a result that is not expanded, and high products are not
promoted. -/
structure ScalarCode (T : Target) (g : Graph) (root : NodeId) : Prop extends Rooted g root where
  forward : Forward g
  nodes : ∀ (id : Nat) n, g.nodes[id]? = some n → ∃ ts, n.operands.map g.typeOf? = ts.map some ∧
    n.Typed (fun _ _ => False) ts ∧ n.Attributed (fun offset _ => offset < 2 ^ 31) ts ∧
    T.Plain n.opcode (n.results ++ ts)

theorem ScalarCode.suited (hg : ScalarCode T g root) (id : Nat) (n : Node)
    (hn : g.nodes[id]? = some n) : ∃ ts, Suited T (.top False) True True g n ts := by
  obtain ⟨ts, hreads, htyped, hattr, hplain⟩ := hg.nodes id n hn
  refine ⟨ts, hreads, ?_, fun _ => ?_, False.elim, fun _ => hplain⟩
  · exact htyped.imp_right fun ⟨t, hres, hsig⟩ => ⟨t, hres, .inl (hsig.mono fun _ _ => False.elim)⟩
  · exact hattr.mono fun _ t hlt => Target.within_of_lt hlt t (by decide)

/-- Scalar integer code is always made legal, on every target whose legal words have no gap: from
some fuel on a run returns a graph, checked or not, and before it only the fuel can be missing. -/
theorem legalize_scalarCode {d : Description} {T : Target} (hT : d.target = .ok T)
    (hcontiguous : T.Contiguous) (config : Config) {g : Graph} {root : NodeId}
    (hg : ScalarCode T g root) :
    (∃ bound h, ∀ fuel, bound ≤ fuel → legalize T config fuel g = .ok h) ∧
    ∀ fuel e, legalize T config fuel g = .error e → e = .exhausted := by
  have hregular := Description.target_regular hT
  have hcases := legalize_cases hregular id hg.toRooted hg.forward hg.suited config
  have hstops (e : Error) (hstop : Stops T config g e) : False :=
    (hstop.refused hregular id hg.toRooted hg.suited).2 hcontiguous trivial
  constructor
  · obtain ⟨bound, _, hends, hstable⟩ := legalize_ends hregular id hg.toRooted hg.suited
      (fun _ n ts hts => ⟨id, fun t ht hlegal => by
        rwa [((hts.plain trivial).words t ht).scalar_eq]⟩) config
    obtain ⟨h, hh⟩ | ⟨e, he, rfl | hstop⟩ := hcases bound
    · exact ⟨bound, h, fun fuel hfuel => (hstable fuel hfuel).trans hh⟩
    · exact absurd he hends
    · exact (hstops e hstop).elim
  · intro fuel e he
    obtain ⟨h, hh⟩ | ⟨e', he', hcause⟩ := hcases fuel
    · rw [hh] at he
      cases he
    · rw [he'] at he
      cases he
      exact hcause.resolve_right (hstops e)

theorem plain_of_ne {op : Opcode} {ts : List ValueType} (hop : op.isPlain = true)
    (hwords : ∀ t ∈ ts, t.IsWord) (hmulhu : op ≠ .int .mulhu) (hsetcc : op ≠ .setcc) :
    T.Plain op ts :=
  ⟨hop, hwords, fun h => absurd h hmulhu, fun h => absurd h hsetcc⟩

/-- The sign of a quotient of 128-bit numbers, by a comparison. -/
def quotientSign : Graph :=
  (((((Graph.empty.push { opcode := .argument, results := [.i128], attr := .arg 0 0 }).push
    { opcode := .constant, results := [.i128], attr := .imm 10 }).push
    { opcode := .int .sdiv, operands := [⟨0, 0⟩, ⟨1, 0⟩], results := [.i128] }).push
    { opcode := .setcc, operands := [⟨2, 0⟩, ⟨1, 0⟩], results := [.i1], attr := .cond .slt }).push
    { opcode := .output, operands := [⟨2, 0⟩, ⟨3, 0⟩], attr := .widths [128, 1] }).setRoot 4

theorem quotientSign_cases {id : Nat} {n : Node} (hn : quotientSign.nodes[id]? = some n) :
    id = 0 ∨ id = 1 ∨ id = 2 ∨ id = 3 ∨ id = 4 := by
  have hlt : id < 5 := Graph.lt_size_of_getElem? hn
  omega

theorem rooted_quotientSign : Rooted quotientSign 4 := by
  refine ⟨rfl, ⟨_, rfl, rfl, rfl⟩, fun id n hn hid => ?_⟩
  obtain rfl | rfl | rfl | rfl | rfl := quotientSign_cases hn
  all_goals cases hn
  all_goals first | rfl | exact absurd rfl hid

theorem forward_quotientSign : Forward quotientSign := by
  intro id n v hn hv
  obtain rfl | rfl | rfl | rfl | rfl := quotientSign_cases hn
  all_goals
    cases hn
    revert v
    decide

/-- On a machine of 32-bit registers, narrower words are promoted and wider ones are expanded. -/
theorem classify_int32 : ∃ T, Target.int32.target = .ok T ∧ ∀ t : ValueType, t.IsWord →
    T.classify t = if t = .i32 then .legal else
      if t.bits < 32 then .promoteInteger else .expandInteger := by
  have hall : ∀ t : ValueType, (Target.int32.target.toOption.map fun T => decide (t.IsWord →
      T.classify t = if t = .i32 then .legal else
        if t.bits < 32 then .promoteInteger else .expandInteger)) = some true := fun t => by
    cases t <;> decide
  obtain ⟨T, hT, hclass⟩ := Description.exists_target_forall hall
  exact ⟨T, hT, fun t => of_decide_eq_true (hclass t)⟩

theorem legalize_scalarCode_quotientSign :
    ∃ T h bound, Target.int32.target = .ok T ∧ T.Contiguous ∧ ScalarCode T quotientSign 4 ∧
      ∀ fuel, bound ≤ fuel → legalize T {} fuel quotientSign = .ok h := by
  obtain ⟨T, hT, hclass⟩ := classify_int32
  have hlegal {t : ValueType} (ht : t.IsWord) (hc : T.classify t = .legal) : t = .i32 := by
    rw [hclass t ht] at hc
    split at hc
    · assumption
    · split at hc <;> cases hc
  have hcontiguous : T.Contiguous := fun a b c ha _ hc hab hbc hla hlc => by
    rw [hlegal ha hla] at hab
    rw [hlegal hc hlc] at hbc
    omega
  have hwide : T.classify .i1 ≠ .expandInteger := by
    rw [hclass .i1 (by decide)]
    decide
  have hg : ScalarCode T quotientSign 4 := by
    refine ⟨rooted_quotientSign, forward_quotientSign, fun id n hn => ?_⟩
    obtain rfl | rfl | rfl | rfl | rfl := quotientSign_cases hn
    all_goals cases hn
    · exact ⟨[], rfl, .inr ⟨.i128, rfl, .argument⟩, ⟨0, 0, rfl, by decide⟩,
        plain_of_ne rfl (by decide) (by decide) (by decide)⟩
    · exact ⟨[], rfl, .inr ⟨.i128, rfl, .constant⟩, ⟨10, rfl, by decide⟩,
        plain_of_ne rfl (by decide) (by decide) (by decide)⟩
    · exact ⟨[.i128, .i128], rfl, .inr ⟨.i128, rfl, .int rfl⟩, trivial,
        plain_of_ne rfl (by decide) (by decide) (by decide)⟩
    · exact ⟨[.i128, .i128], rfl, .inr ⟨.i1, rfl, .setcc (by decide) (by decide)⟩, ⟨.slt, rfl⟩,
        rfl, by decide, fun h => absurd h (by decide), fun _ t ht => by cases ht; exact hwide⟩
    · refine ⟨[.i128, .i1], rfl, .inl ⟨rfl, rfl⟩, fun i t width ht hwidth => ?_,
        plain_of_ne rfl (by decide) (by decide) (by decide)⟩
      have hi : i < 2 := (List.getElem?_eq_some_iff.1 ht).1
      obtain rfl | rfl : i = 0 ∨ i = 1 := by omega
      all_goals
        cases ht
        cases hwidth
        decide
  obtain ⟨⟨bound, h, hh⟩, _⟩ := legalize_scalarCode hT hcontiguous {} hg
  exact ⟨T, h, bound, hT, hcontiguous, hg, hh⟩

end Dataflow.Legal
