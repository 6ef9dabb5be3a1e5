import Dataflow.Proofs.Drafts

/-!
# The table of conversions

A run on a well-typed graph stays well typed. So at every head of the loop the table has an entry
for a value exactly when its node is processed and its type is illegal, and no step ends with an
error of the table.
-/

namespace Dataflow.Legal

open Engine

variable {T : Target} {limit : Limit} {strict total : Prop} {g : Graph} {n : Node}
  {ts : List ValueType} {t : ValueType} {id : Nat}

namespace Engine

variable {s s' : Run} {rank : Nat → Nat} {i : Nat}

/-- A conversion in terms of drafts: from `d`, a rule made `d'` with parts of the result, and these
were recorded. -/
theorem Converted.drafts (h : Converted T id n.opcode 0 t s s') (hres : n.results = [t]) :
    ∃ d d' kind parts, s.draft.Quiet d ∧ d.Grows d' ∧
      (∀ V : RewriteSpec, V.Describes T id n d d' → V.Fresh d'.graph ∧ V.Represents t parts) ∧
      s'.draft.graph = d'.graph ∧ d'.replaced.Shortens s'.draft.replaced ∧
      (T.classify t).kind? = some kind ∧ s'.root = s.root ∧
      ∀ v, s'.draft.conversions.get? v =
        if v = ⟨id, 0⟩ then some ⟨kind, parts.map d'.replaced.canon⟩ else d'.conversions.get? v := by
  obtain ⟨rule, kind, parts, s₁, hrule, hkind, hran, hrec⟩ := h
  have hroot := hran.stays.2
  obtain ⟨s₀, hq, hrun, _⟩ := hran
  refine ⟨s₀.draft, s₁.draft, kind, parts, hq.draft, Edit.grows_of_ok hrun, fun V hV => ?_,
    hrec.graph, hrec.replaced, hkind, hrec.root.trans hroot,
    (Conversions.insert_eq_ok hrec.conversions).2.2⟩
  obtain ⟨hshows, hsig⟩ := RewriteSpec.shows_of_results (V := V) (hV.node ▸ hres)
  refine RuleSpec.Meets.of_ok (x := fun T id => rule T id 0) (.resultRule hshows hsig
    (fun _ _ => hV.numbered) ?_) hV hrun
  rw [hV.target, hV.node]
  exact hrule

/-- A revision in terms of drafts: from `d`, a rule made `d'` with a successor, and it took the
place of the node. -/
theorem Revised.drafts (h : Revised T id n i s s')
    (hlegal : ∀ t ∈ n.results, T.classify t = .legal) :
    ∃ d d' v u successor, s.draft.Quiet d ∧ d.Grows d' ∧ n.operands[i]? = some v ∧
      s.draft.graph.typeOf? (s.draft.replaced.canon v) = some u ∧ T.classify u ≠ .legal ∧
      (∀ V : RewriteSpec, V.Describes T id n d d' → V.types[i]? = some u →
        V.Fresh d'.graph ∧ V.Replaces successor) ∧
      ∃ s₁ : Run, s₁.draft = d' ∧ s₁.root = s.root ∧ GaveWay id n s₁ s' successor := by
  obtain ⟨v, u, rule, successor, s₁, hv, hu, hillegal, hrule, hran, hgave⟩ := h
  have hroot := hran.stays.2
  obtain ⟨s₀, hq, hrun, _⟩ := hran
  refine ⟨s₀.draft, s₁.draft, v, u, successor, hq.draft, Edit.grows_of_ok hrun, hv, hu, hillegal,
    fun V hV hi => ?_, s₁, rfl, hroot, hgave⟩
  refine RuleSpec.Meets.of_ok (x := fun T id => rule T id i) (.successor
    (fun _ _ => hV.numbered) ?_ hi ?_) hV hrun
  · rw [hV.target, hV.node]
    exact hlegal
  · rw [hV.target, hV.node]
    exact hrule

/-- A value of a legal type may take the place of another one. -/
theorem Replaced.typed {v w : Value} (hrep : Replaced v w s s') (h : s.draft.Typed T limit strict total)
    (hd : s.draft.replaced.Descends rank) (hv : s.draft.graph.typeOf? v = some t)
    (hw : s.draft.graph.typeOf? w = some t) (hlegal : T.classify t = .legal) :
    s'.draft.Typed T limit strict total := by
  refine h.update hrep.nodes (fun u hu => ?_) fun u c hc => ?_
  · obtain ⟨t', ht', hlegal'⟩ : ∃ t', s.draft.graph.typeOf? u = some t' ∧
        T.classify t' = .legal := by
      by_cases heq : u = v
      · exact ⟨t, heq ▸ hv, hlegal⟩
      · obtain ⟨t', ht', _, hlegal'⟩ :=
          h.redirected u fun hnone => hu ((hrep.next u).2 ⟨heq, hnone⟩)
        exact ⟨t', ht', hlegal'⟩
    refine ⟨t', ht', ?_, hlegal'⟩
    have hcanon := h.typeOf?_canon hd u
    rw [ht'] at hcanon
    rw [hrep.canon]
    split
    · next heq =>
      rw [heq, hv] at hcanon
      rw [h.typeOf?_canon hd, hw, hcanon]
    · exact hcanon
  · rw [hrep.conversions] at hc
    split at hc
    · cases hc
    · exact .inl hc

section
variable (hvisits : s.draft.Visits T limit strict total id n ts) (htotal : total → strict)
include hvisits htotal

theorem Converted.typed (hres : n.results = [t]) (hillegal : T.classify t ≠ .legal)
    (hc : Converted T id n.opcode 0 t s s') : s'.draft.Typed T limit strict total ∧
      ∀ v, (∃ c, s.draft.conversions.get? v = some c) ∨ v = ⟨id, 0⟩ →
        ∃ c', s'.draft.conversions.get? v = some c' := by
  obtain ⟨rank, hd⟩ := hvisits.descends
  obtain ⟨d, d', kind, parts, hq, hg, hrule, hgraph, hshort, hkind, _, hget⟩ := hc.drafts hres
  have hvisits := hvisits.quiet hq
  have hd := hd.shortens hq.replaced
  obtain ⟨hfresh, ⟨kind', hsuits⟩, _⟩ := hrule _ (RewriteSpec.describes_typedSpec hvisits hg.graph
    ⟨t, by simp [hres], hillegal⟩ htotal False False.elim)
  have hsuits : Conversion.Suits T d'.graph.typeOf? t ⟨kind', parts⟩ := hsuits
  have htyped := hvisits.typed_of_fresh hg hfresh
  have hd := hd.shortens hg.replaced
  obtain rfl : kind = kind' := Option.some.inj (hkind.symm.trans hsuits.kind)
  refine ⟨htyped.update (by rw [hgraph]) (fun v hv => ?_) fun v c hv => ?_, fun v hv => ?_⟩
  · rw [hd.canon_shortens hshort]
    exact htyped.redirected v fun hnone => hv ((hshort.next?_eq_none v).2 hnone)
  · rw [hget] at hv
    split at hv
    · next heq =>
      cases hv
      refine .inr ⟨t, ?_, hsuits.moves (R := fun v w => w = d'.replaced.canon v) ?_
        (parts.rel_map _)⟩
      · simp [heq, Graph.typeOf?, hg.graph.getElem? hvisits.node_at, hres]
      · rintro v _ rfl
        exact htyped.typeOf?_canon hd v
    · exact .inl hv
  · rw [hget]
    split
    · exact ⟨_, rfl⟩
    · next hne =>
      obtain ⟨c, hv⟩ := hv.resolve_right hne
      exact hg.get?_eq_some (hq.conversions.symm ▸ hv)

theorem Revised.typed (hlegal : ∀ t ∈ n.results, T.classify t = .legal)
    (hr : Revised T id n i s s') : s'.draft.Typed T limit strict total ∧
      ∀ v c, v.node ≠ id → s.draft.conversions.get? v = some c →
        ∃ c', s'.draft.conversions.get? v = some c' := by
  obtain ⟨rank, hd⟩ := hvisits.descends
  obtain ⟨d, d', v, u, successor, hq, hg, hv, hu, hillegal, hrule, s₁, hs₁, _, hgave⟩ :=
    hr.drafts hlegal
  obtain ⟨_, hi, hu'⟩ := hvisits.type_at hv
  cases hu.symm.trans hu'
  have hvisits := hvisits.quiet hq
  have hd := hd.shortens hq.replaced
  obtain ⟨hfresh, hreplaces⟩ := hrule _ (RewriteSpec.describes_typedSpec hvisits hg.graph
    ⟨u, List.mem_append_right _ (List.mem_of_getElem? hi), hillegal⟩ htotal False False.elim) hi
  have htyped := hvisits.typed_of_fresh hg hfresh
  have hd := hd.shortens hg.replaced
  have hkept (v : Value) (c : Conversion) (hc : s.draft.conversions.get? v = some c) :
      ∃ c', d'.conversions.get? v = some c' :=
    hg.get?_eq_some (hq.conversions.symm ▸ hc)
  rw [← hs₁] at htyped hd hkept
  rcases hreplaces with ⟨hres, new, _, _, rfl, _⟩ | ⟨t, hres, w, rfl, hstands⟩
  · have hquiet := hgave.empty hres
    refine ⟨htyped.shortens hd (by rw [hquiet.graph]) hquiet.replaced hquiet.conversions,
      fun v c _ hc => ?_⟩
    rw [hquiet.conversions]
    exact hkept v c hc
  · obtain ⟨_, hrep⟩ := hgave
    have hw : s₁.draft.graph.typeOf? w = some t := by
      rw [hs₁]
      exact hstands.is.type
    have hres : n.results = [t] := hres
    have hid : s₁.draft.graph.typeOf? ⟨id, 0⟩ = some t := by
      rw [hs₁]
      simp [Graph.typeOf?, hg.graph.getElem? hvisits.node_at, hres]
    refine ⟨hrep.typed htyped hd hid hw (hlegal t (by simp [hres])), fun v c hne hc => ?_⟩
    rw [hrep.conversions, if_neg fun heq => hne (by rw [heq])]
    exact hkept v c hc

/-- A visit keeps a run well typed, and gives the visited node the parts that it needs. -/
theorem Visited.typed (h : s.Typed T limit strict total) (hready : s.states.get id = .ready)
    (hknown : ∀ j : Nat, s.states.get j = .processed → j < s.draft.graph.size)
    (hv : Visited T id n s s') : s'.draft.Typed T limit strict total ∧
    ∀ v t, s.states.get v.node = .processed ∨ v.node = id →
      s'.draft.graph.typeOf? v = some t → T.classify t ≠ .legal →
      ∃ c, s'.draft.conversions.get? v = some c := by
  obtain ⟨rank, hd⟩ := hvisits.descends
  have hframed := hv.framed hd
  have hat : s'.draft.graph.nodes[id]? = some n := hframed.nodes id n hvisits.node_at
  have hold (v : Value) (hv : s.states.get v.node = .processed) :
      s'.draft.graph.typeOf? v = s.draft.graph.typeOf? v := by
    obtain ⟨m, hm⟩ : ∃ m, s.draft.graph.nodes[v.node]? = some m :=
      ⟨_, Array.getElem?_eq_getElem (hknown v.node hv)⟩
    rw [Graph.typeOf?, Graph.typeOf?, hm, hframed.nodes _ m hm]
  have hne (v : Value) (hv : s.states.get v.node = .processed) : v.node ≠ id := fun heq => by
    rw [heq, hready] at hv
    cases hv
  have hlegalAt (hlegal : ∀ t ∈ n.results, T.classify t = .legal) (v : Value) (t : ValueType)
      (hv : v.node = id) (ht : s'.draft.graph.typeOf? v = some t) : T.classify t = .legal := by
    rw [Graph.typeOf?, hv, hat] at ht
    exact hlegal t (List.mem_of_getElem? ht)
  cases hv with
  | converted t hres hillegal hc =>
    obtain ⟨htyped, hentry⟩ := hc.typed hvisits htotal hres hillegal
    refine ⟨htyped, fun v t' hv ht' hillegal' => ?_⟩
    rcases hv with hv | hv
    · exact hentry v (.inl (h.complete v t' hv (hold v hv ▸ ht') hillegal'))
    · refine hentry v (.inr ?_)
      rw [Graph.typeOf?, hv, hat] at ht'
      have hslot : v.slot < n.results.length := (List.getElem?_eq_some_iff.1 ht').1
      rw [hres] at hslot
      obtain ⟨node, slot⟩ := v
      obtain rfl : slot = 0 := by simpa using hslot
      obtain rfl : node = id := hv
      rfl
  | kept hlegal hq _ =>
    refine ⟨h.toTyped.shortens hd (by rw [hq.graph]) hq.replaced hq.conversions,
      fun v t hv ht hillegal => ?_⟩
    rcases hv with hv | hv
    · rw [hq.conversions]
      exact h.complete v t hv (hold v hv ▸ ht) hillegal
    · exact absurd (hlegalAt hlegal v t hv ht) hillegal
  | revised i hlegal hr =>
    obtain ⟨htyped, hentry⟩ := hr.typed hvisits htotal hlegal
    refine ⟨htyped, fun v t hv ht hillegal => ?_⟩
    rcases hv with hv | hv
    · obtain ⟨c, hc⟩ := h.complete v t hv (hold v hv ▸ ht) hillegal
      exact hentry v c (hne v hv) hc
    · exact absurd (hlegalAt hlegal v t hv ht) hillegal

end

end Engine

/-- Errors that say that something cannot be converted. -/
def Error.IsRefusal : Error → Prop
  | .noResultRule .. | .noOperandRule .. | .fault .overflow => True
  | e => e.IsObstacle

theorem illegal_of_operandRule? {op : Opcode} {rule : OperandRule}
    (h : operandRule? (T.classify t) op = some rule) : T.classify t ≠ .legal := fun hlegal => by
  rw [hlegal] at h
  cases h

/-- Node `n` of the draft cannot be converted, and numbers leave their words where they would. -/
structure Draft.Refuses (d : Draft) (T : Target) (n : Node) (e : Error) : Prop where
  refusal : e.IsRefusal
  overflows : ∀ f, e = .fault f → d.replaced.Overflows T d.graph n

theorem Error.IsObstacle.refuses {d : Draft} {e : Error} (h : e.IsObstacle) : d.Refuses T n e := by
  refine ⟨?_, ?_⟩
  · cases e <;> first | exact h | exact h.elim
  · rintro f rfl
    exact h.elim

/-- What a rule fails for can be seen before it runs. -/
theorem Draft.Visits.refuses {d d₁ d₂ : Draft} {e : Error}
    (h : d.Visits T limit strict total id n ts) (hq : d.Quiet d₁) (hg : d₁.Grows d₂)
    {V : RewriteSpec} (hV : V.Describes T id n d₁ d₂) (he : V.Fails e) :
    d.Refuses T n e ∧ ¬ V.total := by
  obtain ⟨rfl, rfl, rfl, rfl, hfinal, _⟩ := hV
  obtain ⟨hobstacle | ⟨rfl, ho⟩, hnot⟩ := (V.fails_iff e).1 he
  · exact ⟨hobstacle.refuses, hnot⟩
  refine ⟨⟨trivial, fun _ _ => ?_⟩, hnot⟩
  obtain ⟨rank, hd⟩ := h.descends
  obtain ⟨t, hres, harg | ⟨hop, hc, v, m, k, hv, hm, hconstant⟩⟩ := ho
  · exact ⟨t, hres, .inl harg⟩
  · obtain ⟨u, _, hu⟩ := h.type_at hv
    rw [hd.canon_shortens hq.replaced, hfinal, hg.graph.getElem?_eq (by
      rw [hq.graph]
      exact Graph.lt_size_of_typeOf? hu), hq.graph] at hm
    exact ⟨t, hres, .inr ⟨hop, hc, v, m, k, hv, hm, hconstant⟩⟩

namespace Engine

variable {s s' : Run} {rank : Nat → Nat} {i : Nat} {e : Error}

section
variable {d : Draft} (h : d.Visits T limit strict total id n ts) (htotal : total → strict)
include h htotal

theorem Unconverted.refused (hres : n.results = [t]) (hillegal : T.classify t ≠ .legal)
    (hfree : d.conversions.get? ⟨id, 0⟩ = none) (he : Unconverted T id n.opcode 0 t d e) :
    d.Refuses T n e ∧ ¬ total := by
  have hex : ∃ t ∈ n.results ++ ts, T.classify t ≠ .legal := ⟨t, by simp [hres], hillegal⟩
  have hsig := h.suited.typed.sig_of_results hres
  cases he with
  | noRule hnone =>
    refine ⟨⟨trivial, by rintro _ ⟨⟩⟩, fun ht => ?_⟩
    have hplain := h.suited.plain ht
    rw [hres] at hplain
    have := hplain.resultRule?_isSome h.regular (hsig.signature_of_plain hplain) hillegal
    rw [hnone] at this
    cases this
  | rule rule d₁ d₂ _ hrule hq hrun _ =>
    have hg := Edit.grows_of_error hrun
    have hV := RewriteSpec.describes_typedSpec (h.quiet hq) hg.graph hex htotal False False.elim
    exact h.refuses hq hg hV (RuleSpec.Meets.of_error (x := fun T id => rule T id 0)
      (.resultRule ⟨rfl, rfl, hres⟩ hsig (fun _ _ => hV.numbered) hrule) hV hrun)
  | record rule parts d₁ d₂ _ hrule hq hrun hun =>
    have hvisits := h.quiet hq
    have hg := Edit.grows_of_ok hrun
    have hV := RewriteSpec.describes_typedSpec hvisits hg.graph hex htotal False False.elim
    obtain ⟨_, ⟨kind, hsuits⟩, _⟩ := RuleSpec.Meets.of_ok (x := fun T id => rule T id 0)
      (.resultRule ⟨rfl, rfl, hres⟩ hsig (fun _ _ => hV.numbered) hrule) hV hrun
    have hsuits : Conversion.Suits T d₂.graph.typeOf? t ⟨kind, parts⟩ := hsuits
    have hid : d₂.graph.typeOf? ⟨id, 0⟩ = some t := by
      simp [Graph.typeOf?, hg.graph.getElem? hvisits.node_at, hres]
    exfalso
    cases hun with
    | untyped w hw =>
      have htype : d₂.graph.typeOf? w = some (T.transform t) := hsuits.parts
      rw [hid, htype] at hw
      simp at hw
    | misfit w t' carrier ht' hcarrier hmis =>
      have htype : d₂.graph.typeOf? w = some (T.transform t) := hsuits.parts
      rw [hid] at ht'
      rw [htype] at hcarrier
      cases ht'
      cases hcarrier
      rcases hmis with ⟨hc, hlt⟩ | ⟨hc, hne⟩
      · exact hlt (h.regular.promoted hc).2.2.1
      · exact hne (h.regular.softened hc).2.2.2.1.symm
    | taken kind' _ e hkind hinsert =>
      have hfree' := hg.get?_eq_none (by rw [hq.conversions]; exact hfree)
      obtain rfl : kind' = kind := Option.some.inj (hkind.symm.trans hsuits.kind)
      have hpair : (parts.map d₂.replaced.canon).isPair = kind'.isPair := by
        rw [← hsuits.pair]
        cases parts <;> rfl
      obtain ⟨c', hc'⟩ := Conversions.exists_insert_eq_ok hfree' hpair
      rw [hc'] at hinsert
      cases hinsert

theorem Unrevised.refused {v : Value} (hlegal : ∀ t ∈ n.results, T.classify t = .legal)
    (hv : n.operands[i]? = some v) (he : Unrevised T id n i v d e) :
    d.Refuses T n e ∧ (T.Contiguous → ¬ total) := by
  obtain ⟨u, hi, hcanon⟩ := h.type_at hv
  cases he with
  | untyped hnone =>
    rw [hcanon] at hnone
    cases hnone
  | noRule u' hu' hillegal hnone =>
    rw [hcanon] at hu'
    cases hu'
    refine ⟨⟨trivial, by rintro _ ⟨⟩⟩, fun hcontiguous ht => ?_⟩
    have hplain := h.suited.plain ht
    rcases h.suited.typed with ⟨hop, hres⟩ | ⟨t, hres, hsig⟩
    · have := T.outputRule?_isSome hillegal
      rw [hop] at hnone
      rw [hnone] at this
      cases this
    · rw [hres] at hplain
      have := hplain.operandRule?_isSome h.regular hcontiguous (hsig.signature_of_plain hplain)
        (hlegal t (by simp [hres])) hi hillegal
      rw [hnone] at this
      cases this
  | rule u' rule d₁ d₂ _ hu' hrule hq hrun _ =>
    rw [hcanon] at hu'
    cases hu'
    have hg := Edit.grows_of_error hrun
    have hV := RewriteSpec.describes_typedSpec (h.quiet hq) hg.graph ⟨u, List.mem_append_right _
      (List.mem_of_getElem? hi), illegal_of_operandRule? hrule⟩ htotal False False.elim
    obtain ⟨hrefuses, hnot⟩ := h.refuses hq hg hV (RuleSpec.Meets.of_error
      (x := fun T id => rule T id i) (.successor (fun _ _ => hV.numbered) hlegal hi hrule) hV hrun)
    exact ⟨hrefuses, fun _ => hnot⟩
  | place u' rule successor d₁ d₂ _ hu' hrule hq hrun hun =>
    rw [hcanon] at hu'
    cases hu'
    have hvisits := h.quiet hq
    have hg := Edit.grows_of_ok hrun
    have hV := RewriteSpec.describes_typedSpec hvisits hg.graph ⟨u, List.mem_append_right _
      (List.mem_of_getElem? hi), illegal_of_operandRule? hrule⟩ htotal False False.elim
    obtain ⟨hfresh, hreplaces⟩ := RuleSpec.Meets.of_ok (x := fun T id => rule T id i)
      (.successor (fun _ _ => hV.numbered) hlegal hi hrule) hV hrun
    have htyped := hvisits.typed_of_fresh hg hfresh
    exfalso
    cases hun with
    | node new m hm hlen =>
      rcases hreplaces with ⟨hres, new', m', _, hnew, hm', hop, _⟩ | ⟨t, _, w, hw, _⟩
      · cases hnew
        obtain ⟨us, hus⟩ := htyped.nodes new m hm
        have hm' : d₂.graph.nodes[new]? = some m' := hm'
        rw [hm] at hm'
        cases hm'
        have hres : n.results = [] := hres
        exact hlen (by rw [hus.typed.sensible.results_of_output hop, hres])
      · cases hw
    | value w hlen =>
      rcases hreplaces with ⟨_, _, _, _, hnew, _⟩ | ⟨t, hres, _⟩
      · cases hnew
      · have hres : n.results = [t] := hres
        exact hlen (by rw [hres]; rfl)

end

/-- A step of a well-typed run only fails because something cannot be converted. -/
theorem Fails.refused (h : s.Typed T limit strict total) (hT : T.Regular) (htotal : total → strict)
    (hs : s.Sound none rank) {rest : List Nat} (hw : s.worklist = id :: rest)
    (hn : s.draft.graph.nodes[id]? = some n) (he : Fails T id n s.draft e) :
    s.draft.Refuses T n e ∧ (T.Contiguous → ¬ total) := by
  have hready := hs.ready_head hw
  obtain ⟨ts, hvisits⟩ := h.visits_head hT hs hw hn
  cases he with
  | result t _ hres hillegal hun =>
    have hfree : s.draft.conversions.get? ⟨id, 0⟩ = none := by
      cases hc : s.draft.conversions.get? ⟨id, 0⟩ with
      | none => rfl
      | some c =>
        have := (hs.converted _ c hc).resolve_right (by simp)
        rw [hready] at this
        cases this
    obtain ⟨hrefuses, hnot⟩ := hun.refused hvisits htotal hres hillegal hfree
    exact ⟨hrefuses, fun _ => hnot⟩
  | operand i v _ hlegal hv hun => exact hun.refused hvisits htotal hlegal hv

end Engine

/-! ### Heads -/

namespace Run

variable {s s' : Run} {rank : Nat → Nat}

theorem Typed.stepped (h : s.Typed T limit strict total) (hT : T.Regular) (htotal : total → strict)
    (hs : s.Sound none rank) {rest : List Nat} (hw : s.worklist = id :: rest)
    (hn : s.draft.graph.nodes[id]? = some n) (hstep : Stepped T id n s s') :
    s'.Typed T limit strict total := by
  obtain ⟨ts, hvisits⟩ := h.visits_head hT hs hw hn
  obtain ⟨worklist, visited, s₁, rank₁, hvisited, h₁, hk⟩ := hstep
  obtain ⟨htyped, hcomplete⟩ := Visited.typed (s := { s with worklist, visited }) hvisits htotal
    ⟨h.toTyped, h.complete⟩ (hs.ready_head hw)
    (fun j hj => hs.scheduled.known j (by rw [hj]; simp)) hvisited
  have hgraph : s'.draft.graph = s₁.draft.graph := hk.graph
  refine ⟨htyped.shortens h₁.ordered.descends (by rw [hgraph]) hk.replaced hk.conversions,
    fun v t hv ht hillegal => ?_⟩
  rw [hk.conversions]
  refine hcomplete v t ?_ (hgraph ▸ ht) hillegal
  rw [hk.processed_iff, get_mark] at hv
  split at hv
  · next heq => exact .inr heq
  · exact .inl ((hvisited.stays.processed_iff _).1 hv)

end Run

namespace Engine

variable {config : Config} {root : NodeId} {ids : List NodeId} {s : Run}

/-- A copy of the live part of a graph has nodes of the same types. -/
theorem suited_live {live : Graph} (hlive : g.live .ok root = .ok live)
    (hg : ∀ (id : Nat) n, g.nodes[id]? = some n → ∃ ts, Suited T limit strict total g n ts) (k : Nat)
    (n : Node) (hn : live.nodes[k]? = some n) : ∃ ts, Suited T limit strict total live n ts := by
  obtain ⟨ids, r, hsize, _, _, _, _, hstands⟩ := Graph.live_spec hlive
  have hk : k < ids.length := hsize ▸ Graph.lt_size_of_getElem? hn
  have hstand := hstands k _ n (List.getElem?_eq_getElem hk) hn
  obtain ⟨m, hm, _⟩ := hstand.node
  obtain ⟨ts, hts⟩ := hg _ m hm
  exact ⟨ts, hts.stands hstand hm hsize hstands (fun v w hv => by cases hv; rfl)
    fun v w t hv _ _ => by cases hv; rfl⟩

/-- A run on a graph of nodes that suit the target is well typed at every head. -/
theorem Head.typed (hT : T.Regular) (htotal : total → strict) (hg : Rooted g root)
    (hnodes : ∀ (id : Nat) n, g.nodes[id]? = some n → ∃ ts, Suited T limit strict total g n ts)
    (hs : Head T config g ids s) : s.Typed T limit strict total := by
  induction hs with
  | @seeded s₀ s hs hp =>
    obtain ⟨hseeded, hgraph, _⟩ := (ends_prepare config hs).of_ok hp
    obtain ⟨root', live, r, hroot', hlive, _, rfl⟩ := start_spec hs
    rw [hg.root_eq] at hroot'
    cases hroot'
    refine ⟨⟨fun k n hn => ?_, fun v hv => absurd (hseeded.plain v) hv, fun v c hc => ?_⟩,
      fun v t hv => absurd hv (hseeded.unprocessed _)⟩
    · rw [hgraph] at hn ⊢
      exact suited_live hlive hnodes k n hn
    · rw [hseeded.unconverted] at hc
      cases hc
  | @visited ids rest id s s' hhead hw hstep ih =>
    obtain ⟨n, rank, hn, hsound, hends⟩ := hhead.next hg hw
    have hstepped := (hends (E := fun _ => True) fun _ _ => trivial).of_ok hstep
    exact ih.stepped hT htotal hsound hw hn hstepped

/-- A step of a run on such a graph only fails because the next node cannot be converted. -/
theorem Stops.refuses (hT : T.Regular) (htotal : total → strict) (hg : Rooted g root)
    (hnodes : ∀ (id : Nat) n, g.nodes[id]? = some n → ∃ ts, Suited T limit strict total g n ts)
    {e : Error} (hs : Stops T config g e) :
    (∃ ids rest id s n, Head T config g ids s ∧ s.worklist = id :: rest ∧
      s.draft.graph.nodes[id]? = some n ∧ s.draft.Refuses T n e) ∧ (T.Contiguous → ¬ total) := by
  obtain ⟨ids, rest, id, s, s', hhead, hw, hstep⟩ := hs
  obtain ⟨n, rank, hn, hsound, hends⟩ := hhead.next hg hw
  obtain ⟨hrefuses, hnot⟩ := (hends fun e he => he.refused (hhead.typed hT htotal hg hnodes) hT htotal
    hsound hw hn).of_error hstep
  exact ⟨⟨ids, rest, id, s, n, hhead, hw, hn, hrefuses⟩, hnot⟩

theorem Stops.refused (hT : T.Regular) (htotal : total → strict) (hg : Rooted g root)
    (hnodes : ∀ (id : Nat) n, g.nodes[id]? = some n → ∃ ts, Suited T limit strict total g n ts)
    {e : Error} (hs : Stops T config g e) : e.IsRefusal ∧ (T.Contiguous → ¬ total) := by
  obtain ⟨⟨_, _, _, _, _, _, _, _, hrefuses⟩, hnot⟩ := hs.refuses hT htotal hg hnodes
  exact ⟨hrefuses.refusal, hnot⟩

end Engine

/-- The root is an output, and every other node computes one value from operands of types that suit
it. Lanes are read and written at exactly the lane type. -/
structure WellTyped (g : Graph) (root : NodeId) : Prop extends Rooted g root where
  typed : ∀ (id : Nat) n, g.nodes[id]? = some n →
    ∃ ts, n.operands.map g.typeOf? = ts.map some ∧ n.Typed (fun _ _ => False) ts

theorem WellTyped.suited {root : NodeId} (hg : WellTyped g root) (T : Target) (id : Nat) (n : Node)
    (hn : g.nodes[id]? = some n) : ∃ ts, Suited T (.top False) False False g n ts := by
  obtain ⟨ts, hreads, htyped⟩ := hg.typed id n hn
  exact ⟨ts, hreads,
    htyped.imp_right fun ⟨t, hres, hsig⟩ => ⟨t, hres, .inl (hsig.mono nofun)⟩, nofun, nofun, nofun⟩

/-- In a run on a well-typed graph, at every head of the loop, a value has an entry exactly when its
node is processed and its type is illegal; the entry is in the table of its action, and the
canonical forms of its parts have the transformed type. So a run never ends with an error of the
table: no entry is missing, recorded twice, recorded in a second table or of the wrong shape. -/
theorem conversion_table {d : Description} {T : Target} (hT : d.target = .ok T) (config : Config)
    {g : Graph} {root : NodeId} (hg : WellTyped g root) :
    (∀ ids s, Head T config g ids s → ∀ v : Value,
      (∀ t, s.states.get v.node = .processed → s.draft.graph.typeOf? v = some t →
        T.classify t ≠ .legal → ∃ c, s.draft.conversions.get? v = some c ∧
          (T.classify t).kind? = some c.kind ∧ c.parts.isPair = c.kind.isPair ∧
          Tracked.all (fun p => s.draft.graph.typeOf? (s.draft.replaced.canon p) =
            some (T.transform t)) c.parts) ∧
      (∀ c, s.draft.conversions.get? v = some c → s.states.get v.node = .processed ∧
        ∃ t, s.draft.graph.typeOf? v = some t ∧ T.classify t ≠ .legal)) ∧
    ∀ fuel e, legalize T config fuel g ≠ .error (.conversion e) := by
  have hregular := Description.target_regular hT
  refine ⟨fun ids s hs v => ⟨fun t hv ht hillegal => ?_, fun c hc => ?_⟩, fun fuel e hl => ?_⟩
  · have htyped := hs.typed hregular id hg.toRooted (hg.suited T)
    obtain ⟨⟨rank, hsound⟩, _⟩ := hs.sound
    obtain ⟨c, hc⟩ := htyped.complete v t hv ht hillegal
    obtain ⟨t', ht', hsuits⟩ := htyped.converted v c hc
    rw [ht] at ht'
    cases ht'
    exact ⟨c, hc, hsuits.kind, hsuits.pair, Tracked.mono (fun p hp =>
      (htyped.typeOf?_canon hsound.ordered.descends p).trans hp) hsuits.parts⟩
  · have htyped := hs.typed hregular id hg.toRooted (hg.suited T)
    obtain ⟨⟨rank, hsound⟩, _⟩ := hs.sound
    obtain ⟨t, ht, hsuits⟩ := htyped.converted v c hc
    exact ⟨(hsound.converted v c hc).resolve_right (by simp), t, ht, hsuits.illegal⟩
  · rcases completes_or_stops T config fuel g with ⟨s, hc⟩ | ⟨e', he', hstop⟩
    · rw [hc.legalize_eq] at hl
      rcases Run.conclude_eq_error hl with ⟨_, hcheck⟩ | ⟨_, _, hf⟩
      · rw [hc.check_eq_ok hg.toRooted] at hcheck
        cases hcheck
      · cases hf
    · rw [hl] at he'
      cases he'
      rcases hstop with h | ⟨_, h⟩ | h | h
      · cases h
      · cases h
      · cases h
      · exact (h.refused hregular id hg.toRooted (hg.suited T)).1

theorem wellTyped_doubling : WellTyped doubling 2 := by
  refine ⟨rooted_doubling, fun id n hn => ?_⟩
  have hlt : id < 3 := Graph.lt_size_of_getElem? hn
  obtain rfl | rfl | rfl : id = 0 ∨ id = 1 ∨ id = 2 := by omega
  · cases hn
    exact ⟨[], rfl, .inr ⟨.i64, rfl, .argument⟩⟩
  · cases hn
    exact ⟨[.i64, .i64], rfl, .inr ⟨.i64, rfl, .int rfl⟩⟩
  · cases hn
    exact ⟨[.i64], rfl, .inl ⟨rfl, rfl⟩⟩

/-- At the end of the loop the 64-bit argument has two parts of 32 bits. -/
theorem conversion_table_doubling :
    ∃ T ids s c, Target.int32.target = .ok T ∧ WellTyped doubling 2 ∧ Head T {} doubling ids s ∧
      s.draft.conversions.get? ⟨0, 0⟩ = some c ∧ c.kind = .expandedInteger ∧
      Tracked.all (fun p => s.draft.graph.typeOf? (s.draft.replaced.canon p) = some .i32) c.parts ∧
      ∀ fuel e, legalize T {} fuel doubling ≠ .error (.conversion e) := by
  have hok : (Target.int32.target.toOption.map fun T =>
      decide ((do
        let s₀ ← (Run.start doubling).toOption
        let s ← (prepare {} >>= fun _ => loop T 100).final? s₀
        return (s.states.get 0, s.draft.graph.typeOf? ⟨0, 0⟩, T.classify .i64,
          T.transform .i64)) =
        some (.processed, some .i64, .expandInteger, .i32))) = some true := by
    decide +kernel
  obtain ⟨T, hT, hok⟩ := Description.exists_target hok
  obtain ⟨s₀, hs, hok⟩ := Option.bind_eq_some_iff.1 (of_decide_eq_true hok)
  obtain ⟨s, hfinal, hread⟩ := Option.bind_eq_some_iff.1 hok
  obtain ⟨_, hrun⟩ := final?_eq_some hfinal
  simp only [Option.pure_def, Option.some.injEq, Prod.mk.injEq] at hread
  obtain ⟨hstate, htype, hclass, htransform⟩ := hread
  obtain ⟨_, ids, hhead⟩ :=
    (ends_prepare_loop T {} 100 (Description.eq_ok_of_toOption hs)).of_ok hrun
  obtain ⟨htable, hnever⟩ := conversion_table hT {} wellTyped_doubling
  obtain ⟨c, hc, hkind, _, hparts⟩ := (htable ids s hhead ⟨0, 0⟩).1 .i64 hstate htype
    (by rw [hclass]; simp)
  rw [hclass] at hkind
  rw [htransform] at hparts
  exact ⟨T, ids, s, c, hT, wellTyped_doubling, hhead, hc, (Option.some.inj hkind).symm, hparts,
    hnever⟩

end Dataflow.Legal
