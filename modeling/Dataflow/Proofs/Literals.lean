import Dataflow.Proofs.Conversions

/-!
# Literals

The parts of an integer constant are integer constants that spell its bits, and stay so: constants
read nothing, so they never give way to other nodes. Nor is a value both redirected and converted.
-/

namespace Dataflow.Legal

open Engine

variable {T : Target} {limit : Limit} {strict total : Prop} {g g' : Graph} {n : Node}
  {ts : List ValueType} {t u : ValueType} {id bits : Nat}

/-- The parts are constants of type `u` that spell the bits of a number, the low ones first. -/
def Parts.Spell (g : Graph) (u : ValueType) (bits : Nat) : Parts → Prop
  | .one w => g.nodes[w.node]? = some (literal u (bits % 2 ^ u.bits))
  | .two lo hi => g.nodes[lo.node]? = some (literal u (bits % 2 ^ u.bits)) ∧
    g.nodes[hi.node]? = some (literal u (bits / 2 ^ u.bits % 2 ^ u.bits))

theorem Parts.Spell.mono {p : Parts} (h : p.Spell g u bits)
    (hg : ∀ (j : Nat) n, g.nodes[j]? = some n → g'.nodes[j]? = some n) : p.Spell g' u bits := by
  cases p with
  | one w => exact hg _ _ h
  | two lo hi => exact ⟨hg _ _ h.1, hg _ _ h.2⟩

theorem Parts.Spell.rel {p q : Parts} (h : p.Spell g u bits) {R : Value → Value → Prop}
    (hR : ∀ v w bits, g.nodes[v.node]? = some (literal u bits) → R v w → w = v)
    (hq : p.Rel R q) : q = p := by
  cases p <;> cases q <;> simp only [Parts.Rel] at hq
  · rw [hR _ _ _ h hq]
  · rw [hR _ _ _ h.1 hq.1, hR _ _ _ h.2 hq.2]

/-! ### Rules for constants -/

namespace EditSpec.Meets

variable {C : EditSpec}

theorem immediateOf (hn : C.final.nodes[id]? = some n) (hattr : n.attr = .imm bits) :
    C.Meets (Edit.immediate id) (· = bits) := by
  refine .bind (.node hn) ?_
  rintro m rfl
  rw [show m.imm? = some bits by rw [Node.imm?, hattr]]
  exact .pure rfl

theorem resultTypeOf (hn : C.final.nodes[id]? = some n) (hres : n.results = [t]) :
    C.Meets (Edit.resultType id 0) (· = t) := by
  refine .bind (.node hn) ?_
  rintro _ rfl
  rw [hres]
  exact .pure rfl

/-- The rules for constants spell them. -/
theorem spell (hT : T.Regular) (hgood : ∀ id n, C.Good id n) (hn : C.final.nodes[id]? = some n)
    (hres : n.results = [t]) (hattr : n.attr = .imm bits) {rule : ResultRule}
    (hrule : resultRule? (T.classify t) .constant = some rule) :
    C.Meets (rule T id 0) (Parts.Spell C.final (T.transform t) bits) := by
  cases hc : T.classify t with
  | promoteInteger =>
    rw [hc] at hrule
    cases hrule
    refine .bind ?_ fun w hw => .pure hw
    refine .bind (resultTypeOf hn hres) ?_
    rintro _ rfl
    refine .bind (immediateOf hn hattr) ?_
    rintro _ rfl
    exact literal hgood (hT.promoted hc).2.1.2 _
  | expandInteger =>
    obtain ⟨hword, hhalf, hbits, _⟩ := hT.expanded hc
    have hle := hword.bits_le
    rw [hc] at hrule
    cases hrule
    refine .bind (P := fun p : Value × Value => Parts.Spell C.final (T.transform t) bits (.two p.1 p.2))
      ?_ fun w hw => .pure hw
    refine .bind (.bind (resultTypeOf hn hres) fun u hu => .pure (congrArg T.transform hu.symm)) ?_
    rintro _ rfl
    refine .bind (immediateOf hn hattr) ?_
    rintro _ rfl
    refine .bind (literal hgood hhalf.2 _) fun lo hlo => ?_
    rw [Edit.shiftedRight, if_pos (show (T.transform t).bits < Word.maxBits by
      rw [Word.maxBits]; omega), pure_bind]
    refine .bind (literal hgood hhalf.2 _) fun hi hhi => .pure ⟨hlo, ?_⟩
    rw [← Nat.shiftRight_eq_div_pow]
    exact hhi
  | _ =>
    rw [hc] at hrule
    cases hrule

end EditSpec.Meets

/-! ### Drafts -/

namespace Draft

variable {d d' : Draft} {rank : Nat → Nat}

/-- Constants are in place or spelled by constants, and no value is both redirected and converted. -/
structure Tidy (d : Draft) (T : Target) : Prop where
  apart : ∀ v, d.replaced.next? v ≠ none → d.conversions.get? v = none
  plain : ∀ v n, d.graph.nodes[v.node]? = some n → n.opcode = .constant →
    d.replaced.next? v = none
  spelled : ∀ v n t bits c, d.graph.nodes[v.node]? = some n → n.opcode = .constant →
    n.attr = .imm bits → d.graph.typeOf? v = some t → d.conversions.get? v = some c →
    c.parts.Spell d.graph (T.transform t) bits

namespace Tidy

theorem shortens (h : d.Tidy T) (hnodes : d'.graph.nodes = d.graph.nodes)
    (hr : d.replaced.Shortens d'.replaced) (hc : d'.conversions = d.conversions) : d'.Tidy T := by
  have htype := Graph.typeOf?_congr hnodes
  refine ⟨fun v hv => ?_, fun v n hn hop => ?_, fun v n t bits c hn hop hattr ht hv => ?_⟩
  · rw [hc]
    exact h.apart v fun hnone => hv ((hr.next?_eq_none v).2 hnone)
  · rw [hnodes] at hn
    exact (hr.next?_eq_none v).2 (h.plain v n hn hop)
  · rw [hnodes] at hn
    rw [htype] at ht
    rw [hc] at hv
    exact (h.spelled v n t bits c hn hop hattr ht hv).mono fun j m hm => hnodes ▸ hm

/-- Rules redirect and convert nothing. -/
theorem grows (h : d.Tidy T) (ht : d.Typed T limit strict total) (hg : d.Grows d') : d'.Tidy T := by
  have hold (v : Value) (n : Node) (t : ValueType) (hn : d'.graph.nodes[v.node]? = some n)
      (ht : d.graph.typeOf? v = some t) : d.graph.nodes[v.node]? = some n := by
    rwa [← hg.graph.getElem?_eq (Graph.lt_size_of_typeOf? ht)]
  refine ⟨fun v hv => ?_, fun v n hn hop => ?_, fun v n t bits c hn hop hattr hv hc => ?_⟩
  · refine hg.get?_eq_none (h.apart v fun hnone => hv ((hg.replaced.next?_eq_none v).2 hnone))
  · rw [hg.replaced.next?_eq_none]
    by_contra hne
    obtain ⟨t, htype, _⟩ := ht.redirected v hne
    exact hne (h.plain v n (hold v n t hn htype) hop)
  · rcases hg.conversions v with ⟨_, hnone⟩ | ⟨kind, p, q, hp, hq, hpq⟩
    · rw [hc] at hnone
      cases hnone
    · rw [hc] at hq
      cases hq
      obtain ⟨u, hu, _⟩ := ht.converted v _ hp
      cases hv.symm.trans (hg.graph.typeOf? hu)
      have hspell := h.spelled v n t bits _ (hold v n t hn hu) hop hattr hu hp
      -- constants are not redirected, so the parts have not moved
      have heq : q = p := hspell.rel (fun v w bits hv hr =>
        hr.eq_of_next?_eq_none (h.plain v _ hv rfl)) hpq
      rw [heq]
      exact hspell.mono fun j m => hg.graph.getElem?

end Tidy

end Draft

/-! ### Visits -/

namespace Engine

variable {s s' : Run} {rank : Nat → Nat} {i : Nat}

section
variable (hvisits : s.draft.Visits T limit strict total id n ts)
include hvisits

theorem Converted.tidy (h : s.draft.Tidy T) (hplain : s.draft.replaced.next? ⟨id, 0⟩ = none)
    (hres : n.results = [t]) (hc : Converted T id n.opcode 0 t s s') : s'.draft.Tidy T := by
  obtain ⟨rank, hd⟩ := hvisits.descends
  obtain ⟨rule, kind, parts, s₁, hrule, hkind, hran, hrec⟩ := hc
  obtain ⟨s₀, hq, hrun, _⟩ := hran
  have hvisits' := hvisits.quiet hq.draft
  have hd₁ := hd.shortens hq.replaced
  have hg := Edit.grows_of_ok hrun
  have hd₂ := hd₁.shortens hg.replaced
  have htidy : s₁.draft.Tidy T :=
    (h.shortens (by rw [hq.graph]) hq.replaced hq.conversions).grows hvisits'.typed hg
  have hat := hg.graph.getElem? hvisits'.node_at
  have hget := (Conversions.insert_eq_ok hrec.conversions).2.2
  refine ⟨fun v hv => ?_, fun v m hm hop => ?_, fun v m u bits c hm hop hattr hu hv => ?_⟩
  · rw [Ne, hrec.replaced.next?_eq_none] at hv
    rw [hget, if_neg]
    · exact htidy.apart v hv
    · rintro rfl
      rw [hg.replaced.next?_eq_none, hq.replaced.next?_eq_none] at hv
      exact hv hplain
  · rw [hrec.graph] at hm
    exact (hrec.replaced.next?_eq_none v).2 (htidy.plain v m hm hop)
  · rw [hrec.graph] at hm hu ⊢
    rw [hget] at hv
    split at hv
    · next heq =>
      cases hv
      subst heq
      cases hat.symm.trans hm
      have hut : u = t := by
        simp only [Graph.typeOf?, hat, Option.bind_some, hres, List.getElem?_cons_zero] at hu
        exact (Option.some.inj hu).symm
      subst hut
      rw [hop] at hrule
      let C : EditSpec := ⟨s₀.draft, s₁.draft.graph, fun _ _ => True, fun _ => True, rank, hd₁⟩
      have hspell : parts.Spell s₁.draft.graph (T.transform u) bits := by
        have hholds := EditSpec.Meets.holds (C := C) (.spell hvisits.regular (fun _ _ => trivial)
          hat hres hattr hrule) (by rw [hrun]; rfl)
        rw [hrun] at hholds
        exact hholds.2
      have heq : parts.map s₁.draft.replaced.canon = parts :=
        hspell.rel (R := fun v w => w = s₁.draft.replaced.canon v) (by
          rintro v _ bits hv rfl
          exact hd₂.canon_self (htidy.plain v _ hv rfl)) (parts.rel_map _)
      rw [heq]
      exact hspell
    · exact htidy.spelled v m u bits c hm hop hattr hu hv

/-- A node that has operands is no constant. -/
theorem ne_constant {v : Value} (hv : v ∈ n.operands) : n.opcode ≠ .constant := fun hop => by
  obtain ⟨_, hts, _⟩ := hvisits.suited.typeOf? hv
  rcases hvisits.suited.typed with ⟨hout, _⟩ | ⟨t, _, hsig⟩
  · rw [hop] at hout
    cases hout
  · rw [hop] at hsig
    rcases hsig with hsig | ⟨_, hlib, _⟩
    · cases hsig
      cases hts
    · cases hlib

theorem Revised.tidy (h : s.draft.Tidy T) (hr : Revised T id n i s s') : s'.draft.Tidy T := by
  have hcases := hr.cases
  obtain ⟨v, _, _, _, _, hv, _⟩ := hr
  rcases hcases with ⟨_, _, _, _, hg, _⟩ | ⟨w, s₁, _, hg, _, hrep⟩
  · exact h.grows hvisits.typed hg
  · have htidy := h.grows hvisits.typed hg
    have htype := Graph.typeOf?_congr hrep.nodes
    refine ⟨fun u hu => ?_, fun u m hm hop => ?_, fun u m t bits c hm hop hattr ht hc => ?_⟩
    · rw [hrep.conversions]
      split
      · rfl
      · next hne => exact htidy.apart u fun hnone => hu ((hrep.next u).2 ⟨hne, hnone⟩)
    · rw [hrep.nodes] at hm
      refine (hrep.next u).2 ⟨?_, htidy.plain u m hm hop⟩
      rintro rfl
      cases (hg.graph.getElem? hvisits.node_at).symm.trans hm
      exact ne_constant hvisits (List.mem_of_getElem? hv) hop
    · rw [hrep.nodes] at hm
      rw [htype] at ht
      rw [hrep.conversions] at hc
      split at hc
      · cases hc
      · exact (htidy.spelled u m t bits c hm hop hattr ht hc).mono fun j m hm => hrep.nodes ▸ hm

/-- A visit leaves a draft tidy. -/
theorem Visited.tidy (h : s.draft.Tidy T) (hplain : s.draft.replaced.next? ⟨id, 0⟩ = none)
    (hv : Visited T id n s s') : s'.draft.Tidy T := by
  cases hv with
  | converted t hres _ hc => exact hc.tidy hvisits h hplain hres
  | kept _ hq _ => exact h.shortens (by rw [hq.graph]) hq.replaced hq.conversions
  | revised i _ hr => exact hr.tidy hvisits h

end

/-- The drafts of a run are tidy. -/
theorem Head.tidy {config : Config} {root : NodeId} {ids : List NodeId} (hT : T.Regular)
    (htotal : total → strict) (hg : Rooted g root)
    (hnodes : ∀ (id : Nat) n, g.nodes[id]? = some n → ∃ ts, Suited T limit strict total g n ts)
    (hs : Head T config g ids s) : s.draft.Tidy T := by
  induction hs with
  | seeded hs hp =>
    obtain ⟨hseeded, _, _⟩ := (ends_prepare config hs).of_ok hp
    refine ⟨fun v _ => hseeded.unconverted v, fun v _ _ _ => hseeded.plain v,
      fun v _ _ _ c _ _ _ _ hc => ?_⟩
    rw [hseeded.unconverted] at hc
    cases hc
  | @visited ids rest id s s' hhead hw hstep ih =>
    obtain ⟨n, rank, hn, hsound, hends⟩ := hhead.next hg hw
    obtain ⟨worklist, visited, s₁, _, hvisited, _, hk⟩ :=
      (hends (E := fun _ => True) fun _ _ => trivial).of_ok hstep
    obtain ⟨ts, hvisits⟩ := (hhead.typed hT htotal hg hnodes).visits_head hT hsound hw hn
    have htidy := Visited.tidy (s := { s with worklist, visited }) hvisits ih
      (plain_head hsound hw 0) hvisited
    exact htidy.shortens (by rw [hk.graph]; rfl) hk.replaced hk.conversions

end Engine

end Dataflow.Legal
