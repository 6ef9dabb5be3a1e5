import Dataflow.Proofs.Flow.Rules
import Dataflow.Proofs.Order
import Dataflow.Proofs.Schedule

/-!
# Visits

What a visit does: it runs a rule, which adds nodes below the visited one; it records the parts
that the rule returns, or redirects the visited node to a successor; and it tells the users. All of
this keeps a run sound: ranks, use lists and schedule are as they should be, and only values of
processed nodes, and of the visited one, are redirected or converted.
-/

namespace Dataflow.Legal

/-- How the values of an illegal type are converted. -/
def Action.kind? : Action → Option ConversionKind
  | .legal => none
  | .promoteInteger | .promoteFloat => some .promoted
  | .expandInteger => some .expandedInteger
  | .expandFloat => some .expandedFloat
  | .scalarize => some .scalarized
  | .split => some .split

namespace Run

/-- Ranks and use lists are right, and only values of processed nodes and of the current one are
redirected or converted. -/
structure Wired (s : Run) (current : Option Nat) (rank : Nat → Nat) : Prop where
  ordered : s.draft.Ordered rank
  attached : s.draft.graph.Attached s.draft.replaced.canon
  redirected : ∀ v w, s.draft.replaced.next? v = some w →
    s.states.get v.node = .processed ∨ current = some v.node
  converted : ∀ v c, s.draft.conversions.get? v = some c →
    s.states.get v.node = .processed ∨ current = some v.node

structure Sound (s : Run) (current : Option Nat) (rank : Nat → Nat) : Prop
    extends s.Wired current rank where
  scheduled : s.Scheduled current s.waiting
  sourced : s.Sourced

theorem Wired.keeps {s s' : Run} {current : Option Nat} {rank : Nat → Nat}
    (h : s.Wired current rank) (hk : s.Keeps s') : s'.Wired current rank where
  ordered := h.ordered.shortens (by rw [hk.graph]) hk.replaced hk.conversions
  attached := by
    rw [hk.canon_eq h.ordered.descends, hk.graph]
    exact h.attached
  redirected v w hw := by
    obtain ⟨u, hu, _⟩ := hk.replaced.reaches v w hw
    rw [hk.processed_iff]
    exact h.redirected v u hu
  converted v c hc := by
    rw [hk.conversions] at hc
    rw [hk.processed_iff]
    exact h.converted v c hc

namespace Sound

variable {s s' : Run} {current : Option Nat} {rank : Nat → Nat} {id : Nat}

theorem settles (h : s.Sound current rank) (hs : s.Settles s') : s'.Sound current rank := by
  refine ⟨h.toWired.keeps hs.keeps, ?_, h.sourced.settles hs h.ordered.descends⟩
  rw [hs.keeps.waiting_eq h.ordered.descends]
  exact h.scheduled.settles hs fun _ _ => rfl

theorem lt_size (h : s.Sound (some id) rank) : id < s.draft.graph.size :=
  h.scheduled.known id (by rw [h.scheduled.current id rfl]; simp)

/-- Nodes that are ready or processed read processed nodes. -/
theorem source_processed (h : s.Sound current rank)
    (hid : s.states.get id = .ready ∨ s.states.get id = .processed) {n : Node} {v : Value}
    (hn : s.draft.graph.nodes[id]? = some n) (hv : v ∈ n.operands) :
    s.states.get (s.draft.replaced.canon v).node = .processed := by
  have hidle := h.scheduled.idle id hid
  rw [waiting_eq hn, List.countP_eq_zero] at hidle
  simpa [waits, States.isProcessed] using hidle v hv

theorem ready_head (h : s.Sound none rank) {rest : List Nat} (hw : s.worklist = id :: rest) :
    s.states.get id = .ready :=
  ((h.scheduled.mem_iff id).1 (by rw [hw]; exact List.mem_cons_self)).1

section Edit

variable {d : Draft} {bound : Nat}

theorem canon_edit (h : s.Sound current rank) (hg : s.draft.Grows d) :
    d.replaced.canon = s.draft.replaced.canon :=
  h.ordered.descends.canon_shortens hg.replaced

theorem getElem?_edit (h : s.Sound current rank) (hg : s.draft.Grows d) {j : Nat}
    (hj : s.states.get j ≠ .new) : d.graph.nodes[j]? = s.draft.graph.nodes[j]? :=
  hg.graph.getElem?_eq (h.scheduled.known j hj)

theorem waiting_edit (h : s.Sound current rank) (hg : s.draft.Grows d) {j : Nat}
    (hj : s.states.get j ≠ .new) :
    ({ s with draft := d } : Run).waiting j = s.waiting j := by
  have hwaits : ({ s with draft := d } : Run).waits = s.waits := by
    funext v
    simp only [waits, h.canon_edit hg]
  simp only [waiting, h.getElem?_edit hg hj, hwaits]

/-- An edit of the visited node keeps a run sound. -/
theorem edit (h : s.Sound (some id) rank) (hg : s.draft.Grows d)
    (hc : (s.draft.scope rank bound h.lt_size).Closed d) :
    ({ s with draft := d } : Run).Sound (some id)
      (makeRoom rank id s.draft.graph.size (d.graph.size - s.draft.graph.size)) where
  ordered := h.ordered.grows h.lt_size hg hc
  attached := by
    dsimp only
    rw [h.canon_edit hg]
    exact h.attached.grow hg.graph fun j n hj hn v hv =>
      h.ordered.descends.canon_self ((hc.fresh j n hj hn).2 v hv).2
  redirected v w hw := by
    obtain ⟨u, hu, _⟩ := hg.replaced.reaches v w hw
    exact h.redirected v u hu
  converted v c hv := by
    rcases hg.conversions v with ⟨_, hnone⟩ | ⟨kind, p, q, hp, _⟩
    · dsimp only at hv
      rw [hnone] at hv
      cases hv
    · exact h.converted v _ hp
  scheduled :=
    { nodup := h.scheduled.nodup
      mem_iff := h.scheduled.mem_iff
      current := h.scheduled.current
      known := fun j hj => Nat.lt_of_lt_of_le (h.scheduled.known j hj) hg.graph.size_le
      pending := fun j k hk => by
        rw [h.waiting_edit hg (by rw [hk]; simp)]
        exact h.scheduled.pending j k hk
      idle := fun j hj => by
        rw [h.waiting_edit hg (by rcases hj with hj | hj <;> rw [hj] <;> simp)]
        exact h.scheduled.idle j hj }
  sourced j n v hj hn hv := by
    dsimp only
    rw [h.canon_edit hg]
    rw [h.getElem?_edit hg hj] at hn
    exact h.sourced j n v hj hn hv

end Edit

/-- Neither the root nor the log matters. -/
theorem setRoot (h : s.Sound current rank) (root : NodeId) (log : Array Event) :
    ({ s with draft := { s.draft with log }, root } : Run).Sound current rank where
  ordered :=
    { operands := h.ordered.operands
      next := h.ordered.next
      parts := h.ordered.parts }
  attached := h.attached
  redirected := h.redirected
  converted := h.converted
  scheduled := h.scheduled.of_eq rfl rfl rfl
  sourced := h.sourced

/-- Parts of lower rank may be recorded for a result of the visited node. -/
theorem record (h : s.Sound (some id) rank) {slot : Nat} {kind : ConversionKind} {parts : Parts}
    (hparts : Tracked.all (fun p => p.node < s.draft.graph.size ∧ rank p.node < rank id) parts)
    {conversions : Conversions} (log : Array Event)
    (hins : s.draft.conversions.insert kind ⟨id, slot⟩ parts = .ok conversions) :
    ({ s with draft := { s.draft with conversions, log } } : Run).Sound (some id) rank := by
  obtain ⟨_, _, hget⟩ := Conversions.insert_eq_ok hins
  have hparts' (u : Value) (c : Conversion) (hu : conversions.get? u = some c) :
      u.node = id ∧ c.parts = parts ∨ s.draft.conversions.get? u = some c := by
    rw [hget] at hu
    split at hu
    · next hkey =>
      cases hu
      exact .inl ⟨by rw [hkey], rfl⟩
    · exact .inr hu
  exact
    { ordered :=
        { operands := h.ordered.operands
          next := h.ordered.next
          parts := fun u c hu => by
            rcases hparts' u c hu with ⟨hnode, hc⟩ | hu
            · rw [hnode, hc]
              exact ⟨h.lt_size, hparts⟩
            · exact h.ordered.parts u c hu }
      attached := h.attached
      redirected := h.redirected
      converted := fun u c hu => by
        rcases hparts' u c hu with ⟨hnode, -⟩ | hu
        · exact .inr (by rw [hnode])
        · exact h.converted u c hu
      scheduled := h.scheduled.of_eq rfl rfl rfl
      sourced := h.sourced }

end Sound

end Run

namespace Engine

open Run

variable {α : Type} {E : Error → Prop} {s : Run} {rank : Nat → Nat} {id : Nat}

/-- `x` returned `a` inside a run, between `s` and `s'`. -/
def Ran (x : Edit α) (s : Run) (a : α) (s' : Run) : Prop :=
  ∃ s₀, s.Quiet s₀ ∧ x.run s₀.draft = .ok a s'.draft ∧ s' = { s₀ with draft := s'.draft }

theorem Ran.stays {x : Edit α} {a : α} {s' : Run} (h : Ran x s a s') :
    s.Stays s' ∧ s'.root = s.root := by
  obtain ⟨s₀, hq, _, hs'⟩ := h
  have hstates : s'.states = s.states := by rw [hs', ← hq.states]
  refine ⟨⟨fun j => by rw [hstates], fun j hj => by rw [hstates]; exact hj⟩, ?_⟩
  rw [hs', ← hq.root]

theorem Ran.grows {x : Edit α} {a : α} {s' : Run} (h : Ran x s a s') :
    s.draft.Grows s'.draft := by
  obtain ⟨s₀, hq, hrun, _⟩ := h
  exact hq.draft.grows.trans (Edit.grows_of_ok hrun)

/-- A rule for the visited node returns values below it, and creates nodes of one result and
outputs. -/
theorem ends_rule [Tracked α] {x : Edit α} {s₀ : Run} (hq : s.Quiet s₀)
    (h : s₀.Sound (some id) rank) (hflow : ∀ S : Scope, S.id = id → S.Flows x)
    (herr : ∀ s₁ e d, s.Quiet s₁ → x.run s₁.draft = .error e d → e.FromRule → E e) :
    Ends E (liftM x : Engine α) s₀ fun a s' => Ran x s a s' ∧
      ∃ rank', s'.Sound (some id) rank' ∧ Tracked.all (s'.draft.Below rank' id) a ∧
        ∀ (j : Nat) n, s.draft.graph.size ≤ j → s'.draft.graph.nodes[j]? = some n → n.Shaped := by
  have hf := hflow (s₀.draft.scope rank _ h.lt_size) rfl s₀.draft (h.ordered.closed h.lt_size)
    (Nat.le_refl _)
  have hg := x.grows s₀.draft
  refine .ofEdit (fun a d hr => ?_) fun e d hr => ?_
  · rw [hr] at hf hg
    refine ⟨⟨s₀, hq, hr, rfl⟩, _, h.edit hg hf.1, ?_, fun j n hj hn => ?_⟩
    · refine Tracked.mono (fun v hv => ⟨?_, ?_⟩) hf.2
      · rcases hv with hv | hv
        · exact hv.2
        · exact Nat.lt_of_lt_of_le hv.1 hg.graph.size_le
      · exact makeRoom_lt_self h.lt_size (hv.imp And.left And.right)
    · rw [← hq.graph] at hj
      exact (hf.1.fresh j n hj hn).1
  · rw [hr] at hf
    exact herr s₀ e d hq hr hf.2

/-! ### Recorded parts -/

/-- `s'` is `s` with parts recorded for a result of node `id`. -/
structure Recorded (id slot : Nat) (kind : ConversionKind) (parts : Parts) (s s' : Run) : Prop
    extends s.Stays s' where
  graph : s'.draft.graph = s.draft.graph
  replaced : s.draft.replaced.Shortens s'.draft.replaced
  conversions : s.draft.conversions.insert kind ⟨id, slot⟩
    (parts.map s.draft.replaced.canon) = .ok s'.draft.conversions
  root : s'.root = s.root

/-- The canonical forms of parts are analysed. -/
theorem ends_analyzeParts (h : s.draft.Ordered rank) {parts : Parts}
    (hparts : Tracked.all (fun p => p.node < s.draft.graph.size) parts) :
    Ends E (analyzeParts parts) s fun parts' s' =>
      parts' = parts.map s.draft.replaced.canon ∧ s.Settles s' ∧
        Tracked.all (fun p => s'.states.get p.node ≠ .new) parts' := by
  have hd := h.descends
  cases parts with
  | one w =>
    refine .bind (ends_canonical hd w) ?_
    rintro _ s₁ ⟨rfl, h₁⟩
    refine .bind (ends_analyze (h.ranked.keeps h₁.settles.keeps) ?_) ?_
    · rw [h₁.graph]
      exact h.canon_lt hparts
    rintro _ s₂ h₂
    exact .pure ⟨rfl, h₁.settles.trans h₂.settles hd, h₂.analyzed⟩
  | two lo hi =>
    refine .bind (ends_canonical hd lo) ?_
    rintro _ s₁ ⟨rfl, h₁⟩
    have hr₁ := h.ranked.keeps h₁.settles.keeps
    refine .bind (ends_canonical hr₁.descends hi) ?_
    rintro _ s₂ ⟨rfl, h₂⟩
    have h₁₂ := h₁.trans h₂
    have hr₂ := h.ranked.keeps h₁₂.settles.keeps
    rw [h₁.settles.keeps.canon_eq hd]
    refine .bind (ends_analyze hr₂ ?_) ?_
    · rw [h₁₂.graph]
      exact h.canon_lt hparts.1
    rintro _ s₃ h₃
    refine .bind (ends_analyze (hr₂.keeps h₃.settles.keeps) ?_) ?_
    · rw [h₃.settles.graph, h₁₂.graph]
      exact h.canon_lt hparts.2
    rintro _ s₄ h₄
    exact .pure ⟨rfl, (h₁₂.settles.trans h₃.settles hd).trans h₄.settles hd,
      h₄.settles.analyzed h₃.analyzed, h₄.analyzed⟩

theorem ends_record (h : s.Sound (some id) rank) (slot : Nat) (kind : ConversionKind)
    {parts : Parts} (hlow : Tracked.all (s.draft.Below rank id) parts)
    (herr : ∀ e, s.draft.conversions.insert kind ⟨id, slot⟩
      (parts.map s.draft.replaced.canon) = .error e → E (.conversion e)) :
    Ends E (record kind ⟨id, slot⟩ parts) s fun _ s' =>
      s'.Sound (some id) rank ∧ Recorded id slot kind parts s s' := by
  unfold record
  refine .bind (ends_analyzeParts h.ordered (Tracked.mono (fun _ hp => hp.1) hlow)) ?_
  rintro _ s₁ ⟨rfl, hs, -⟩
  refine .bind (P := fun x s' => s₁ = x ∧ s₁ = s') ⟨rfl, rfl⟩ ?_
  rintro _ _ ⟨rfl, rfl⟩
  rw [← hs.conversions] at herr
  cases hins : s₁.draft.conversions.insert kind ⟨id, slot⟩ (parts.map s.draft.replaced.canon) with
  | error e => exact herr e hins
  | ok conversions =>
    refine .bind (P := fun x s' => conversions = x ∧ s₁ = s') ?_ ?_
    · exact ⟨rfl, rfl⟩
    rintro _ _ ⟨rfl, rfl⟩
    refine .bind (P := fun _ s' =>
      { s₁ with draft := { s₁.draft with conversions } } = s') rfl ?_
    rintro _ _ rfl
    have below (p : Value) (hp : s.draft.Below rank id p) :
        (s.draft.replaced.canon p).node < s₁.draft.graph.size ∧
          rank (s.draft.replaced.canon p).node < rank id :=
      ⟨hs.graph ▸ h.ordered.canon_lt hp.1,
        Nat.lt_of_le_of_lt (h.ordered.descends.rank_canon p) hp.2⟩
    have hparts : Tracked.all (fun p => p.node < s₁.draft.graph.size ∧ rank p.node < rank id)
        (parts.map s.draft.replaced.canon) := by
      cases parts with
      | one p => exact below p hlow
      | two lo hi => exact ⟨below lo hlow.1, below hi hlow.2⟩
    exact .report ⟨(h.settles hs).record hparts _ hins,
      { processed_iff := hs.keeps.processed_iff
        analyzed := hs.keeps.analyzed
        graph := hs.graph
        replaced := hs.replaced
        conversions := by rw [← hs.conversions]; exact hins
        root := hs.root }⟩

theorem ends_typeOf (v : Value)
    (hE : s.draft.graph.typeOf? v = none → E (.fault .noSuchResult)) :
    Ends E (liftM (Edit.typeOf v) : Engine ValueType) s fun t s' =>
      s = s' ∧ s.draft.graph.typeOf? v = some t := by
  refine .ofEdit (fun t d h => ?_) fun e d h => ?_ <;>
    simp only [Edit.typeOf, Edit.run_bind, Edit.draft, Graph.typeOf] at h <;> split at h <;> cases h
  · exact ⟨rfl, by assumption⟩
  · exact hE (by assumption)

/-- Why parts of value `v` cannot be recorded. -/
inductive Unrecorded (d : Draft) (action : Action) (v : Value) : Parts → Error → Prop
  | untyped (w : Value) : d.graph.typeOf? v = none ∨ d.graph.typeOf? w = none →
    Unrecorded d action v (.one w) (.fault .noSuchResult)
  | misfit (w : Value) (t carrier : ValueType) : d.graph.typeOf? v = some t →
    d.graph.typeOf? w = some carrier →
    action = .promoteInteger ∧ ¬ t.bits < carrier.bits ∨
      action = .promoteFloat ∧ t.bits ≠ carrier.bits →
    Unrecorded d action v (.one w) (.fault .badPromotion)
  | taken (kind : ConversionKind) (parts : Parts) (e : ConversionError) :
    action.kind? = some kind →
    d.conversions.insert kind v (parts.map d.replaced.canon) = .error e →
    Unrecorded d action v parts (.conversion e)

theorem ends_checkSizes {fits : Nat → Nat → Bool} {v w : Value}
    (huntyped : s.draft.graph.typeOf? v = none ∨ s.draft.graph.typeOf? w = none →
      E (.fault .noSuchResult))
    (hmisfit : ∀ t carrier, s.draft.graph.typeOf? v = some t →
      s.draft.graph.typeOf? w = some carrier → ¬ fits t.bits carrier.bits →
      E (.fault .badPromotion)) :
    Ends E (checkSizes fits v w) s fun _ s' => s = s' := by
  refine .bind (ends_typeOf w fun hw => huntyped (.inr hw)) ?_
  rintro carrier _ ⟨rfl, hw⟩
  refine .bind (ends_typeOf v fun hv => huntyped (.inl hv)) ?_
  rintro t _ ⟨rfl, hv⟩
  split
  · next hfits => exact hmisfit t carrier hv hw (by simpa using hfits)
  · exact .pure rfl

theorem ends_recordParts (h : s.Sound (some id) rank) (slot : Nat) {action : Action}
    {kind : ConversionKind} (hkind : action.kind? = some kind) {parts : Parts}
    (hlow : Tracked.all (s.draft.Below rank id) parts)
    (herr : ∀ e, Unrecorded s.draft action ⟨id, slot⟩ parts e → E e) :
    Ends E (recordParts action ⟨id, slot⟩ parts) s fun _ s' =>
      s'.Sound (some id) rank ∧ Recorded id slot kind parts s s' := by
  have htaken : Ends E (record kind ⟨id, slot⟩ parts) s fun _ s' =>
      s'.Sound (some id) rank ∧ Recorded id slot kind parts s s' :=
    ends_record h slot kind hlow fun e he => herr _ (.taken kind parts e hkind he)
  cases action with
  | legal => cases hkind
  | promoteInteger | promoteFloat =>
    cases hkind
    cases parts with
    | two lo hi => exact htaken
    | one w =>
      refine .bind (ends_checkSizes (fun hu => herr _ (.untyped w hu)) fun t carrier ht hc hf =>
        herr _ (.misfit w t carrier ht hc ?_)) ?_
      · simpa using hf
      · rintro _ _ rfl
        exact htaken
  | expandInteger | expandFloat | scalarize | split =>
    cases hkind
    exact htaken

/-! ### Replaced values -/

/-- `s'` is `s` with `w` in the place of the canonical value `v`. -/
structure Replaced (v w : Value) (s s' : Run) : Prop extends s.Stays s' where
  nodes : s'.draft.graph.nodes = s.draft.graph.nodes
  canon : ∀ u, s'.draft.replaced.canon u =
    if s.draft.replaced.canon u = v then s.draft.replaced.canon w else s.draft.replaced.canon u
  next : ∀ u, s'.draft.replaced.next? u = none ↔ u ≠ v ∧ s.draft.replaced.next? u = none
  conversions : ∀ u, s'.draft.conversions.get? u =
    if u = v then none else s.draft.conversions.get? u
  root : s'.root = s.root

theorem nodup_eraseDups {α : Type} [BEq α] [LawfulBEq α] (l : List α) : l.eraseDups.Nodup := by
  match l with
  | [] => exact List.nodup_nil
  | a :: as =>
    rw [List.eraseDups_cons]
    refine List.nodup_cons.2 ⟨?_, nodup_eraseDups _⟩
    rw [List.mem_eraseDups, List.mem_filter]
    simp
termination_by l.length
decreasing_by
  simp only [List.length_cons]
  exact Nat.lt_succ_of_le (List.length_filter_le _ _)

/-- `s'` is `s` with the canonical value `v` redirected to `w`. The edges of `v` moved and its parts
are dropped, but no user was analysed again. -/
structure Redirected (v w : Value) (s s' : Run) : Prop where
  graph : s'.draft.graph = (s.draft.graph.moveUses v w).2
  next : ∀ u, s'.draft.replaced.next? u = if u = v then some w else s.draft.replaced.next? u
  canon : ∀ u, s'.draft.replaced.canon u =
    if s.draft.replaced.canon u = v then w else s.draft.replaced.canon u
  conversions : ∀ u, s'.draft.conversions.get? u =
    if u = v then none else s.draft.conversions.get? u
  states : s'.states = s.states
  worklist : s'.worklist = s.worklist
  root : s'.root = s.root

namespace Redirected

variable {s' : Run} {slot : Nat} {w : Value}

theorem nodes {v : Value} (hr : Redirected v w s s') :
    s'.draft.graph.nodes = s.draft.graph.nodes := by
  rw [hr.graph, Graph.nodes_moveUses]

theorem size {v : Value} (hr : Redirected v w s s') :
    s'.draft.graph.size = s.draft.graph.size := by
  rw [Graph.size, hr.nodes]
  rfl

theorem ordered (hr : Redirected ⟨id, slot⟩ w s s') (h : s.Sound (some id) rank)
    (hw : rank w.node < rank id) (hlt : w.node < s.draft.graph.size) :
    s'.draft.Ordered rank where
  operands := by
    rw [hr.nodes]
    exact h.ordered.operands
  next u t ht := by
    rw [hr.next] at ht
    rw [hr.size]
    split at ht
    · next hu =>
      cases ht
      subst hu
      exact ⟨h.lt_size, hlt, hw⟩
    · exact h.ordered.next u t ht
  parts u c hu := by
    rw [hr.conversions] at hu
    rw [hr.size]
    split at hu
    · cases hu
    · exact h.ordered.parts u c hu

theorem wired (hr : Redirected ⟨id, slot⟩ w s s') (h : s.Sound (some id) rank)
    (hw : rank w.node < rank id) (hlt : w.node < s.draft.graph.size) :
    s'.Wired (some id) rank where
  ordered := hr.ordered h hw hlt
  attached := by
    have hne : id ≠ w.node := fun heq => Nat.lt_irrefl _ (heq ▸ hw)
    rw [hr.graph]
    exact h.attached.moveUses h.lt_size hlt hne hr.canon
  redirected u t ht := by
    rw [hr.next] at ht
    rw [hr.states]
    split at ht
    · next hu => exact .inr (by rw [hu])
    · exact h.redirected u t ht
  converted u c hu := by
    rw [hr.conversions] at hu
    rw [hr.states]
    split at hu
    · cases hu
    · exact h.converted u c hu

theorem sourced {v : Value} (hr : Redirected v w s s') (h : s.Sourced)
    (hw : s.states.get w.node ≠ .new) : s'.Sourced := by
  intro j n u hj hn hu
  rw [hr.states] at hj
  rw [hr.nodes] at hn
  rw [hr.canon, hr.states]
  split
  · exact hw
  · exact h j n u hj hn hu

/-- A node that does not read `v` waits as before. -/
theorem waiting_eq {v : Value} (hr : Redirected v w s s') {j : Nat}
    (hj : ¬ ∃ i u, s.draft.graph.Edge j i u ∧ s.draft.replaced.canon u = v) :
    s'.waiting j = s.waiting j := by
  cases hn : s.draft.graph.nodes[j]? with
  | none => simp [waiting, hr.nodes, hn]
  | some n =>
    rw [Run.waiting_eq hn, Run.waiting_eq (s := s') (hr.nodes ▸ hn)]
    refine List.countP_congr fun u hu => ?_
    obtain ⟨i, hi⟩ := List.getElem?_of_mem hu
    have hne : s.draft.replaced.canon u ≠ v := fun heq => hj ⟨i, u, ⟨n, hn, hi⟩, heq⟩
    simp only [waits, hr.canon, if_neg hne, hr.states]

/-- Users of `v` that have states are due to wait for the edges they had before. -/
def due (s s' : Run) (users : List Nat) (j : Nat) : Nat :=
  if j ∈ users ∧ s.states.get j ≠ .new then s.waiting j else s'.waiting j

section Users

variable {users : List Nat}
  (husers : ∀ j, j ∈ users ↔ ∃ i u, s.draft.graph.Edge j i u ∧
    s.draft.replaced.canon u = ⟨id, slot⟩)

include husers

theorem due_of_known (hr : Redirected ⟨id, slot⟩ w s s') {j : Nat} (hj : s.states.get j ≠ .new) :
    due s s' users j = s.waiting j := by
  unfold due
  split
  · rfl
  · next hju => exact hr.waiting_eq fun hreads => hju ⟨(husers j).2 hreads, hj⟩

theorem scheduled (hr : Redirected ⟨id, slot⟩ w s s') (h : s.Sound (some id) rank) :
    s'.Scheduled (some id) (due s s' users) where
  nodup := hr.worklist ▸ h.scheduled.nodup
  mem_iff := by
    rw [hr.worklist, hr.states]
    exact h.scheduled.mem_iff
  current := by
    rw [hr.states]
    exact h.scheduled.current
  known := by
    rw [hr.states, hr.size]
    exact h.scheduled.known
  pending j k hk := by
    rw [hr.states] at hk
    rw [hr.due_of_known husers (by rw [hk]; simp)]
    exact h.scheduled.pending j k hk
  idle j hj := by
    rw [hr.states] at hj
    rw [hr.due_of_known husers (by rcases hj with hj | hj <;> rw [hj] <;> simp)]
    exact h.scheduled.idle j hj

/-- A user of `v` waits for it, since the visited node is not processed. -/
theorem user_waits (hr : Redirected ⟨id, slot⟩ w s s') (h : s.Sound (some id) rank) {j : Nat}
    (hj : j ∈ users) : s'.states.get j = .new ∨ ∃ k, s'.states.get j = .pending k := by
  have hwaits : s.waiting j ≠ 0 := by
    obtain ⟨i, u, ⟨n, hn, hi⟩, hu⟩ := (husers j).1 hj
    rw [Run.waiting_eq hn]
    refine Nat.pos_iff_ne_zero.1 (List.countP_pos_iff.2 ⟨u, List.mem_of_getElem? hi, ?_⟩)
    simp [waits, hu, States.isProcessed, h.scheduled.current id rfl]
  rw [hr.states]
  cases hstate : s.states.get j with
  | new => exact .inl rfl
  | pending k => exact .inr ⟨k, rfl⟩
  | ready => exact absurd (h.scheduled.idle j (.inl hstate)) hwaits
  | processed => exact absurd (h.scheduled.idle j (.inr hstate)) hwaits

end Users

theorem due_eq {v : Value} (hr : Redirected v w s s') {users : List Nat} {j : Nat}
    (hj : j ∉ users ∨ s'.states.get j = .new) : due s s' users j = s'.waiting j := by
  rw [hr.states] at hj
  refine if_neg ?_
  rintro ⟨hju, hnew⟩
  rcases hj with hj | hj
  · exact hj hju
  · exact hnew hj

/-- What is analysed before and after a redirection leaves it as it is. -/
theorem replaced {v : Value} {s₁ s₂ : Run} (hs : s.Settles s₁)
    (hr : Redirected v (s.draft.replaced.canon w) s₁ s₂) (hk : s₂.Keeps s')
    (hd : s.draft.replaced.Descends rank) (hd' : s₂.draft.replaced.Descends rank) :
    Replaced v w s s' where
  processed_iff j := by
    rw [hk.processed_iff, hr.states]
    exact hs.keeps.processed_iff j
  analyzed j hj := hk.analyzed j (by rw [hr.states]; exact hs.analyzed hj)
  nodes := by rw [hk.graph, hr.nodes, hs.graph]
  canon u := by
    rw [hk.canon_eq hd', hr.canon, hs.keeps.canon_eq hd]
  next u := by
    rw [hk.replaced.next?_eq_none, hr.next, ← hs.replaced.next?_eq_none]
    split <;> simp [*]
  conversions u := by rw [hk.conversions, hr.conversions, hs.conversions]
  root := by rw [hk.root, hr.root, hs.root]

end Redirected

theorem ends_redirect {v w : Value} (hd : s.draft.replaced.Descends rank)
    (hv : s.draft.replaced.next? v = none) (hw : s.draft.replaced.next? w = none)
    (hlow : rank w.node < rank v.node) :
    Ends E (redirect v w) s fun moved s' =>
      moved = (s.draft.graph.moveUses v w).1 ∧ Redirected v w s s' := by
  have hne : v ≠ w := fun heq => Nat.lt_irrefl _ (heq ▸ hlow)
  unfold redirect
  refine .bind (P := fun x s' => s = x ∧ s = s') ⟨rfl, rfl⟩ ?_
  rintro _ _ ⟨rfl, rfl⟩
  rcases hconv : s.draft.conversions.erase v with ⟨dropped, conversions⟩
  rcases herase : s.draft.replaced.erase v with ⟨forgotten, erased⟩
  simp only [hconv, herase]
  refine .bind (.ofFault (Q := fun r s' => erased.redirect v w = .ok r ∧ s = s') (fun f hf => ?_)
    fun r hr => ⟨hr, rfl⟩) ?_
  · rw [Replacements.redirect, if_neg hne] at hf
    cases hf
  rintro replaced _ ⟨hred, rfl⟩
  have hnext : ∀ u, replaced.next? u = if u = v then some w else s.draft.replaced.next? u := by
    intro u
    rw [Replacements.next?_redirect hred, show erased = (s.draft.replaced.erase v).2 by rw [herase],
      Replacements.next?_erase]
    split <;> rfl
  have hget : ∀ u, conversions.get? u = if u = v then none else s.draft.conversions.get? u := by
    intro u
    rw [show conversions = (s.draft.conversions.erase v).2 by rw [hconv], Conversions.get?_erase]
  refine .bind (P := fun _ s' =>
    { s with draft := { s.draft with conversions, replaced } } = s') rfl ?_
  rintro _ _ rfl
  let graph := (s.draft.graph.moveUses v w).2
  refine .bind (P := fun moved s' => (s.draft.graph.moveUses v w).1 = moved ∧
    { s with draft := { s.draft with graph, conversions, replaced } } = s') ⟨rfl, rfl⟩ ?_
  rintro _ _ ⟨rfl, rfl⟩
  refine .bind (P := fun _ s' => ∃ log,
    { s with draft := { s.draft with graph, conversions, replaced, log } } = s') ⟨_, rfl⟩ ?_
  rintro _ _ ⟨log, rfl⟩
  exact .pure ⟨rfl,
    { graph := rfl
      next := hnext
      canon := (Replacements.canon_redirect hd hw hv hlow hnext).2
      conversions := hget
      states := rfl
      worklist := rfl
      root := rfl }⟩

theorem ends_replaceValue (h : s.Sound (some id) rank) {slot : Nat}
    (hplain : s.draft.replaced.next? ⟨id, slot⟩ = none) {w : Value}
    (hlow : s.draft.Below rank id w) :
    Ends E (replaceValue ⟨id, slot⟩ w) s fun _ s' =>
      s'.Sound (some id) rank ∧ Replaced ⟨id, slot⟩ w s s' := by
  unfold replaceValue
  have hd := h.ordered.descends
  refine .bind (ends_canonical hd w) ?_
  rintro _ s₁ ⟨rfl, hq⟩
  have hw : rank (s.draft.replaced.canon w).node < rank id :=
    Nat.lt_of_le_of_lt (hd.rank_canon w) hlow.2
  have hne : id ≠ (s.draft.replaced.canon w).node := fun heq => Nat.lt_irrefl _ (heq ▸ hw)
  rw [if_neg (fun heq => hne (congrArg Value.node heq)), if_neg hne]
  refine .bind (ends_analyze (h.ordered.ranked.keeps hq.settles.keeps) ?_) ?_
  · rw [hq.graph]
    exact h.ordered.canon_lt hlow.1
  intro _ s₂ ha
  have hs := hq.settles.trans ha.settles hd
  have h₂ := h.settles hs
  refine .bind (ends_redirect h₂.ordered.descends ((hs.replaced.next?_eq_none _).2 hplain)
    ((hs.replaced.next?_eq_none _).2 (hd.next?_canon w)) hw) ?_
  rintro _ s₃ ⟨rfl, hr⟩
  have hwired := hr.wired h₂ hw (h₂.scheduled.known _ ha.analyzed)
  have husers (j : Nat) := h₂.attached.mem_movedUsers (v := ⟨id, slot⟩)
    (w := s.draft.replaced.canon w) (j := j)
  refine (ends_revisitUsers _ (nodup_eraseDups _) hwired.ordered.ranked (hr.scheduled husers h₂)
    (hr.sourced h₂.sourced ha.analyzed) (fun _ => hr.due_eq)
    fun _ => hr.user_waits husers h₂).mono ?_
  rintro _ s₄ ⟨hsched, hsrc, hk⟩
  exact ⟨⟨hwired.keeps hk, hsched, hsrc⟩, hr.replaced hs hk hd hwired.ordered.descends⟩

theorem ends_replaceResults (slots : List Nat) (hnodup : slots.Nodup) {s : Run}
    (h : s.Sound (some id) rank)
    (hplain : ∀ slot ∈ slots, s.draft.replaced.next? ⟨id, slot⟩ = none) {new : Nat}
    (hlow : new < s.draft.graph.size ∧ rank new < rank id) :
    Ends E (slots.forM fun slot => replaceValue ⟨id, slot⟩ ⟨new, slot⟩) s fun _ s' =>
      s'.Sound (some id) rank ∧ s.Stays s' ∧ s'.root = s.root ∧
        s'.draft.graph.nodes = s.draft.graph.nodes ∧
        (∀ slot, s'.draft.replaced.next? ⟨id, slot⟩ = none →
          slot ∉ slots ∧ s.draft.replaced.next? ⟨id, slot⟩ = none) ∧
        (slots = [] → s' = s) := by
  induction slots generalizing s with
  | nil => exact .pure ⟨h, .refl s, rfl, rfl, fun _ hn => ⟨List.not_mem_nil, hn⟩, fun _ => rfl⟩
  | cons slot slots ih =>
    obtain ⟨hslot, hnodup⟩ := List.nodup_cons.1 hnodup
    show Ends E (replaceValue ⟨id, slot⟩ ⟨new, slot⟩ >>= fun _ =>
      slots.forM fun slot => replaceValue ⟨id, slot⟩ ⟨new, slot⟩) s _
    refine .bind (ends_replaceValue h (hplain slot List.mem_cons_self) hlow) ?_
    rintro _ s₁ ⟨h₁, hr⟩
    refine (ih hnodup h₁ (fun k hk => ?_) ?_).mono ?_
    · refine (hr.next _).2 ⟨fun heq => hslot ?_, hplain k (List.mem_cons_of_mem slot hk)⟩
      cases heq
      exact hk
    · rw [Graph.size, hr.nodes]
      exact hlow
    · rintro _ s₂ ⟨h₂, hstays, hroot, hnodes, hnext, _⟩
      refine ⟨h₂, hr.toStays.trans hstays, hroot.trans hr.root, hnodes.trans hr.nodes,
        fun k hk => ?_, by simp⟩
      obtain ⟨hk, hk₁⟩ := hnext k hk
      obtain ⟨hne, hk₀⟩ := (hr.next _).1 hk₁
      exact ⟨List.not_mem_cons_of_ne_of_not_mem (fun heq => hne (by rw [heq])) hk, hk₀⟩

/-- Node `id` with results of the types `results` gave way to node `new`. -/
structure Succeeded (id new : Nat) (results : List ValueType) (s s' : Run) : Prop
    extends s.Stays s' where
  nodes : s'.draft.graph.nodes = s.draft.graph.nodes
  root : s'.root = if s.root = id then new else s.root
  known : s'.states.get new ≠ .new
  length : ∃ m, s.draft.graph.nodes[new]? = some m ∧ m.results.length = results.length
  next : ∀ slot, s'.draft.replaced.next? ⟨id, slot⟩ = none → results.length ≤ slot
  empty : results = [] → s.draft.Quiet s'.draft

theorem ends_replaceNode (h : s.Sound (some id) rank)
    (hplain : ∀ slot, s.draft.replaced.next? ⟨id, slot⟩ = none) {n : Node}
    (hn : s.draft.graph.nodes[id]? = some n) {new : Nat}
    (hlow : new < s.draft.graph.size ∧ rank new < rank id)
    (hE : ∀ m, s.draft.graph.nodes[new]? = some m → m.results.length ≠ n.results.length →
      E (.fault .noSuchResult)) :
    Ends E (replaceNode id new) s fun _ s' =>
      s'.Sound (some id) rank ∧ Succeeded id new n.results s s' := by
  unfold replaceNode
  refine .bind (ends_node id h.lt_size) ?_
  rintro m _ ⟨rfl, hm⟩
  rw [hn] at hm
  cases hm
  refine .bind (ends_node new hlow.1) ?_
  rintro m _ ⟨rfl, hm⟩
  split
  · next hlength => exact hE m hm (Ne.symm hlength)
  next hlength =>
  have hlength : m.results.length = n.results.length := (Decidable.not_not.1 hlength).symm
  refine .bind (ends_replaceResults _ List.nodup_range h (fun slot _ => hplain slot) hlow) ?_
  rintro _ s₁ ⟨h₁, hstays, hroot, hnodes, hnext, hempty⟩
  refine .bind (ends_analyze h₁.ordered.ranked ?_) ?_
  · rw [Graph.size, hnodes]
    exact hlow.1
  intro _ s₂ ha
  have h₂ := h₁.settles ha.settles
  have hstays₂ := hstays.trans ha.settles.keeps.toStays
  have hnodes₂ : s₂.draft.graph.nodes = s.draft.graph.nodes := by rw [ha.settles.graph, hnodes]
  have hnext₂ : ∀ slot, s₂.draft.replaced.next? ⟨id, slot⟩ = none → n.results.length ≤ slot := by
    intro slot hs
    have := (hnext slot ((ha.settles.replaced.next?_eq_none _).1 hs)).1
    simpa using this
  have hempty₂ : n.results = [] → s.draft.Quiet s₂.draft := by
    intro hr
    rw [← hempty (by rw [hr]; rfl)]
    exact ⟨ha.settles.graph, ha.settles.conversions, ha.settles.replaced⟩
  refine .bind (P := fun x s' => s₂ = x ∧ s₂ = s') ⟨rfl, rfl⟩ ?_
  rintro _ _ ⟨rfl, rfl⟩
  have hroot₂ : s₂.root = s.root := ha.settles.root.trans hroot
  split
  · next hold =>
    refine .bind (P := fun _ s' => ∃ log, { s₂ with draft := { s₂.draft with log } } = s')
      ⟨_, rfl⟩ ?_
    rintro _ _ ⟨log, rfl⟩
    exact .modify ⟨h₂.setRoot new log,
      { processed_iff := hstays₂.processed_iff
        analyzed := hstays₂.analyzed
        nodes := hnodes₂
        root := by rw [if_pos (hroot₂ ▸ hold)]
        known := ha.analyzed
        length := ⟨m, hm, hlength⟩
        next := hnext₂
        empty := fun hr => ⟨(hempty₂ hr).graph, (hempty₂ hr).conversions, (hempty₂ hr).replaced⟩ }⟩
  · next hold =>
    exact .pure ⟨h₂,
      { toStays := hstays₂
        nodes := hnodes₂
        root := by rw [if_neg (hroot₂ ▸ hold), hroot₂]
        known := ha.analyzed
        length := ⟨m, hm, hlength⟩
        next := hnext₂
        empty := hempty₂ }⟩

end Engine

end Dataflow.Legal
