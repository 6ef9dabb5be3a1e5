import Dataflow.Proofs.Analysis
import Dataflow.Proofs.Flow

/-!
# Ranks of nodes

Operands, redirections and parts all lead to nodes of lower rank. The nodes that a rule creates for
node `id` read values below `id` and earlier new nodes, so they find room just below `id`, and what
the rule returns is below `id` again.
-/

namespace Dataflow.Legal

/-- Everything that a draft refers to exists and has lower rank than what refers to it. -/
structure Draft.Ordered (d : Draft) (rank : Nat → Nat) : Prop where
  operands : ∀ (id : Nat) n v, d.graph.nodes[id]? = some n → v ∈ n.operands →
    v.node < id ∧ rank v.node < rank id
  next : ∀ v w, d.replaced.next? v = some w →
    v.node < d.graph.size ∧ w.node < d.graph.size ∧ rank w.node < rank v.node
  parts : ∀ v c, d.conversions.get? v = some c → v.node < d.graph.size ∧
    Tracked.all (fun p => p.node < d.graph.size ∧ rank p.node < rank v.node) c.parts

namespace Draft.Ordered

variable {d d' : Draft} {rank : Nat → Nat}

theorem descends (h : d.Ordered rank) : d.replaced.Descends rank :=
  fun v w hw => (h.next v w hw).2.2

theorem reaches_lt (h : d.Ordered rank) {v w : Value} (hr : d.replaced.Reaches v w)
    (hv : v.node < d.graph.size) : w.node < d.graph.size := by
  induction hr with
  | refl => exact hv
  | step hn _ ih => exact ih (h.next _ _ hn).2.1

theorem canon_lt (h : d.Ordered rank) {v : Value} (hv : v.node < d.graph.size) :
    (d.replaced.canon v).node < d.graph.size :=
  h.reaches_lt (h.descends.reaches_canon v) hv

theorem ranked (h : d.Ordered rank) : d.Ranked rank where
  operands id n v hn hv := (h.operands id n v hn hv).2
  sources id n v hn hv := h.canon_lt
    (Nat.lt_trans (h.operands id n v hn hv).1 (Graph.lt_size_of_getElem? hn))
  descends := h.descends

/-- A draft of the same nodes, with compressed redirections. -/
theorem shortens (h : d.Ordered rank) (hg : d'.graph.nodes = d.graph.nodes)
    (hr : d.replaced.Shortens d'.replaced) (hc : d'.conversions = d.conversions) :
    d'.Ordered rank := by
  have hsize : d'.graph.size = d.graph.size := by rw [Graph.size, hg, Graph.size]
  refine ⟨by rw [hg]; exact h.operands, fun v w hw => ?_, by rw [hc, hsize]; exact h.parts⟩
  obtain ⟨u, hu, hr⟩ := hr.reaches v w hw
  have hvu := h.next v u hu
  rw [hsize]
  exact ⟨hvu.1, h.reaches_lt hr hvu.2.1, Nat.lt_of_le_of_lt (h.descends.reaches hr) hvu.2.2⟩

end Draft.Ordered

/-! ### Room for new nodes -/

/-- Ranks with room for nodes that are numbered from `size` on, just below node `id`. -/
def makeRoom (rank : Nat → Nat) (id size room x : Nat) : Nat :=
  if size ≤ x then rank id + min (x - size) room
  else if rank id ≤ rank x then rank x + room + 1
  else rank x

section
variable {rank : Nat → Nat} {id size room i j : Nat}

theorem makeRoom_lt_iff (hi : i < size) (hj : j < size) :
    makeRoom rank id size room i < makeRoom rank id size room j ↔ rank i < rank j := by
  simp only [makeRoom, show ¬ size ≤ i by omega, show ¬ size ≤ j by omega, if_false]
  split <;> split <;> omega

theorem makeRoom_lt_self (hid : id < size) (hi : size ≤ i ∨ rank i < rank id) :
    makeRoom rank id size room i < makeRoom rank id size room id := by
  unfold makeRoom
  rw [if_neg (show ¬ size ≤ id by omega), if_pos (Nat.le_refl _)]
  split
  · omega
  · split <;> omega

theorem makeRoom_lt_new (hi : size ≤ i ∨ rank i < rank id) (hij : i < j) (hj : size ≤ j)
    (hroom : j - size < room) :
    makeRoom rank id size room i < makeRoom rank id size room j := by
  unfold makeRoom
  rw [if_pos hj]
  split
  · omega
  · split <;> omega

end

/-! ### Edits of a visit -/

/-- `v` exists and has lower rank than node `id`. -/
def Draft.Below (d : Draft) (rank : Nat → Nat) (id : Nat) (v : Value) : Prop :=
  v.node < d.graph.size ∧ rank v.node < rank id

/-- The scope of a visit of node `id` that ends with `bound` nodes: what is below `id`, and new
nodes. -/
def Draft.scope (d : Draft) (rank : Nat → Nat) (bound : Nat) {id : Nat} (hid : id < d.graph.size) :
    Scope where
  id := id
  size := d.graph.size
  bound := bound
  low v := d.graph.size ≤ v.node ∧ v.node < bound ∨ d.Below rank id v
  plain v := d.replaced.next? v = none
  id_lt := hid
  low_new _ h h' := .inl ⟨h, h'⟩

namespace Draft.Ordered

variable {d d' : Draft} {rank : Nat → Nat} {id bound : Nat}

theorem closed (h : d.Ordered rank) (hid : id < d.graph.size) :
    (d.scope rank bound hid).Closed d where
  size_le := Nat.le_refl _
  plain_iff _ := Iff.rfl
  operands n hn v hv := by
    have hlt := h.operands id n v hn hv
    exact .inr ⟨Nat.lt_trans hlt.1 hid, hlt.2⟩
  next v w hw hv := by
    have hvw := h.next v w hw
    rcases hv with hv | hv
    · exact absurd hv.1 (by omega)
    · exact .inr ⟨hvw.2.1, Nat.lt_trans hvw.2.2 hv.2⟩
  parts v c hc hv := by
    obtain ⟨hlt, hparts⟩ := h.parts v c hc
    rcases hv with hv | hv
    · exact absurd hv.1 (by omega)
    · exact Tracked.mono (fun p hp => .inr ⟨hp.1, Nat.lt_trans hp.2 hv.2⟩) hparts
  descends := ⟨rank, h.descends⟩
  fresh i n hi hn := absurd (Graph.lt_size_of_getElem? hn) (Nat.not_lt.2 hi)

/-- The new nodes of an edit find room below the visited node. -/
theorem grows (h : d.Ordered rank) (hid : id < d.graph.size) (hg : d.Grows d')
    (hc : (d.scope rank bound hid).Closed d') :
    d'.Ordered (makeRoom rank id d.graph.size (d'.graph.size - d.graph.size)) := by
  have hsize := hg.graph.size_le
  refine ⟨fun i n v hn hv => ?_, fun v w hw => ?_, fun v c hv => ?_⟩
  · by_cases hi : i < d.graph.size
    · rw [hg.graph.getElem?_eq hi] at hn
      obtain ⟨hlt, hrank⟩ := h.operands i n v hn hv
      exact ⟨hlt, (makeRoom_lt_iff (by omega) hi).2 hrank⟩
    · have hlt := hg.graph.operand_lt (by omega) hn hv
      have hin := Graph.lt_size_of_getElem? hn
      have hlow := ((hc.fresh i n (Nat.le_of_not_lt hi) hn).2 v hv).1.imp And.left And.right
      exact ⟨hlt, makeRoom_lt_new hlow hlt (by omega) (by omega)⟩
  · obtain ⟨u, hu, hr⟩ := hg.replaced.reaches v w hw
    obtain ⟨hv, hu, hrank⟩ := h.next v u hu
    have hw := h.reaches_lt hr hu
    have := h.descends.reaches hr
    exact ⟨by omega, by omega, (makeRoom_lt_iff hw hv).2 (by omega)⟩
  · rcases hg.conversions v with ⟨_, hnone⟩ | ⟨kind, p, q, hp, hq, hpq⟩
    · rw [hnone] at hv; cases hv
    · rw [hq] at hv
      cases hv
      obtain ⟨hv, hparts⟩ := h.parts v _ hp
      have move : ∀ a b : Value, d.replaced.Reaches a b →
          a.node < d.graph.size ∧ rank a.node < rank v.node → b.node < d'.graph.size ∧
            makeRoom rank id d.graph.size (d'.graph.size - d.graph.size) b.node <
              makeRoom rank id d.graph.size (d'.graph.size - d.graph.size) v.node := by
        intro a b hab ha
        have hb := h.reaches_lt hab ha.1
        have := h.descends.reaches hab
        exact ⟨by omega, (makeRoom_lt_iff hb hv).2 (by omega)⟩
      refine ⟨by omega, ?_⟩
      cases p <;> cases q <;> simp only [Parts.Rel] at hpq
      · exact move _ _ hpq hparts
      · exact ⟨move _ _ hpq.1 hparts.1, move _ _ hpq.2 hparts.2⟩

end Draft.Ordered

end Dataflow.Legal
