import Dataflow.Graph

/-!
# Graphs that grow

A graph only grows, so whatever is known of a node stays true. The entries of the use lists are
followed through the two operations that change them: adding a node, which attaches its operand
edges, and moving the edges of one value to another.
-/

namespace Dataflow

/-- Nodes produce one value, except outputs, which produce none. -/
def Node.Shaped (n : Node) : Prop :=
  n.results.length = 1 ∨ n.opcode = .output ∧ n.results = []

namespace Graph

variable {g h : Graph} {n : Node} {id : Nat} {v w : Value}

@[simp]
theorem size_push (g : Graph) (n : Node) : (g.push n).size = g.size + 1 := by
  simp [push, size]

theorem getElem?_push (g : Graph) (n : Node) (id : Nat) :
    (g.push n).nodes[id]? = if id = g.size then some n else g.nodes[id]? :=
  Array.getElem?_push

theorem lt_size_of_getElem? (hn : g.nodes[id]? = some n) : id < g.size :=
  (Array.getElem?_eq_some_iff.1 hn).1

theorem lt_size_of_typeOf? {t : ValueType} (ht : g.typeOf? v = some t) : v.node < g.size := by
  obtain ⟨n, hn, _⟩ := Option.bind_eq_some_iff.1 ht
  exact lt_size_of_getElem? hn

theorem node_eq_ok {id : Nat} (hn : g.node id = .ok n) : g.nodes[id]? = some n := by
  unfold node at hn
  split at hn <;> cases hn
  assumption

theorem node_of_getElem? {id : Nat} (hn : g.nodes[id]? = some n) : g.node id = .ok n := by
  simp [node, hn]

theorem typeOf_eq_ok {t : ValueType} (ht : g.typeOf v = .ok t) : g.typeOf? v = some t := by
  unfold typeOf at ht
  split at ht <;> cases ht
  assumption

theorem operand_eq_ok {id i : Nat} (hv : g.operand id i = .ok v) :
    ∃ n, g.nodes[id]? = some n ∧ n.operands[i]? = some v := by
  unfold operand at hv
  cases hn : g.node id with
  | error f => rw [hn] at hv; cases hv
  | ok n =>
    rw [hn] at hv
    simp only [bind, Except.bind] at hv
    split at hv <;> cases hv
    exact ⟨n, node_eq_ok hn, by assumption⟩

/-! Looking up a node, a type or an operand goes along no chain. -/

theorem node_ne_cyclic (g : Graph) (id : Nat) : g.node id ≠ .error .cyclic := by
  unfold node
  split <;> exact nofun

theorem typeOf_ne_cyclic (g : Graph) (v : Value) : g.typeOf v ≠ .error .cyclic := by
  unfold typeOf
  split <;> exact nofun

theorem operand_ne_cyclic (g : Graph) (id i : Nat) : g.operand id i ≠ .error .cyclic := by
  unfold operand
  cases hn : g.node id with
  | error f =>
    intro h
    cases h
    exact node_ne_cyclic g id hn
  | ok n =>
    simp only [bind, Except.bind]
    split <;> exact nofun

namespace Extends

theorem size_le (hgh : g.Extends h) : g.size ≤ h.size := by
  induction hgh with
  | refl => exact Nat.le_refl _
  | push _ _ ih => rw [size_push]; omega

theorem getElem?_eq (hgh : g.Extends h) (hid : id < g.size) : h.nodes[id]? = g.nodes[id]? := by
  induction hgh with
  | refl => rfl
  | push hk _ ih =>
    have := hk.size_le
    rw [getElem?_push, if_neg (by omega), ih]

theorem getElem? (hgh : g.Extends h) (hn : g.nodes[id]? = some n) : h.nodes[id]? = some n := by
  rw [hgh.getElem?_eq (lt_size_of_getElem? hn), hn]

theorem typeOf? {t : ValueType} (hgh : g.Extends h) (ht : g.typeOf? v = some t) :
    h.typeOf? v = some t := by
  obtain ⟨n, hn, hs⟩ := Option.bind_eq_some_iff.1 ht
  simp [Graph.typeOf?, hgh.getElem? hn, hs]

theorem operand_lt (hgh : g.Extends h) (hid : g.size ≤ id) (hn : h.nodes[id]? = some n)
    (hv : v ∈ n.operands) : v.node < id := by
  induction hgh with
  | refl => exact absurd (lt_size_of_getElem? hn) (by omega)
  | @push k m hk hm ih =>
    rw [getElem?_push] at hn
    split at hn
    · next heq =>
      cases hn
      obtain ⟨t, ht⟩ := Option.isSome_iff_exists.1 (List.all_eq_true.1 hm v hv)
      exact heq ▸ lt_size_of_typeOf? ht
    · exact ih hn

end Extends

/-! ### Edges and use lists -/

/-- Operand `i` of node `user` is `v`. -/
def Edge (g : Graph) (user i : Nat) (v : Value) : Prop :=
  ∃ n, g.nodes[user]? = some n ∧ n.operands[i]? = some v

/-- The use list of a node. -/
def usesAt (g : Graph) (id : Nat) : List Use :=
  (g.uses[id]?.getD #[]).toList

/-- The entries that operand edges from `i` on of `user` leave at node `id`. -/
def entriesAt (id user i : Nat) : List Value → List Use
  | [] => []
  | v :: vs =>
    if v.node = id then ⟨user, i, v.slot⟩ :: entriesAt id user (i + 1) vs
    else entriesAt id user (i + 1) vs

theorem mem_entriesAt {id user i : Nat} {vs : List Value} {u : Use} :
    u ∈ entriesAt id user i vs ↔
      u.user = user ∧ i ≤ u.operand ∧ vs[u.operand - i]? = some ⟨id, u.slot⟩ := by
  induction vs generalizing i with
  | nil => simp [entriesAt]
  | cons v vs ih =>
    have step : (v :: vs)[u.operand - i]? = some ⟨id, u.slot⟩ ∧ i ≤ u.operand ↔
        u.operand = i ∧ v = ⟨id, u.slot⟩ ∨
          i + 1 ≤ u.operand ∧ vs[u.operand - (i + 1)]? = some ⟨id, u.slot⟩ := by
      by_cases hi : u.operand = i
      · simp [hi, show ¬ i + 1 ≤ i by omega]
      · by_cases hlt : i + 1 ≤ u.operand
        · rw [show u.operand - i = (u.operand - (i + 1)) + 1 by omega, List.getElem?_cons_succ]
          simp [hi, hlt, show i ≤ u.operand by omega]
        · simp [hi, hlt, show ¬ i ≤ u.operand by omega]
    rw [and_comm (a := i ≤ u.operand), step]
    cases u with | mk user' i' slot =>
    cases v with | mk node slot' =>
    simp only [entriesAt]
    split
    · next hv =>
      rw [List.mem_cons, ih]
      simp only [Use.mk.injEq, Value.mk.injEq]
      constructor
      · rintro (⟨rfl, rfl, rfl⟩ | ⟨rfl, h₁, h₂⟩)
        · exact ⟨rfl, .inl ⟨rfl, hv, rfl⟩⟩
        · exact ⟨rfl, .inr ⟨h₁, h₂⟩⟩
      · rintro ⟨rfl, ⟨rfl, _, rfl⟩ | ⟨h₁, h₂⟩⟩
        · exact .inl ⟨rfl, rfl, rfl⟩
        · exact .inr ⟨rfl, h₁, h₂⟩
    · next hv =>
      rw [ih]
      simp only [Value.mk.injEq]
      constructor
      · rintro ⟨rfl, h₁, h₂⟩
        exact ⟨rfl, .inr ⟨h₁, h₂⟩⟩
      · rintro ⟨rfl, ⟨_, hn, _⟩ | ⟨h₁, h₂⟩⟩
        · exact absurd hn hv
        · exact ⟨rfl, h₁, h₂⟩

theorem nodup_entriesAt (id user i : Nat) (vs : List Value) : (entriesAt id user i vs).Nodup := by
  induction vs generalizing i with
  | nil => exact List.Pairwise.nil
  | cons v vs ih =>
    simp only [entriesAt]
    split
    · refine List.nodup_cons.2 ⟨fun hm => ?_, ih _⟩
      have := (mem_entriesAt.1 hm).2.1
      simp only at this
      omega
    · exact ih _

theorem length_entriesAt (id user i : Nat) (vs : List Value) :
    (entriesAt id user i vs).length = vs.countP (·.node = id) := by
  induction vs generalizing i with
  | nil => rfl
  | cons v vs ih =>
    simp only [entriesAt, List.countP_cons]
    split <;> simp [*]

theorem size_attachAll (uses : Array (Array Use)) (user i : Nat) (vs : List Value) :
    (attachAll uses user i vs).size = uses.size := by
  induction vs generalizing uses i with
  | nil => rfl
  | cons v vs ih => rw [attachAll, ih, attach, Array.size_modify]

theorem toList_attachAll (uses : Array (Array Use)) (user i : Nat) (vs : List Value) (id : Nat)
    (hid : id < uses.size) :
    ((attachAll uses user i vs)[id]?.getD #[]).toList =
      (uses[id]?.getD #[]).toList ++ entriesAt id user i vs := by
  induction vs generalizing uses i with
  | nil => simp [attachAll, entriesAt]
  | cons v vs ih =>
    rw [attachAll, ih _ _ (by rw [attach, Array.size_modify]; exact hid)]
    simp only [attach, entriesAt, Array.getElem?_modify]
    by_cases hv : v.node = id
    · simp [hv, Array.getElem?_eq_getElem hid]
    · simp [hv]

theorem usesAt_push (g : Graph) (n : Node) (hsize : g.uses.size = g.size) (id : Nat) :
    (g.push n).usesAt id = g.usesAt id ++
      if id < g.size then entriesAt id g.size 0 n.operands else [] := by
  unfold usesAt push
  simp only [Array.getElem?_push, size_attachAll]
  split
  · next hid => simp [hid, hsize]
  · next hid =>
    split
    · next hlt => rw [toList_attachAll _ _ _ _ _ (by omega)]
    · next hge =>
      have hout : g.uses[id]? = none := Array.getElem?_eq_none (by omega)
      have hout' : (attachAll g.uses g.size 0 n.operands)[id]? = none :=
        Array.getElem?_eq_none (by rw [size_attachAll]; omega)
      simp [hout, hout']

theorem size_uses_push (hsize : g.uses.size = g.size) :
    (g.push n).uses.size = (g.push n).size := by
  rw [size_push]
  simp [push, size_attachAll, hsize]

/-- The use lists hold the operand edges, each once, at the node of the form that `c` gives its
operand. -/
structure Attached (g : Graph) (c : Value → Value) : Prop where
  size_uses : g.uses.size = g.size
  nodup : ∀ id, (g.usesAt id).Nodup
  mem_iff : ∀ id u, u ∈ g.usesAt id ↔ ∃ v, g.Edge u.user u.operand v ∧ c v = ⟨id, u.slot⟩

theorem Edge.unique {user i : Nat} (h : g.Edge user i v) (h' : g.Edge user i w) : v = w := by
  obtain ⟨n, hn, hv⟩ := h
  obtain ⟨m, hm, hw⟩ := h'
  rw [hn] at hm
  cases hm
  rw [hv] at hw
  exact Option.some.inj hw

theorem edge_push_iff {user i : Nat} :
    (g.push n).Edge user i v ↔ g.Edge user i v ∨ user = g.size ∧ n.operands[i]? = some v := by
  unfold Edge
  rw [getElem?_push]
  split
  · next h =>
    have hnone : g.nodes[g.size]? = none := Array.getElem?_eq_none (Nat.le_refl _)
    simp [h, hnone]
  · next h => simp [h]

/-! ### Moved edges -/

@[simp]
theorem nodes_moveUses (g : Graph) (v w : Value) : (g.moveUses v w).2.nodes = g.nodes := rfl

theorem toList_moved (g : Graph) (v w : Value) :
    (g.moveUses v w).1.toList = (g.usesAt v.node).filter (·.slot = v.slot) := by
  simp [moveUses, usesAt]

theorem toList_foldl_attach (us : List Use) (uses : Array (Array Use)) (w : Value) (id : Nat)
    (hw : w.node < uses.size) :
    ((us.foldl (fun a u => attach a u.user u.operand w) uses)[id]?.getD #[]).toList =
      (uses[id]?.getD #[]).toList ++
        if id = w.node then us.map (fun u => ⟨u.user, u.operand, w.slot⟩) else [] := by
  induction us generalizing uses with
  | nil => simp
  | cons u us ih =>
    rw [List.foldl_cons, ih _ (by rw [attach, Array.size_modify]; exact hw)]
    simp only [attach, Array.getElem?_modify]
    by_cases hid : id = w.node
    · subst hid
      simp [Array.getElem?_eq_getElem hw]
    · simp [hid, Ne.symm hid]

theorem size_foldl_attach (us : List Use) (uses : Array (Array Use)) (w : Value) :
    (us.foldl (fun a u => attach a u.user u.operand w) uses).size = uses.size := by
  induction us generalizing uses with
  | nil => rfl
  | cons u us ih => rw [List.foldl_cons, ih, attach, Array.size_modify]

theorem usesAt_moveUses (hv : v.node < g.uses.size) (hw : w.node < g.uses.size)
    (hne : v.node ≠ w.node) (id : Nat) :
    (g.moveUses v w).2.usesAt id =
      if id = v.node then (g.usesAt v.node).filter (·.slot ≠ v.slot)
      else if id = w.node then g.usesAt w.node ++
        ((g.usesAt v.node).filter (·.slot = v.slot)).map fun u => ⟨u.user, u.operand, w.slot⟩
      else g.usesAt id := by
  unfold usesAt moveUses
  simp only [← Array.foldl_toList]
  rw [toList_foldl_attach _ _ _ _ (by simpa using hw)]
  by_cases hid : id = v.node
  · subst hid
    simp [hne, hv]
  · simp only [hid, if_false, Array.getElem?_setIfInBounds, Ne.symm hid]
    by_cases hid' : id = w.node
    · simp [hid']
    · simp [hid']

theorem size_uses_moveUses (g : Graph) (v w : Value) :
    (g.moveUses v w).2.uses.size = g.uses.size := by
  simp only [moveUses, ← Array.foldl_toList]
  rw [size_foldl_attach, Array.size_setIfInBounds]

namespace Attached

variable {c c' : Value → Value}

/-- The operand edges of a node that read node `id` are its entries in the use list of `id`. -/
theorem countP_source (h : g.Attached c) {user : Nat} (hn : g.nodes[user]? = some n) (id : Nat) :
    n.operands.countP (fun v => (c v).node = id) = (g.usesAt id).countP (·.user = user) := by
  have hperm : ((g.usesAt id).filter (·.user = user)).Perm
      (entriesAt id user 0 (n.operands.map c)) := by
    refine (List.perm_ext_iff_of_nodup ((h.nodup id).filter _) (nodup_entriesAt ..)).2 fun u => ?_
    rw [List.mem_filter, h.mem_iff, mem_entriesAt, decide_eq_true_eq, and_comm]
    refine and_congr_right fun huser => ?_
    simp only [Nat.zero_le, Nat.sub_zero, true_and, List.getElem?_map, Option.map_eq_some_iff]
    constructor
    · rintro ⟨v, ⟨m, hm, hv⟩, hc⟩
      rw [huser, hn] at hm
      cases hm
      exact ⟨v, hv, hc⟩
    · rintro ⟨v, hv, hc⟩
      exact ⟨v, ⟨n, huser ▸ hn, hv⟩, hc⟩
  rw [List.countP_eq_length_filter, List.countP_eq_length_filter (l := g.usesAt id),
    hperm.length_eq, length_entriesAt, List.countP_map, ← List.countP_eq_length_filter]
  rfl

/-- A new node whose operands are in canonical form attaches its edges where they belong. -/
theorem push (h : g.Attached c) (hn : g.admits n) (hc : ∀ v ∈ n.operands, c v = v) :
    (g.push n).Attached c := by
  have hlt : ∀ v ∈ n.operands, v.node < g.size := fun v hv => by
    obtain ⟨t, ht⟩ := Option.isSome_iff_exists.1 (List.all_eq_true.1 hn v hv)
    exact lt_size_of_typeOf? ht
  refine ⟨size_uses_push h.size_uses, fun id => ?_, fun id u => ?_⟩
  · rw [usesAt_push g n h.size_uses]
    refine List.nodup_append.2 ⟨h.nodup id, ?_, ?_⟩
    · split
      · exact nodup_entriesAt _ _ _ _
      · exact List.nodup_nil
    · intro u hu u' hu' heq
      subst heq
      split at hu'
      · obtain ⟨v, ⟨m, hm, _⟩, _⟩ := (h.mem_iff id u).1 hu
        have := lt_size_of_getElem? hm
        have := (mem_entriesAt.1 hu').1
        omega
      · cases hu'
  · rw [usesAt_push g n h.size_uses, List.mem_append, h.mem_iff]
    constructor
    · rintro (⟨v, he, hv⟩ | hu)
      · exact ⟨v, edge_push_iff.2 (.inl he), hv⟩
      · split at hu
        · obtain ⟨huser, _, hv⟩ := mem_entriesAt.1 hu
          exact ⟨⟨id, u.slot⟩, edge_push_iff.2 (.inr ⟨huser, hv⟩),
            hc _ (List.mem_of_getElem? hv)⟩
        · cases hu
    · rintro ⟨v, he, hv⟩
      rcases edge_push_iff.1 he with he | ⟨huser, hi⟩
      · exact .inl ⟨v, he, hv⟩
      · have hmem := List.mem_of_getElem? hi
        rw [hc v hmem] at hv
        subst hv
        rw [if_pos (hlt _ hmem)]
        exact .inr (mem_entriesAt.2 ⟨huser, Nat.zero_le _, hi⟩)

/-- Growing by nodes whose operands are in canonical form keeps the use lists right. -/
theorem grow (h : g.Attached c) {k : Graph} (hk : g.Extends k)
    (hc : ∀ (id : Nat) n, g.size ≤ id → k.nodes[id]? = some n → ∀ v ∈ n.operands, c v = v) :
    k.Attached c := by
  induction hk with
  | refl => exact h
  | @push k n hgk hn ih =>
    have hsize := hgk.size_le
    refine (ih fun id m hid hm => hc id m hid ?_).push hn (hc k.size n hsize ?_)
    · rw [getElem?_push, if_neg (by have := lt_size_of_getElem? hm; omega), hm]
    · rw [getElem?_push, if_pos rfl]

/-- The users of the edges that move are those that read `v`. -/
theorem mem_movedUsers (h : g.Attached c) {j : Nat} :
    j ∈ ((g.moveUses v w).1.toList.map (·.user)).eraseDups ↔ ∃ i u, g.Edge j i u ∧ c u = v := by
  rw [List.mem_eraseDups, List.mem_map, toList_moved]
  constructor
  · rintro ⟨u, hu, rfl⟩
    obtain ⟨hu, hslot⟩ := List.mem_filter.1 hu
    obtain ⟨x, hx, hc⟩ := (h.mem_iff _ _).1 hu
    rw [of_decide_eq_true hslot] at hc
    exact ⟨u.operand, x, hx, hc⟩
  · rintro ⟨i, x, hx, rfl⟩
    exact ⟨⟨j, i, (c x).slot⟩, List.mem_filter.2 ⟨(h.mem_iff _ _).2 ⟨x, hx, rfl⟩,
      decide_eq_true rfl⟩, rfl⟩

section MoveUses

variable (hg : g.Attached c) (hv : v.node < g.size) (hw : w.node < g.size) (hne : v.node ≠ w.node)

include hg

/-- Edges that move have the slot of `v`, so they differ without it. -/
theorem nodup_moved (slot : Nat) :
    (((g.usesAt v.node).filter (·.slot = v.slot)).map fun u =>
      (⟨u.user, u.operand, slot⟩ : Use)).Nodup := by
  refine List.pairwise_map.2 (((hg.nodup _).filter _).imp_of_mem fun {a b} ha hb hab => ?_)
  have hslot : a.slot = b.slot := by
    have ha := (List.mem_filter.1 ha).2
    have hb := (List.mem_filter.1 hb).2
    simp only [decide_eq_true_eq] at ha hb
    rw [ha, hb]
  intro heq
  cases a
  cases b
  simp_all

include hv hw hne

theorem nodup_usesAt_moveUses (id : Nat) : ((g.moveUses v w).2.usesAt id).Nodup := by
  have hsize := hg.size_uses
  rw [usesAt_moveUses (by omega) (by omega) hne]
  split
  · exact (hg.nodup _).filter _
  · split
    · refine List.nodup_append.2 ⟨hg.nodup _, hg.nodup_moved w.slot, ?_⟩
      -- an edge has one source, and it cannot be of both nodes
      intro a ha b hb heq
      obtain ⟨b', hb', rfl⟩ := List.mem_map.1 hb
      obtain ⟨x, hx, hcx⟩ := (hg.mem_iff _ _).1 ha
      obtain ⟨y, hy, hcy⟩ := (hg.mem_iff _ _).1 (List.mem_filter.1 hb').1
      rw [heq] at hx
      rw [hx.unique hy, hcy, Value.mk.injEq] at hcx
      exact hne hcx.1
    · exact hg.nodup _

variable (hc : ∀ u, c' u = if c u = v then w else c u)

include hc

theorem edge_of_mem_moveUses {id : Nat} {u : Use} (hu : u ∈ (g.moveUses v w).2.usesAt id) :
    ∃ x, g.Edge u.user u.operand x ∧ c' x = ⟨id, u.slot⟩ := by
  have hsize := hg.size_uses
  have hstays {u : Use} (hu : u ∈ g.usesAt id) (hother : (⟨id, u.slot⟩ : Value) ≠ v) :
      ∃ x, g.Edge u.user u.operand x ∧ c' x = ⟨id, u.slot⟩ := by
    obtain ⟨x, hx, hcx⟩ := (hg.mem_iff _ _).1 hu
    exact ⟨x, hx, by rw [hc, hcx, if_neg hother]⟩
  rw [usesAt_moveUses (by omega) (by omega) hne] at hu
  split at hu
  · next hid =>
    subst hid
    obtain ⟨hu, hslot⟩ := List.mem_filter.1 hu
    exact hstays hu fun heq => of_decide_eq_true hslot (congrArg Value.slot heq)
  · next hid =>
    split at hu
    · next hid' =>
      subst hid'
      rcases List.mem_append.1 hu with hu | hu
      · exact hstays hu fun heq => hid (by rw [← heq])
      · obtain ⟨a, ha, rfl⟩ := List.mem_map.1 hu
        obtain ⟨ha, hslot⟩ := List.mem_filter.1 ha
        obtain ⟨x, hx, hcx⟩ := (hg.mem_iff _ _).1 ha
        rw [of_decide_eq_true hslot] at hcx
        exact ⟨x, hx, by rw [hc, if_pos hcx]⟩
    · exact hstays hu fun heq => hid (congrArg Value.node heq)

theorem mem_moveUses_of_edge {id : Nat} {u : Use} {x : Value} (hx : g.Edge u.user u.operand x)
    (hcx : c' x = ⟨id, u.slot⟩) : u ∈ (g.moveUses v w).2.usesAt id := by
  have hsize := hg.size_uses
  rw [usesAt_moveUses (by omega) (by omega) hne]
  rw [hc] at hcx
  split at hcx
  · next hcv =>
    have hid : id = w.node := (congrArg Value.node hcx).symm
    have hmem : ⟨u.user, u.operand, v.slot⟩ ∈ (g.usesAt v.node).filter (·.slot = v.slot) :=
      List.mem_filter.2 ⟨(hg.mem_iff _ _).2 ⟨x, hx, hcv⟩, by simp⟩
    rw [if_neg (by omega), if_pos hid]
    refine List.mem_append.2 (.inr (List.mem_map.2 ⟨_, hmem, ?_⟩))
    rw [hcx]
  · next hcv =>
    have hmem := (hg.mem_iff id u).2 ⟨x, hx, hcx⟩
    split
    · next hid =>
      subst hid
      refine List.mem_filter.2 ⟨hmem, decide_eq_true fun hslot => hcv ?_⟩
      rw [hcx, hslot]
    · split
      · next hid => exact List.mem_append.2 (.inl (hid ▸ hmem))
      · exact hmem

/-- Moving the edges of `v` to `w` follows a change of canonical forms from `v` to `w`. -/
theorem moveUses : (g.moveUses v w).2.Attached c' where
  size_uses := (size_uses_moveUses g v w).trans hg.size_uses
  nodup := hg.nodup_usesAt_moveUses hv hw hne
  mem_iff _ _ := ⟨hg.edge_of_mem_moveUses hv hw hne hc,
    fun ⟨_, hx, hcx⟩ => hg.mem_moveUses_of_edge hv hw hne hc hx hcx⟩

end MoveUses

end Attached

theorem attached_empty (c : Value → Value) : Graph.empty.Attached c := by
  refine ⟨rfl, fun id => ?_, fun id u => ?_⟩
  · simp [Graph.usesAt, Graph.empty]
  · simp [Graph.usesAt, Graph.Edge, Graph.empty]

/-! ### Built graphs -/

/-- Graphs that come from the empty one by adding nodes, each of which reads values that exist. -/
inductive Built : Graph → Prop
  | empty : Built .empty
  | add {g h : Graph} {n : Node} {id : NodeId} : Built g → g.add n = .ok (id, h) → Built h
  | setRoot {g : Graph} (id : NodeId) : Built g → Built (g.setRoot id)

theorem add_eq_ok (h : g.add n = .ok (id, k)) : g.admits n ∧ k = g.push n := by
  unfold add at h
  split at h
  · next hadmits =>
    cases h
    exact ⟨hadmits, rfl⟩
  · cases h

theorem Built.push (hg : g.Built) (hn : g.admits n) : (g.push n).Built :=
  hg.add (by rw [Graph.add, if_pos hn])

theorem Extends.built (h : Graph.empty.Extends g) : g.Built := by
  induction h with
  | refl => exact .empty
  | push _ hn ih => exact ih.push hn

/-- Adds nodes one after another, if each of them reads values that exist. -/
def pushAll? (g : Graph) : List Node → Option Graph
  | [] => some g
  | n :: nodes => if g.admits n then (g.push n).pushAll? nodes else none

theorem Built.pushAll? {nodes : List Node} (hg : g.Built) (h : g.pushAll? nodes = some k) :
    k.Built := by
  induction nodes generalizing g with
  | nil =>
    cases h
    exact hg
  | cons n nodes ih =>
    rw [Graph.pushAll?] at h
    split at h
    · next hn => exact ih (hg.push hn) h
    · cases h

/-- A graph is built if adding its nodes again gives the same graph. -/
theorem built_of_pushAll? (root : NodeId)
    (h : (Graph.empty.pushAll? g.nodes.toList).map (·.setRoot root) = some g) : g.Built := by
  obtain ⟨k, hk, rfl⟩ := Option.map_eq_some_iff.1 h
  exact (Built.empty.pushAll? hk).setRoot root

/-- Operands of a built graph exist and come before their users. -/
theorem Built.operand (hg : g.Built) (hn : g.nodes[id]? = some n) (hv : v ∈ n.operands) :
    v.node < id ∧ ∃ t, g.typeOf? v = some t := by
  induction hg with
  | empty => simp [Graph.empty] at hn
  | @add g h m _ _ hadd ih =>
    obtain ⟨hadmits, rfl⟩ := add_eq_ok hadd
    have hstep : g.Extends (g.push m) := .push .refl hadmits
    rw [getElem?_push] at hn
    split at hn
    · next hid =>
      cases hn
      obtain ⟨t, ht⟩ := Option.isSome_iff_exists.1 (List.all_eq_true.1 hadmits v hv)
      exact ⟨hid ▸ lt_size_of_typeOf? ht, t, hstep.typeOf? ht⟩
    · obtain ⟨hlt, t, ht⟩ := ih hn
      exact ⟨hlt, t, hstep.typeOf? ht⟩
  | setRoot _ _ ih => exact ih hn

/-- The use lists of a built graph are its operand edges. -/
theorem Built.attached (hg : g.Built) : g.Attached fun v => v := by
  induction hg with
  | empty => exact attached_empty _
  | add _ hadd ih =>
    obtain ⟨hadmits, rfl⟩ := add_eq_ok hadd
    exact ih.push hadmits fun _ _ => rfl
  | setRoot _ _ ih => exact ⟨ih.size_uses, ih.nodup, ih.mem_iff⟩

end Graph

end Dataflow
