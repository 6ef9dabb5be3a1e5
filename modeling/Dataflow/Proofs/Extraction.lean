import Dataflow.Proofs.Evaluation
import Mathlib.Data.Fintype.Card
import Mathlib.Data.List.Perm.Basic
import Mathlib.Logic.Relation

/-!
# Extraction

What the walk and the copy make of a graph whose operands were replaced by others: the live part
holds a copy of each node that the root reaches through the replacements, and nothing else. Where
nothing was replaced, it evaluates to what the graph evaluates to.
-/

namespace Dataflow

namespace Graph

variable {g h : Graph} {root : Nat} {f : Value → Value} {ids : List Nat}

/-! ### Replacements without cycles -/

/-- Node `b` is read by node `a`, in place of one of its operands. -/
def Feeds (g : Graph) (f : Value → Value) (a b : Nat) : Prop :=
  ∃ n v, g.nodes[a]? = some n ∧ v ∈ n.operands ∧ (f v).node = b

/-- `f` replaces values of `g` by values of `g`, and no node that `root` reaches depends on
itself. -/
structure Redirects (g : Graph) (root : Nat) (f : Value → Value) : Prop where
  exists_type : ∀ v t, g.typeOf? v = some t → ∃ u, g.typeOf? (f v) = some u
  acyclic : ∀ id, g.Reached (fun v => .ok (f v)) root id → ¬ Relation.TransGen (g.Feeds f) id id

open Classical in
/-- The number of nodes that a node depends on. -/
noncomputable def depth (g : Graph) (f : Value → Value) (id : Nat) : Nat :=
  ((Finset.range g.size).filter fun j => Relation.TransGen (g.Feeds f) id j).card

open Classical in
theorem Redirects.descends (hf : g.Redirects root f) (hg : g.Built) :
    g.Descends (fun v => .ok (f v)) root (g.depth f) := by
  intro id n v w hid hn hv hw
  cases hw
  have hfeeds : g.Feeds f id (f v).node := ⟨n, v, hn, hv, rfl⟩
  have hacyclic := hf.acyclic _ (.operand hid hn hv rfl)
  obtain ⟨_, t, ht⟩ := hg.operand hn hv
  obtain ⟨u, hu⟩ := hf.exists_type v t ht
  apply Finset.card_lt_card
  rw [Finset.ssubset_iff_of_subset]
  · refine ⟨(f v).node, ?_, fun hmem => hacyclic (Finset.mem_filter.1 hmem).2⟩
    exact Finset.mem_filter.2 ⟨Finset.mem_range.2 (lt_size_of_typeOf? hu), .single hfeeds⟩
  · intro j hj
    obtain ⟨hlt, hj⟩ := Finset.mem_filter.1 hj
    exact Finset.mem_filter.2 ⟨hlt, .head hfeeds hj⟩

/-! ### The copy -/

/-- `h` holds a copy of each node that `root` reaches through `f`, and nothing else. Node `k` of `h`
is the copy of `ids[k]`. -/
structure Copies (g : Graph) (f : Value → Value) (root : Nat) (ids : List Nat) (h : Graph) :
    Prop where
  nodup : ids.Nodup
  mem_iff : ∀ id, id ∈ ids ↔ g.Reached (fun v => .ok (f v)) root id
  size_eq : h.size = ids.length
  last : ids.getLast? = some root
  root_eq : h.root = some (ids.length - 1)
  node : ∀ (k id : Nat), ids[k]? = some id → ∃ n us, g.nodes[id]? = some n ∧
    h.nodes[k]? = some { n with operands := us } ∧ us.length = n.operands.length ∧
    ∀ (i : Nat) v, n.operands[i]? = some v → ∃ u, us[i]? = some u ∧ u.slot = (f v).slot ∧
      ids[u.node]? = some (f v).node ∧ u.node < k
  uses : h.Attached fun v => v

theorem Extracts.copies (hx : g.Extracts (fun v => .ok (f v)) root ids h) :
    g.Copies f root ids h where
  nodup := hx.nodup
  mem_iff := hx.mem_iff
  size_eq := hx.size_eq
  last := hx.last
  root_eq := hx.root_eq
  node k id hk := by
    have hlt : k < h.size := hx.size_eq ▸ (List.getElem?_eq_some_iff.1 hk).1
    obtain ⟨m, hm⟩ : ∃ m, h.nodes[k]? = some m := ⟨_, Array.getElem?_eq_getElem hlt⟩
    obtain ⟨n, hn, heq, hlen, hops⟩ := hx.stands k id m hk hm
    refine ⟨n, m.operands, hn, heq ▸ hm, hlen, fun i v hv => ?_⟩
    have hi : i < m.operands.length := hlen ▸ (List.getElem?_eq_some_iff.1 hv).1
    have hu := List.getElem?_eq_getElem hi
    obtain ⟨v', w, hv', hw, hslot, hnode⟩ := hops i _ hu
    cases hv.symm.trans hv'
    cases hw
    exact ⟨_, hu, hslot, hnode, (hx.built_graph.operand hm (List.getElem_mem hi)).1⟩
  uses := hx.built_graph.attached

/-! ### Evaluation -/

def isOutput (g : Graph) (id : Nat) : Bool :=
  g.nodes[id]?.any (·.opcode = .output)

theorem contribution_of_not_isOutput {V : Nat → Option Datum} {id : Nat}
    (hid : g.isOutput id = false) : Eval.contribution g V id = .empty := by
  unfold Eval.contribution
  cases hn : g.nodes[id]? with
  | none => rfl
  | some n =>
    simp only [isOutput, hn, Option.any_some, decide_eq_false_iff_not] at hid
    exact if_neg hid

/-- Only outputs add to the result. -/
theorem join_contributions (V : Nat → Option Datum) (l : List Nat) :
    BitString.join (l.map (Eval.contribution g V)) =
      .join ((l.filter g.isOutput).map (Eval.contribution g V)) := by
  induction l with
  | nil => rfl
  | cons id l ih =>
    cases hid : g.isOutput id with
    | true =>
      rw [List.filter_cons_of_pos hid, List.map_cons, List.map_cons]
      exact congrArg (Eval.contribution g V id ++ ·) ih
    | false =>
      rw [List.filter_cons_of_neg (by simp [hid]), List.map_cons, contribution_of_not_isOutput hid,
        ← ih]
      exact BitString.empty_append _

/-- Increasing lists of the same numbers are equal. -/
theorem eq_of_pairwise_lt {l m : List Nat} (hl : l.Pairwise (· < ·)) (hm : m.Pairwise (· < ·))
    (hmem : ∀ id, id ∈ l ↔ id ∈ m) : l = m := by
  have hperm := (List.perm_ext_iff_of_nodup (hl.imp Nat.ne_of_lt) (hm.imp Nat.ne_of_lt)).2 hmem
  refine List.Perm.eq_of_pairwise ?_ hl hm hperm
  intro a b _ _ hab hba
  exact absurd hba (Nat.lt_asymm hab)

/-- The live part observes what the graph observes, in the order of the copies. -/
theorem Extracts.evaluate_eq_ok_iff (hx : g.Extracts .ok root ids h)
    (args : List (ValueType × Datum)) (bits : BitString) :
    h.evaluate args = .ok bits ↔ ∃ V, Eval.Solves g (Eval.buffers args) (g.Reached .ok root) V ∧
      bits = .join (ids.map (Eval.contribution g V)) := by
  have hiso := hx.renames.isomorphic
  have hback (i : Nat) (hi : g.Reached .ok root i) : ids.getD (ids.idxOf i) 0 = i := by
    have hlt := List.idxOf_lt_length_of_mem ((hx.mem_iff i).2 hi)
    rw [List.getD_eq_getElem?_getD, List.getElem?_eq_getElem hlt, List.getElem_idxOf hlt]
    rfl
  have hiso' : Isomorphic (ids.getD · 0) h (ids.length - 1) g root := hiso.inverse hback
  have hneeded : h.needed (ids.length - 1) = ids.map (ids.idxOf ·) := by
    apply eq_of_pairwise_lt (pairwise_needed _ _)
    · rw [List.pairwise_map, List.pairwise_iff_getElem]
      intro i j hi hj hij
      rwa [hx.nodup.idxOf_getElem i hi, hx.nodup.idxOf_getElem j hj]
    · intro j
      rw [hx.built_graph.mem_needed_iff hx.root_lt, List.mem_map]
      constructor
      · intro hj
        obtain ⟨i, hi, rfl⟩ := hiso.bijOn.2.2 hj
        exact ⟨i, (hx.mem_iff i).2 hi, rfl⟩
      · rintro ⟨i, hi, rfl⟩
        exact hiso.bijOn.1 ((hx.mem_iff i).1 hi)
  rw [hx.built_graph.evaluate_eq_ok_iff hx.root_eq hx.root_lt, hneeded]
  simp only [List.map_map]
  constructor
  · rintro ⟨V, hV, rfl⟩
    obtain ⟨hV', hcontribution⟩ := hiso.solves hV
    refine ⟨_, hV', ?_⟩
    rw [List.map_congr_left fun i hi => hcontribution i ((hx.mem_iff i).1 hi)]
    rfl
  · rintro ⟨V, hV, rfl⟩
    obtain ⟨hV', hcontribution⟩ := hiso'.solves hV
    refine ⟨_, hV', ?_⟩
    congr 1
    apply List.map_congr_left
    intro i hi
    have hi' := (hx.mem_iff i).1 hi
    rw [Function.comp_apply, hcontribution _ (hiso.bijOn.1 hi'), hback i hi']

/-- Extraction is right for every replacement without cycles. Where nothing is replaced, the live
part has a result on the same arguments as the graph, the same one when the outputs keep their
order. -/
theorem live_correct (hg : g.Built) (hroot : root < g.size) (hf : g.Redirects root f) :
    ∃ h ids, g.live (fun v => .ok (f v)) root = .ok h ∧ g.Copies f root ids h ∧
      (f = id → g.root = some root → ∀ args,
        ((∃ bits, h.evaluate args = .ok bits) ↔ ∃ bits, g.evaluate args = .ok bits) ∧
        ((ids.filter g.isOutput).Pairwise (· < ·) →
          ∀ bits, h.evaluate args = .ok bits ↔ g.evaluate args = .ok bits)) := by
  obtain ⟨h, ids, hlive, hx⟩ := live_ok (hf.descends hg) hroot fun id n v hn hv => by
    obtain ⟨_, t, ht⟩ := hg.operand hn hv
    obtain ⟨u, hu⟩ := hf.exists_type v t ht
    exact ⟨f v, u, rfl, hu⟩
  refine ⟨h, ids, hlive, hx.copies, fun hid hr args => ?_⟩
  subst hid
  have hcopy := Extracts.evaluate_eq_ok_iff hx args
  have hgraph := hg.evaluate_eq_ok_iff hr hroot args
  constructor
  · constructor
    · rintro ⟨bits, hbits⟩
      obtain ⟨V, hV, _⟩ := (hcopy bits).1 hbits
      exact ⟨_, (hgraph _).2 ⟨V, hV, rfl⟩⟩
    · rintro ⟨bits, hbits⟩
      obtain ⟨V, hV, _⟩ := (hgraph bits).1 hbits
      exact ⟨_, (hcopy _).2 ⟨V, hV, rfl⟩⟩
  · intro hsorted bits
    have hfilter : ids.filter g.isOutput = (g.needed root).filter g.isOutput := by
      apply eq_of_pairwise_lt hsorted ((g.pairwise_needed root).filter _)
      intro i
      rw [List.mem_filter, List.mem_filter, hg.mem_needed_iff hroot]
      exact and_congr_left fun _ => hx.mem_iff i
    have hjoin (V : Nat → Option Datum) : BitString.join (ids.map (Eval.contribution g V)) =
        .join ((g.needed root).map (Eval.contribution g V)) := by
      rw [join_contributions V ids, hfilter, ← join_contributions]
    simp only [hcopy, hgraph, hjoin]

/-- A single output keeps its order. -/
theorem Copies.pairwise_outputs (hc : g.Copies f root ids h)
    (hsingle : ∀ id, g.Reached (fun v => .ok (f v)) root id → g.isOutput id = true → id = root) :
    (ids.filter g.isOutput).Pairwise (· < ·) := by
  have heq {a : Nat} (ha : a ∈ ids.filter g.isOutput) : a = root := by
    obtain ⟨ha, hout⟩ := List.mem_filter.1 ha
    exact hsingle a ((hc.mem_iff a).1 ha) hout
  exact (hc.nodup.filter _).imp_of_mem fun ha hb hne => absurd ((heq ha).trans (heq hb).symm) hne

theorem not_transGen_self {rank : Nat → Nat} (hrank : ∀ a b, g.Feeds f a b → rank b < rank a)
    (a : Nat) : ¬ Relation.TransGen (g.Feeds f) a a := by
  suffices h : ∀ b, Relation.TransGen (g.Feeds f) a b → rank b < rank a from
    fun hloop => Nat.lt_irrefl _ (h a hloop)
  intro b hb
  induction hb with
  | single hab => exact hrank _ _ hab
  | tail _ hbc ih => exact Nat.lt_trans (hrank _ _ hbc) ih

/-- Operands come before their users, so nothing depends on itself. -/
theorem Built.redirects (hg : g.Built) (root : Nat) : g.Redirects root id where
  exists_type v t ht := ⟨t, ht⟩
  acyclic a _ := by
    suffices hrank : ∀ a b, g.Feeds id a b → b < a from not_transGen_self hrank a
    rintro a b ⟨n, v, hn, hv, rfl⟩
    exact (hg.operand hn hv).1

/-- Twice an argument, beside a dead constant. -/
def doubledArgument : Graph :=
  ((((Graph.empty.push { opcode := .argument, results := [.i32], attr := .arg 0 0 }).push
    { opcode := .int .add, operands := [⟨0, 0⟩, ⟨0, 0⟩], results := [.i32] }).push
    { opcode := .output, operands := [⟨1, 0⟩], attr := .widths [32] }).push
    { opcode := .constant, results := [.i32], attr := .imm 7 }).setRoot 2

/-- The sum, replaced by the constant behind it. -/
def forwardSum (v : Value) : Value :=
  if v = ⟨1, 0⟩ then ⟨3, 0⟩ else v

theorem live_correct_doubledArgument :
    (∃ h ids, doubledArgument.live (fun v => .ok (forwardSum v)) 2 = .ok h ∧
      doubledArgument.Copies forwardSum 2 ids h) ∧
    ∃ h, doubledArgument.live .ok 2 = .ok h ∧
      ∀ args bits, h.evaluate args = .ok bits ↔ doubledArgument.evaluate args = .ok bits := by
  have hbuilt : doubledArgument.Built := built_of_pushAll? 2 rfl
  have hf : doubledArgument.Redirects 2 forwardSum := by
    constructor
    · intro v t ht
      by_cases hv : v = ⟨1, 0⟩
      · exact ⟨.i32, by rw [hv]; rfl⟩
      · exact ⟨t, by rwa [forwardSum, if_neg hv]⟩
    · intro a _
      suffices hrank : ∀ a b, doubledArgument.Feeds forwardSum a b →
          [0, 1, 2, 0].getD b 0 < [0, 1, 2, 0].getD a 0 from not_transGen_self hrank a
      rintro a b ⟨n, v, hn, hv, rfl⟩
      have ha : a < 4 := lt_size_of_getElem? hn
      obtain rfl | rfl | rfl | rfl : a = 0 ∨ a = 1 ∨ a = 2 ∨ a = 3 := by omega
      all_goals
        cases hn
        revert v
        decide
  constructor
  · obtain ⟨h, ids, hl, hc, _⟩ := live_correct hbuilt (by decide) hf
    exact ⟨h, ids, hl, hc⟩
  · obtain ⟨h, ids, hl, hc, heval⟩ := live_correct hbuilt (by decide) (hbuilt.redirects 2)
    refine ⟨h, hl, fun args => (heval rfl rfl args).2 (hc.pairwise_outputs fun id hid hout => ?_)⟩
    have hsingle : ∀ i < 4, doubledArgument.isOutput i = true → i = 2 := by decide
    exact hsingle id (hbuilt.reached_lt (by decide) hid) hout

/-- Two outputs that are read, the second one first. -/
def crossedOutputs : Graph :=
  (((((((Graph.empty.push { opcode := .constant, results := [.i32], attr := .imm 1 }).push
    { opcode := .constant, results := [.i32], attr := .imm 0 }).push
    { opcode := .output, operands := [⟨0, 0⟩], results := [.i32], attr := .widths [32] }).push
    { opcode := .output, operands := [⟨1, 0⟩], results := [.i32], attr := .widths [32] }).push
    { opcode := .select, operands := [⟨0, 0⟩, ⟨0, 0⟩, ⟨3, 0⟩], results := [.i32] }).push
    { opcode := .select, operands := [⟨0, 0⟩, ⟨0, 0⟩, ⟨2, 0⟩], results := [.i32] }).push
    { opcode := .output, operands := [⟨4, 0⟩, ⟨5, 0⟩], attr := .widths [32, 32] }).setRoot 6

theorem evaluate_live_crossedOutputs_ne :
    crossedOutputs.Built ∧ crossedOutputs.Redirects 6 id ∧ crossedOutputs.root = some 6 ∧
    crossedOutputs.isOutput 6 = true ∧ ∃ h b b', crossedOutputs.live .ok 6 = .ok h ∧
      crossedOutputs.evaluate [] = .ok b ∧ h.evaluate [] = .ok b' ∧ b' ≠ b := by
  have hbuilt : crossedOutputs.Built := built_of_pushAll? 6 rfl
  refine ⟨hbuilt, hbuilt.redirects 6, rfl, rfl, ?_⟩
  refine ⟨_, _, _, rfl, rfl, rfl, ?_⟩
  decide

end Graph

end Dataflow
