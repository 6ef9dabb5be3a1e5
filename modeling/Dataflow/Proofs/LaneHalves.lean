import Dataflow.Proofs.Rules.Halve.Reinterpret
import Dataflow.Proofs.ReadyDraft

/-!
# Halves of a lane

The halves of a lane are adjacent lanes of half the width, and their indices are computed at the
type of the index of the lane. A byte has room for them, since no vector has more than 16 lanes. A
single bit tells two lanes apart, but not the halves of the second one from those of the first.
-/

namespace Dataflow

namespace Legal

open Draft

variable {T : Target} {d d' : Draft} {args : Array BitString} {values : Values} {id : NodeId}
  {n : Node} {t u i : ValueType} {k x : Nat}

namespace Halve

/-- All types but `i1` have room for the indices of the halves of any lane, and `i1` has room for
those of the first one. -/
theorem double_index_lt (hi : i.IsWord) (hk : k < 16) (hfirst : i = .i1 → k = 0) :
    2 * k + 1 < 2 ^ i.bits := by
  rcases hi.bits_cases with h | h | h | h | h | h
  · have hi1 : i = .i1 := by
      cases i <;> first | rfl | cases h
    rw [hfirst hi1, h]
    decide
  all_goals
    rw [h]
    omega

/-- Two halves whose lane is `x` are its remainder and its quotient. -/
theorem halves_of_paired {V : RewriteSpec} {p : Value × Value}
    (hn : V.Shows .extractElement [u, i] t)
    (hc : V.T.classify t = .expandInteger) (hlane : t = u.scalar) (hs : V.sem)
    (hx : V.datum = .scalar x) (hlt : x < 2 ^ t.bits) (h : V.Paired t p) :
    V.Is p.1 (V.T.transform t) (.scalar (x % 2 ^ (V.T.transform t).bits)) ∧
      V.Is p.2 (V.T.transform t) (.scalar (x / 2 ^ (V.T.transform t).bits)) := by
  obtain ⟨hword, hhalf, hbits, _, _⟩ := expanded hc
  obtain ⟨a, hlo, ha⟩ := h.low.scalar hhalf.2
  obtain ⟨b, hhi, hb⟩ := h.high.scalar hhalf.2
  have hsum : a + 2 ^ (V.T.transform t).bits * b < 2 ^ t.bits :=
    hbits ▸ Word.halves_lt (hlo.lt hs) (hhi.lt hs)
  have hdatum := h.datum hs
  rw [Parts.assemble, ha hs, hb hs, Datum.number_scalar, Datum.number_scalar,
    Datum.ofNumber_word hword.2, Nat.mod_eq_of_lt hsum, RewriteSpec.Accepts, Node.Allows, hn.opcode,
    if_pos (.inr rfl), hn.types] at hdatum
  obtain ⟨x', y, hx', hy, hlow⟩ := hdatum
  cases hx.symm.trans hx'
  cases hy
  have hwidth : t.bits = u.laneBits := by
    rw [ValueType.bits_eq_laneBits hword.2, hlane, u.laneBits_scalar]
  have heq := (hlow u rfl).1
  rw [← hwidth, Nat.mod_eq_of_lt hsum, Nat.mod_eq_of_lt hlt] at heq
  rw [← heq, Word.mod_half (hlo.lt hs), Word.div_half (hlo.lt hs)]
  exact ⟨hlo, hhi⟩

/-- Reading lane `k`, which is `x`, gives `x`. -/
theorem evaluates_extract (h : d.Ready T values id n [u, i] t) (hop : n.opcode = .extractElement)
    {v w : Value} (hops : n.operands = [v, w]) {l : List Nat}
    (hl : values[v.node]? = some (some (.vector l)))
    (hk : values[w.node]? = some (some (.scalar k))) (hx : l[k % 2 ^ 64]? = some x) :
    Eval.node ⟨d.graph, args, values⟩ id = .ok (.scalar x) := by
  have hval (j : Nat) (e : Datum) (hj : values[j]? = some (some e)) :
      (values[j]?.join).getD (.scalar 0) = e := by
    rw [hj, Option.join_some, Option.getD_some]
  have hmeaning := h.meaning args hval
  have hres := h.results
  obtain ⟨op, ops, results, attr⟩ := n
  cases hop
  cases hops
  cases hres
  rw [← hmeaning, List.map_cons, List.map_cons, List.map_nil, hval _ _ hl, hval _ _ hk]
  exact Node.meaning_extract hx _

/-- Where a lane of an expanded type is read, its halves are the low and the high bits of the lane,
for every index whose doubles its type has room for: at type `i1` the first lane only, at any other
type every lane. The index may be a constant, which then has the bits that it shows, or any other
value. -/
theorem lane_halves_exact {D : Description} (hT : D.target = .ok T) (args : Array BitString)
    (h : d.Ready T values id n [u, i] t) (hop : n.opcode = .extractElement)
    (hc : T.classify t = .expandInteger) {v w : Value} (hops : n.operands = [v, w]) {l : List Nat}
    (hl : values[v.node]? = some (some (.vector l)))
    (hk : values[w.node]? = some (some (.scalar k))) (hx : l[k]? = some x)
    (hconstant : ∀ m c, d.graph.nodes[(d.replaced.canon w).node]? = some m →
      m.opcode = .constant → m.attr = .imm c → k = c % 2 ^ i.bits)
    (hfirst : i = .i1 → k = 0) {p : Value × Value} (hrun : (ofExtract T id 0).run d = .ok p d') :
    Eval.node ⟨d.graph, args, values⟩ id = .ok (.scalar x) ∧
    ∃ values', d'.graph.evaluateFrom args values = .ok values' ∧
      d'.Has values' p.1 (T.transform t) (.scalar (x % 2 ^ (T.transform t).bits)) ∧
      d'.Has values' p.2 (T.transform t) (.scalar (x / 2 ^ (T.transform t).bits)) := by
  obtain ⟨e, e', hv, hw⟩ : ∃ e e', d.Supplies T values v u e ∧ d.Supplies T values w i e' := by
    have hall := h.operands
    rw [hops] at hall
    cases hall with
    | cons hv hall =>
      cases hall with
      | cons hw _ => exact ⟨_, _, hv.choose_spec, hw.choose_spec⟩
  cases hl.symm.trans hv.read
  cases hk.symm.trans hw.read
  have hsig := h.signature
  rw [hop] at hsig
  cases hsig with
  | extractElement hu hcarries hi =>
    have hlane : t = u.scalar := by
      rcases hcarries with hlane | ⟨⟨hlegal, _⟩, _⟩
      · exact hlane
      · rw [hc] at hlegal
        cases hlegal
    obtain ⟨_, hlen, hlanes⟩ := Datum.fits_vector.1 hv.fits
    have hlt : k < u.lanes := hlen ▸ (List.getElem?_eq_some_iff.1 hx).1
    have hxlt : x < 2 ^ t.bits := by
      rw [ValueType.bits_eq_laneBits (hlane ▸ u.isVector_scalar), hlane, u.laneBits_scalar]
      exact hlanes x (List.mem_of_getElem? hx)
    have hsmall : u.lanes ≤ 16 := by cases u <;> decide
    have hk64 : k % 2 ^ 64 = k := Nat.mod_eq_of_lt (by omega)
    have heval : Eval.node ⟨d.graph, args, values⟩ id = .ok (.scalar x) :=
      evaluates_extract h hop hops hl hk (hk64.symm ▸ hx)
    refine ⟨heval, ?_⟩
    let V : RewriteSpec := h.rewriteSpec (Description.target_regular hT)
      (Edit.grows_of_ok hrun).graph args (fun _ => trivial : False → True) False.elim
      (fun _ hindexes => absurd (.inl hop) hindexes) fun _ => heval
    have hn : V.Shows .extractElement [u, i] t := ⟨hop, rfl, h.results⟩
    have hbitsOf : V.bitsOf 1 = k := by
      have hdata : V.data 1 = .scalar k := Ready.data_rewriteSpec (by rw [hops]; rfl) hk
      rw [RewriteSpec.bitsOf, hdata]
      rfl
    have hlocates : Locates V u i := by
      constructor
      · intro w' m c hw' hm hmop hattr
        rw [show V.node.operands = [v, w] from hops] at hw'
        cases hw'
        obtain ⟨m', hm', _⟩ := Option.bind_eq_some_iff.1 hw.type
        cases hm.symm.trans ((Edit.grows_of_ok hrun).graph.getElem? hm')
        rw [hbitsOf, hconstant m c hm' hmop hattr]
        exact Nat.mod_modEq c _
      · intro _
        have hroom := double_index_lt hi (by omega) hfirst
        rw [hbitsOf, hk64, Nat.mod_eq_of_lt (a := 2 * k) (b := 2 ^ i.bits) (by omega),
          Nat.mod_eq_of_lt (a := 2 * k + 1) (b := 2 ^ i.bits) hroom]
        omega
    obtain ⟨hpaired, values', hvalues, hends⟩ := h.of_ok hrun
      (meets_ofExtract (V := V) hn (fun _ _ => hlocates) hu (.inl hcarries) hi hc)
    obtain ⟨hlo, hhi⟩ := halves_of_paired hn hc hlane trivial rfl hxlt hpaired
    exact ⟨values', hvalues, hends.has hlo, hends.has hhi⟩

/-- A machine with registers of 32 bits, of single bits and of two lanes of 64 bits. -/
def pairs64 : Description := ⟨"pairs64", [.i1, .i32, .v2i64], .i32⟩

/-- The second of two lanes, named by a word and by a bit. -/
def secondLane : Draft where
  graph := ((((Graph.empty.push { opcode := .argument, results := [.v2i64], attr := .arg 0 0 }).push
    { opcode := .constant, results := [.i32], attr := .imm 1 }).push
    { opcode := .constant, results := [.i1], attr := .imm 1 }).push
    { opcode := .extractElement, operands := [⟨0, 0⟩, ⟨1, 0⟩], results := [.i64] }).push
    { opcode := .extractElement, operands := [⟨0, 0⟩, ⟨2, 0⟩], results := [.i64] }

def secondLaneValues : Values :=
  #[some (.vector [0x1111111122222222, 0x3333333344444444]), some (.scalar 1), some (.scalar 1),
    none, none]

theorem ready_secondLane (hvector : T.classify .v2i64 = .legal) (hindex : T.classify i = .legal)
    {w : Value} (htype : secondLane.graph.typeOf? w = some i)
    (hw : secondLaneValues[w.node]? = some (some (.scalar 1))) (hi : i.IsWord)
    (hn : secondLane.graph.nodes[id]? = some ⟨.extractElement, [⟨0, 0⟩, w], [.i64], .none⟩) :
    secondLane.Ready T secondLaneValues id ⟨.extractElement, [⟨0, 0⟩, w], [.i64], .none⟩
      [.v2i64, i] .i64 := by
  have hlanes : (Datum.vector [0x1111111122222222, 0x3333333344444444]).Fits .v2i64 :=
    Datum.fits_vector.2 (by decide)
  have hbit : (Datum.scalar 1).Fits i :=
    Datum.fits_scalar.2 ⟨hi.2, Nat.one_lt_two_pow i.bits_pos.ne'⟩
  refine ⟨Draft.traceable_of_replaced_eq rfl, rfl, hn, rfl, .extractElement rfl (.inl rfl) hi, ?_⟩
  refine .cons ⟨_, ⟨rfl, rfl, hlanes⟩, rfl, rfl, fun h => absurd hvector h⟩ (.cons ?_ .nil)
  exact ⟨_, ⟨htype, hw, hbit⟩, htype, hw, fun h => absurd hindex h⟩

theorem lane_halves_exact_secondLane : ∃ T p d' values', pairs64.target = .ok T ∧
    (ofExtract T 3 0).run secondLane = .ok p d' ∧
    d'.graph.evaluateFrom #[] secondLaneValues = .ok values' ∧
    d'.Has values' p.1 .i32 (.scalar 0x44444444) ∧
    d'.Has values' p.2 .i32 (.scalar 0x33333333) := by
  have hfacts : (pairs64.target.toOption.map fun T =>
      decide (T.classify .v2i64 = .legal ∧ T.classify .i32 = .legal ∧
        T.classify .i64 = .expandInteger ∧ T.transform .i64 = .i32) &&
          ((ofExtract T 3 0).run secondLane).succeeds) = some true := rfl
  obtain ⟨T, hT, hfacts⟩ := Description.exists_target hfacts
  obtain ⟨hclass, hsucceeds⟩ := Bool.and_eq_true_iff.1 hfacts
  obtain ⟨hvector, hindex, hc, hhalf⟩ := of_decide_eq_true hclass
  obtain ⟨p, d', hrun⟩ := Edited.exists_ok hsucceeds
  have hready : secondLane.Ready T secondLaneValues 3 _ [.v2i64, .i32] .i64 :=
    ready_secondLane hvector hindex (w := ⟨1, 0⟩) rfl rfl (by decide) rfl
  have hconstant (m : Node) (c : Nat) (hm : secondLane.graph.nodes[1]? = some m)
      (_ : m.opcode = .constant) (hc : m.attr = .imm c) : 1 = c % 2 ^ 32 := by
    cases hm
    cases hc
    rfl
  obtain ⟨_, values', hvalues, hlo, hhi⟩ := lane_halves_exact hT #[] hready rfl hc rfl rfl rfl
    (x := 0x3333333344444444) rfl hconstant (by simp) hrun
  rw [hhalf] at hlo hhi
  exact ⟨T, p, d', values', hT, hrun, hvalues, hlo, hhi⟩

/-- At a single bit twice one is zero, so what is read is the first lane. -/
theorem lane_halves_of_bit : ∃ T n p d' values', pairs64.target = .ok T ∧
    secondLane.Ready T secondLaneValues 4 n [.v2i64, .i1] .i64 ∧
    Eval.node ⟨secondLane.graph, #[], secondLaneValues⟩ 4 = .ok (.scalar 0x3333333344444444) ∧
    (ofExtract T 4 0).run secondLane = .ok p d' ∧
    d'.graph.evaluateFrom #[] secondLaneValues = .ok values' ∧
    d'.Has values' p.1 .i32 (.scalar 0x22222222) ∧
    d'.Has values' p.2 .i32 (.scalar 0x11111111) := by
  let after : Values := secondLaneValues ++
    #[some (.vector [0x22222222, 0x11111111, 0x44444444, 0x33333333]), some (.scalar 0),
      some (.scalar 1), some (.scalar 0x22222222), some (.scalar 0x11111111)]
  have hfacts : (pairs64.target.toOption.map fun T =>
      decide (T.classify .v2i64 = .legal ∧ T.classify .i1 = .legal) &&
        ((ofExtract T 4 0).run secondLane).passes fun p d' =>
          decide ((d'.graph.evaluateFrom #[] secondLaneValues).toOption = some after ∧
            (d'.graph.typeOf? (d'.replaced.canon p.1) = some .i32 ∧
              after[(d'.replaced.canon p.1).node]? = some (some (.scalar 0x22222222))) ∧
            d'.graph.typeOf? (d'.replaced.canon p.2) = some .i32 ∧
              after[(d'.replaced.canon p.2).node]? = some (some (.scalar 0x11111111)))) =
      some true := rfl
  obtain ⟨T, hT, hfacts⟩ := Description.exists_target hfacts
  obtain ⟨hclass, hpasses⟩ := Bool.and_eq_true_iff.1 hfacts
  obtain ⟨hvector, hindex⟩ := of_decide_eq_true hclass
  obtain ⟨p, d', hrun, hpasses⟩ := Edited.exists_passing hpasses
  obtain ⟨hvalues, ⟨hlo, hlo'⟩, hhi, hhi'⟩ := of_decide_eq_true hpasses
  have hready : secondLane.Ready T secondLaneValues 4 _ [.v2i64, .i1] .i64 :=
    ready_secondLane hvector hindex (w := ⟨2, 0⟩) rfl rfl (by decide) rfl
  refine ⟨T, _, p, d', after, hT, hready, rfl, hrun, ?_,
    ⟨hlo, hlo', Datum.fits_scalar.2 (by decide)⟩, ⟨hhi, hhi', Datum.fits_scalar.2 (by decide)⟩⟩
  cases he : d'.graph.evaluateFrom #[] secondLaneValues with
  | error => rw [he] at hvalues; cases hvalues
  | ok values' =>
    rw [he] at hvalues
    exact congrArg _ (Option.some.inj hvalues)

end Halve

end Legal

end Dataflow
