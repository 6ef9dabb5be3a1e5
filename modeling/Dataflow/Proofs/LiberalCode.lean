import Dataflow.Proofs.Chaining
import Dataflow.Proofs.ReadyDraft

/-!
# Code that takes liberties

A run keeps the meaning of code that uses operations beyond their signatures, wherever its target
carries them out: words are cut to the lanes of vectors that stay vectors, lanes are read into wider
words that stay whole, and halves of pairs have one lane or are not joined in a wider integer. Where
one of the conditions fails, other bits may come out: elements keep what should have been cut, the
halves of a wider word are looked for where there are none, and pairs keep their first lanes only.
-/

namespace Dataflow

/-- The target carries out the liberties that operations in `p` take. -/
def Target.CarriesOut (T : Target) (p : Opcode → Prop) (g : Graph) : Prop :=
  ∀ (id : Nat) n ts t, g.nodes[id]? = some n → p n.opcode →
    n.operands.map g.typeOf? = ts.map some → n.results = [t] → T.Takes n.opcode ts t

namespace Legal

open Engine

variable {T : Target} {p : Opcode → Prop} {g h : Graph} {root : NodeId} {config : Config}
  {fuel : Nat}

/-- Liberties that are carried out leave no bits open: a lane that is read into a wider word is that
of a clear vector. -/
theorem allows_eq_of_liberty {n : Node} {ts : List ValueType} {t : ValueType} {x y : Datum}
    (hlib : Liberty n.opcode ts t) (htakes : T.Takes n.opcode ts t) (hop : n.opcode ≠ .anyExtend)
    (h : n.Allows (T.Loose .loose) ts x y) : y = x := by
  unfold Node.Allows at h
  split at h
  · next hopen =>
    obtain ⟨x, y, rfl, rfl, hlow⟩ := h
    rw [hopen.resolve_left hop] at hlib htakes
    cases hlib with
    | @lane u i _ _ _ hword hlt =>
      rcases htakes with rfl | ⟨_, hclear⟩
      · rw [ValueType.bits_eq_laneBits hword.2, u.laneBits_scalar] at hlt
        exact absurd hlt (Nat.lt_irrefl _)
      · rw [(hlow u rfl).2 (Target.not_loose_iff.2 ⟨trivial, hclear⟩)]
  · exact h

namespace Liberal

variable (hg : Liberal p g root) (htakes : T.CarriesOut p g)
include hg htakes

theorem definite : Definite g (T.Loose .loose) root where
  toEvaluable := hg.evaluable
  exact id n ts t x y hn hreads hres hx hy hallows := by
    obtain ⟨hop, ts', hreads', htyped, _⟩ := hg.nodes id n hn
    cases List.eq_of_map_some (hreads.symm.trans hreads')
    rcases htyped.sig_of_results hres with hsig | ⟨hp, hlib⟩
    · exact hallows.eq hsig hop hx hy
    · exact allows_eq_of_liberty hlib (htakes id n ts t hn hp hreads hres) hop hallows

theorem wellformed : Wellformed T .loose g root where
  toRooted := hg.toRooted
  built := hg.built
  suited id n hn := by
    obtain ⟨_, ts, hreads, htyped, hattr⟩ := hg.nodes id n hn
    refine ⟨ts, hreads, htyped.imp_right fun ⟨t, hres, hsig⟩ => ⟨t, hres, ?_⟩,
      fun _ => hattr.mono fun _ t hlt => Target.within_of_lt hlt t (by decide), False.elim,
      False.elim⟩
    exact hsig.imp (·.mono fun _ _ => False.elim) fun ⟨hp, hlib⟩ =>
      ⟨trivial, hlib, htakes id n ts t hn hp hreads hres⟩

/-- A run keeps the meaning of code whose liberties its target carries out. -/
theorem evaluate_legalize (hT : T.Regular) (hl : legalize T config fuel g = .ok h)
    {args : List (ValueType × Datum)} {bits : BitString} (hbits : g.evaluate args = .ok bits) :
    h.evaluate args = .ok bits := by
  obtain ⟨r, hw, _, hdet⟩ := (hg.wellformed htakes).legalize hT hl
  exact hw.evaluate hT (hdet _ _ ((hg.definite htakes).determines hbits))

/-- The entry of a vector of one lane is a value of its lane type. -/
theorem scalarized (hT : T.Regular) {ids : List NodeId} {s : Run} (hs : Head T config g ids s)
    {v : Value} {c : Conversion} {t : ValueType} (hc : s.draft.conversions.get? v = some c)
    (ht : s.draft.graph.typeOf? v = some t) (haction : T.classify t = .scalarize) :
    ∃ w, c = ⟨.scalarized, .one w⟩ ∧ s.draft.graph.typeOf? w = some t.scalar := by
  have hw := hg.wellformed htakes
  obtain ⟨t', ht', hsuits⟩ := (hs.typed hT False.elim hw.toRooted hw.suited).converted v c hc
  cases ht.symm.trans ht'
  obtain ⟨kind, parts⟩ := c
  have hkind := hsuits.kind
  have hpair := hsuits.pair
  have hparts := hsuits.parts
  rw [haction] at hkind
  cases hkind
  rw [(hT.scalarized haction).2] at hparts
  cases parts with
  | one w => exact ⟨w, rfl, hparts⟩
  | two lo hi => cases hpair

end Liberal

/-! ### Small code -/

/-- Code of three nodes of which the last one is observed. -/
def observed (a b c : Node) (width : Nat) : Graph :=
  ((((Graph.empty.push a).push b).push c).push
    { opcode := .output, operands := [⟨2, 0⟩], attr := .widths [width] }).setRoot 3

section
variable {a b c n : Node} {id width : Nat} {t : ValueType}

theorem cases_observed (hn : (observed a b c width).nodes[id]? = some n) :
    id ≠ 3 ∧ n ∈ [a, b, c] ∨
      id = 3 ∧ n = { opcode := .output, operands := [⟨2, 0⟩], attr := .widths [width] } := by
  have hlt : id < 4 := Graph.lt_size_of_getElem? hn
  obtain rfl | rfl | rfl | rfl : id = 0 ∨ id = 1 ∨ id = 2 ∨ id = 3 := by omega
  all_goals cases Option.some.inj hn
  · exact .inl ⟨by decide, .head _⟩
  · exact .inl ⟨by decide, .tail _ (.head _)⟩
  · exact .inl ⟨by decide, .tail _ (.tail _ (.head _))⟩
  · exact .inr ⟨rfl, rfl⟩

/-- Such code takes liberties if its three nodes do. -/
theorem liberal_observed (ha : Graph.empty.admits a) (hb : (Graph.empty.push a).admits b)
    (hc : ((Graph.empty.push a).push b).admits c) (hres : ∀ n ∈ [a, b, c], n.results.length = 1)
    (ht : c.results = [t]) (hnodes : ∀ n ∈ [a, b, c], n.opcode ≠ .anyExtend ∧
      ∃ ts, n.operands.map (observed a b c t.bits).typeOf? = ts.map some ∧
        n.Conforms (fun op ts t =>
          Signature (fun _ _ => False) op ts t ∨ p op ∧ Liberty op ts t) ts ∧
        n.Attributed (fun offset _ => offset < 2 ^ 31) ts) :
    Liberal p (observed a b c t.bits) 3 := by
  have htype : (observed a b c t.bits).typeOf? ⟨2, 0⟩ = some t := congrArg (·[0]?) ht
  have hbuilt : (observed a b c t.bits).Built := by
    refine .setRoot 3 ((((Graph.Built.empty.push ha).push hb).push hc).push ?_)
    refine List.all_eq_true.2 fun v hv => ?_
    cases List.mem_singleton.1 hv
    exact Option.isSome_iff_exists.2 ⟨t, htype⟩
  refine ⟨⟨rfl, ⟨_, rfl, rfl, rfl⟩, fun id n hn hid => ?_⟩, hbuilt, fun id n hn => ?_⟩
  · rcases cases_observed hn with ⟨_, hmem⟩ | ⟨hout, _⟩
    · exact hres n hmem
    · exact absurd hout hid
  · rcases cases_observed hn with ⟨_, hmem⟩ | ⟨_, rfl⟩
    · exact hnodes n hmem
    · refine ⟨by simp, [t], congrArg (fun u => [u]) htype, .inl ⟨rfl, rfl⟩, ?_⟩
      intro i u width hu hw
      cases i with
      | zero =>
        cases hu
        cases hw
        exact Nat.le_refl _
      | succ i => cases hu

/-- A target carries out the liberties of such code if it carries out those of its three nodes. -/
theorem carriesOut_observed (hout : ¬ p .output) (hnodes : ∀ n ∈ [a, b, c], p n.opcode →
      ∃ ts t, n.operands.map (observed a b c width).typeOf? = ts.map some ∧ n.results = [t] ∧
        T.Takes n.opcode ts t) :
    T.CarriesOut p (observed a b c width) := by
  intro id n ts t hn hp hreads hres
  rcases cases_observed hn with ⟨_, hmem⟩ | ⟨_, rfl⟩
  · obtain ⟨ts', t', hreads', hres', htakes⟩ := hnodes n hmem hp
    cases List.eq_of_map_some (hreads.symm.trans hreads')
    cases hres.symm.trans hres'
    exact htakes
  · exact absurd hp hout

end

/-- A run for a described target returns a graph, if evaluating it says so. -/
theorem legalizes_of_isSome {d : Description} (hT : d.target = .ok T)
    (hok : (legalizeFor? d g).isSome) : ∃ h, legalize T {} 200 g = .ok h := by
  obtain ⟨h, hh⟩ := Option.isSome_iff_exists.1 hok
  obtain ⟨T', hT', hl⟩ := legalizeFor?_eq_some hh
  cases hT.symm.trans hT'
  exact ⟨h, hl⟩

theorem exists_legalize_evaluate {d : Description} {args : List (ValueType × Datum)}
    {bits : BitString}
    (hok : (legalizeFor? d g).map (fun h => (h.evaluate args).toOption) = some (some bits)) :
    ∃ T h, d.target = .ok T ∧ legalize T {} 200 g = .ok h ∧ h.evaluate args = .ok bits := by
  obtain ⟨h, hh, heval⟩ := Option.map_eq_some_iff.1 hok
  obtain ⟨T, hT, hl⟩ := legalizeFor?_eq_some hh
  exact ⟨T, h, hT, hl, Description.eq_ok_of_toOption heval⟩

/-! ### Elements -/

/-- A run keeps the meaning of code that writes words into narrower lanes, if all vectors that they
are written into are legal or come apart into legal vectors. All vectors that come apart into their
lanes then have entries of the lane type. -/
theorem legalize_preserves_elements {d : Description} (hT : d.target = .ok T) (config : Config)
    (fuel : Nat) (hg : Liberal (fun op => op = .buildVector ∨ op = .insertElement) g root)
    (htakes : T.CarriesOut (fun op => op = .buildVector ∨ op = .insertElement) g) :
    (∀ h args bits, legalize T config fuel g = .ok h → g.evaluate args = .ok bits →
      h.evaluate args = .ok bits) ∧
    ∀ ids s, Head T config g ids s → ∀ v c t, s.draft.conversions.get? v = some c →
      s.draft.graph.typeOf? v = some t → T.classify t = .scalarize →
      ∃ w, c = ⟨.scalarized, .one w⟩ ∧ s.draft.graph.typeOf? w = some t.scalar := by
  have hregular := Description.target_regular hT
  exact ⟨fun _ _ _ hl => hg.evaluate_legalize htakes hregular hl,
    fun _ _ hs _ _ _ => hg.scalarized htakes hregular hs⟩

/-- Counts the bits of four lanes of 16 bits that are cut from a word. -/
def onesOfWord : Graph :=
  observed { opcode := .argument, results := [.i32], attr := .arg 0 0 }
    { opcode := .buildVector, operands := [⟨0, 0⟩, ⟨0, 0⟩, ⟨0, 0⟩, ⟨0, 0⟩], results := [.v4i16] }
    { opcode := .count .ones, operands := [⟨1, 0⟩], results := [.v4i16] } 64

theorem liberal_onesOfWord :
    Liberal (fun op => op = .buildVector ∨ op = .insertElement) onesOfWord 3 := by
  refine liberal_observed (t := .v4i16) rfl rfl rfl (by decide) rfl ?_
  refine List.forall_mem_cons.2 ⟨?_, List.forall_mem_cons.2 ⟨?_, List.forall_mem_singleton.2 ?_⟩⟩
  · exact ⟨by decide, [], rfl, .inr ⟨.i32, rfl, .inl .argument⟩, 0, 0, rfl, by decide⟩
  · refine ⟨by decide, [.i32, .i32, .i32, .i32], rfl, .inr ⟨.v4i16, rfl, ?_⟩, trivial⟩
    refine .inr ⟨.inl rfl, ?_⟩
    exact .elements rfl rfl fun e he => .inr (by
      obtain rfl : e = .i32 := by simpa using he
      decide)
  · exact ⟨by decide, [.v4i16], rfl, .inr ⟨.v4i16, rfl, .inl (.count rfl)⟩, trivial⟩

/-- A machine that has vectors of two such lanes cuts the words. -/
theorem legalize_preserves_elements_onesOfWord :
    Liberal (fun op => op = .buildVector ∨ op = .insertElement) onesOfWord 3 ∧
    onesOfWord.evaluate [(.i32, .scalar 0xfffffff0)] = .ok (.ofNumber 64 0xc000c000c000c) ∧
    ∃ T h, packed32.target = .ok T ∧ T.classify .v4i16 = .split ∧
      T.CarriesOut (fun op => op = .buildVector ∨ op = .insertElement) onesOfWord ∧
      legalize T {} 200 onesOfWord = .ok h ∧
      h.evaluate [(.i32, .scalar 0xfffffff0)] = .ok (.ofNumber 64 0xc000c000c000c) := by
  have hfacts : (packed32.target.toOption.map fun T => decide (T.classify .v4i16 = .split ∧
      T.transform .v4i16 = .v2i16 ∧ T.classify .v2i16 = .legal)) = some true := rfl
  obtain ⟨T, hT, hfacts⟩ := Description.exists_target hfacts
  obtain ⟨hsplit, hhalf, hlegal⟩ := of_decide_eq_true hfacts
  have hkeeps : T.Keeps .v4i16 := .split hsplit (hhalf ▸ .legal hlegal)
  obtain ⟨h, hl⟩ := legalizes_of_isSome hT (g := onesOfWord) (by decide +kernel)
  have hbits : onesOfWord.evaluate [(.i32, .scalar 0xfffffff0)] =
    .ok (.ofNumber 64 0xc000c000c000c) := rfl
  have htakes : T.CarriesOut (fun op => op = .buildVector ∨ op = .insertElement) onesOfWord := by
    refine carriesOut_observed (by simp) (List.forall_mem_cons.2 ⟨by simp, ?_⟩)
    refine List.forall_mem_cons.2 ⟨fun _ => ?_, by simp⟩
    exact ⟨[.i32, .i32, .i32, .i32], .v4i16, rfl, rfl, .inr hkeeps⟩
  exact ⟨liberal_onesOfWord, hbits, T, h, hT, hsplit, htakes, hl,
    (legalize_preserves_elements hT {} 200 liberal_onesOfWord htakes).1 h _ _ hl hbits⟩

/-- A machine of words alone counts the bits of the whole word for each lane. -/
theorem legalize_counts_word :
    Liberal (fun op => op = .buildVector ∨ op = .insertElement) onesOfWord 3 ∧
    onesOfWord.evaluate [(.i32, .scalar 0xfffffff0)] = .ok (.ofNumber 64 0xc000c000c000c) ∧
    ∃ T h, Target.int32.target = .ok T ∧ legalize T {} 200 onesOfWord = .ok h ∧
      h.evaluate [(.i32, .scalar 0xfffffff0)] = .ok (.ofNumber 64 0x1c001c001c001c) := by
  have hok : (legalizeFor? Target.int32 onesOfWord).map
      (fun h => (h.evaluate [(.i32, .scalar 0xfffffff0)]).toOption) =
        some (some (.ofNumber 64 0x1c001c001c001c)) := by
    decide +kernel
  obtain ⟨T, h, hT, hl, heval⟩ := exists_legalize_evaluate hok
  exact ⟨liberal_onesOfWord, rfl, T, h, hT, hl, heval⟩

/-! ### Lanes -/

/-- A run keeps the meaning of code that reads lanes into wider words, if the target does not split
these words, and keeps the vectors or has legal lanes. -/
theorem legalize_preserves_lanes {d : Description} (hT : d.target = .ok T) (config : Config)
    (fuel : Nat) (hg : Liberal (· = .extractElement) g root)
    (htakes : T.CarriesOut (· = .extractElement) g) (hl : legalize T config fuel g = .ok h)
    (args : List (ValueType × Datum)) {bits : BitString} (hbits : g.evaluate args = .ok bits) :
    h.evaluate args = .ok bits :=
  hg.evaluate_legalize htakes (Description.target_regular hT) hl hbits

/-- Reads the second of two lanes of 32 bits into a word of 64 bits. -/
def upperLane : Graph :=
  observed { opcode := .argument, results := [.v2i32], attr := .arg 0 0 }
    { opcode := .constant, results := [.i32], attr := .imm 1 }
    { opcode := .extractElement, operands := [⟨0, 0⟩, ⟨1, 0⟩], results := [.i64] } 64

theorem liberal_upperLane : Liberal (· = .extractElement) upperLane 3 := by
  refine liberal_observed (t := .i64) rfl rfl rfl (by decide) rfl ?_
  refine List.forall_mem_cons.2 ⟨?_, List.forall_mem_cons.2 ⟨?_, List.forall_mem_singleton.2 ?_⟩⟩
  · exact ⟨by decide, [], rfl, .inr ⟨.v2i32, rfl, .inl .argument⟩, 0, 0, rfl, by decide⟩
  · exact ⟨by decide, [], rfl, .inr ⟨.i32, rfl, .inl .constant⟩, 1, rfl, by decide⟩
  · exact ⟨by decide, [.v2i32, .i32], rfl, .inr ⟨.i64, rfl, .inr ⟨rfl,
      .lane rfl rfl (by decide) (by decide) (by decide)⟩⟩, show 8 ≤ 32 by decide⟩

/-- A machine with registers of 32 and of 64 bits. -/
def int64 : Description := ⟨"int64", [.i32, .i64], .i32⟩

/-- A machine without vectors that has words of both widths extends the lane by zeros. -/
theorem legalize_preserves_lanes_upperLane :
    Liberal (· = .extractElement) upperLane 3 ∧
    upperLane.evaluate [(.v2i32, .vector [5, 0x80000007])] = .ok (.ofNumber 64 0x80000007) ∧
    ∃ T h, int64.target = .ok T ∧ T.CarriesOut (· = .extractElement) upperLane ∧
      legalize T {} 200 upperLane = .ok h ∧
      h.evaluate [(.v2i32, .vector [5, 0x80000007])] = .ok (.ofNumber 64 0x80000007) := by
  have hbits : upperLane.evaluate [(.v2i32, .vector [5, 0x80000007])] =
    .ok (.ofNumber 64 0x80000007) := rfl
  have hfacts : (int64.target.toOption.map fun T => decide (T.classify .i64 ≠ .expandInteger ∧
      T.classify .i32 = .legal)) = some true := rfl
  obtain ⟨T, hT, hfacts⟩ := Description.exists_target hfacts
  obtain ⟨hne, hlane⟩ := of_decide_eq_true hfacts
  have htakes : T.CarriesOut (· = .extractElement) upperLane := by
    refine carriesOut_observed (by simp) (List.forall_mem_cons.2 ⟨by simp, ?_⟩)
    refine List.forall_mem_cons.2 ⟨by simp, List.forall_mem_singleton.2 fun _ => ?_⟩
    exact ⟨[.v2i32, .i32], .i64, rfl, rfl, .inr ⟨hne, .inr hlane⟩⟩
  obtain ⟨h, hl⟩ := legalizes_of_isSome hT (g := upperLane) (by decide +kernel)
  exact ⟨liberal_upperLane, hbits, T, h, hT, htakes, hl,
    legalize_preserves_lanes hT {} 200 liberal_upperLane htakes hl _ hbits⟩

/-- A machine with registers of one, two and four words of 32 bits. -/
def vectors32 : Description := ⟨"vectors32", [.i32, .v2i32, .v4i32], .i32⟩

/-- A machine that splits the wider word looks for its halves in a vector of twice the size, and
finds none. -/
theorem legalize_loses_lane :
    Liberal (· = .extractElement) upperLane 3 ∧
    upperLane.evaluate [(.v2i32, .vector [5, 0x80000007])] = .ok (.ofNumber 64 0x80000007) ∧
    ∃ T h, vectors32.target = .ok T ∧ legalize T {} 200 upperLane = .ok h ∧
      h.evaluate [(.v2i32, .vector [5, 0x80000007])] = .ok (.ofNumber 64 0) := by
  have hok : (legalizeFor? vectors32 upperLane).map
      (fun h => (h.evaluate [(.v2i32, .vector [5, 0x80000007])]).toOption) =
        some (some (.ofNumber 64 0)) := by
    decide +kernel
  obtain ⟨T, h, hT, hl, heval⟩ := exists_legalize_evaluate hok
  exact ⟨liberal_upperLane, rfl, T, h, hT, hl, heval⟩

/-! ### Pairs -/

/-- A run keeps the meaning of code that makes pairs of any two values of one type, if the values
have one lane or the target does not join the pair in a wider integer. -/
theorem legalize_preserves_pairs {d : Description} (hT : d.target = .ok T) (config : Config)
    (fuel : Nat) (hg : Liberal (· = .buildPair) g root) (htakes : T.CarriesOut (· = .buildPair) g)
    (hl : legalize T config fuel g = .ok h) (args : List (ValueType × Datum)) {bits : BitString}
    (hbits : g.evaluate args = .ok bits) : h.evaluate args = .ok bits :=
  hg.evaluate_legalize htakes (Description.target_regular hT) hl hbits

/-- A pair of type `t` of two arguments of type `u`. -/
def pairOf (u t : ValueType) : Graph :=
  observed { opcode := .argument, results := [u], attr := .arg 0 0 }
    { opcode := .argument, results := [u], attr := .arg 0 u.bits }
    { opcode := .buildPair, operands := [⟨0, 0⟩, ⟨1, 0⟩], results := [t] } t.bits

theorem liberal_pairOf {u t : ValueType} (h : t.bits = 2 * u.bits) :
    Liberal (· = .buildPair) (pairOf u t) 3 := by
  refine liberal_observed rfl rfl rfl (by simp) rfl ?_
  refine List.forall_mem_cons.2 ⟨?_, List.forall_mem_cons.2 ⟨?_, List.forall_mem_singleton.2 ?_⟩⟩
  · exact ⟨by simp, [], rfl, .inr ⟨u, rfl, .inl .argument⟩, 0, 0, rfl, Nat.two_pow_pos 31⟩
  · exact ⟨by simp, [], rfl, .inr ⟨u, rfl, .inl .argument⟩, 0, u.bits, rfl,
      Nat.lt_of_le_of_lt u.bits_le (by decide)⟩
  · exact ⟨by simp, [u, u], rfl, .inr ⟨t, rfl, .inr ⟨rfl, .pair h⟩⟩, trivial⟩

/-- A machine with registers of 128 bits and for floats of 32 bits. -/
def float32 : Description := ⟨"float32", [.i128, .f32], .i128⟩

set_option maxRecDepth 4000 in
/-- Two floats are joined in an integer that is wider than the pair. -/
theorem legalize_preserves_pairs_floats :
    Liberal (· = .buildPair) (pairOf .f32 .i64) 3 ∧
    (pairOf .f32 .i64).evaluate [(.i64, .scalar 0x8877665544332211)] =
      .ok (.ofNumber 64 0x8877665544332211) ∧
    ∃ T h, float32.target = .ok T ∧ T.Widens .i64 ∧
      T.CarriesOut (· = .buildPair) (pairOf .f32 .i64) ∧
      legalize T {} 200 (pairOf .f32 .i64) = .ok h ∧
      h.evaluate [(.i64, .scalar 0x8877665544332211)] = .ok (.ofNumber 64 0x8877665544332211) := by
  have hbits : (pairOf .f32 .i64).evaluate [(.i64, .scalar 0x8877665544332211)] =
    .ok (.ofNumber 64 0x8877665544332211) := rfl
  have hfacts : (float32.target.toOption.map fun T => decide (T.classify .i64 = .promoteInteger)) =
    some true := rfl
  obtain ⟨T, hT, hfacts⟩ := Description.exists_target hfacts
  obtain ⟨h, hl⟩ := legalizes_of_isSome hT (g := pairOf .f32 .i64) (by decide +kernel)
  have htakes : T.CarriesOut (· = .buildPair) (pairOf .f32 .i64) := by
    refine carriesOut_observed (by simp) (List.forall_mem_cons.2 ⟨by simp, ?_⟩)
    refine List.forall_mem_cons.2 ⟨by simp, List.forall_mem_singleton.2 fun _ => ?_⟩
    exact ⟨[.f32, .f32], .i64, rfl, rfl, .inl rfl⟩
  exact ⟨liberal_pairOf rfl, hbits, T, h, hT, .inl (of_decide_eq_true hfacts), htakes, hl,
    legalize_preserves_pairs hT {} 200 (liberal_pairOf rfl) htakes hl _ hbits⟩

/-- A machine with registers of 64 bits and of two bytes. -/
def bytes64 : Description := ⟨"bytes64", [.i64, .v2i8], .i64⟩

/-- Of two vectors that are joined in a wider integer the first lanes remain. -/
theorem legalize_drops_lanes :
    Liberal (· = .buildPair) (pairOf .v2i8 .i32) 3 ∧
    (pairOf .v2i8 .i32).evaluate [(.i32, .scalar 0x44332211)] = .ok (.ofNumber 32 0x44332211) ∧
    ∃ T h, bytes64.target = .ok T ∧ legalize T {} 200 (pairOf .v2i8 .i32) = .ok h ∧
      h.evaluate [(.i32, .scalar 0x44332211)] = .ok (.ofNumber 32 0x330011) := by
  have hok : (legalizeFor? bytes64 (pairOf .v2i8 .i32)).map
      (fun h => (h.evaluate [(.i32, .scalar 0x44332211)]).toOption) =
        some (some (.ofNumber 32 0x330011)) := by
    decide +kernel
  obtain ⟨T, h, hT, hl, heval⟩ := exists_legalize_evaluate hok
  exact ⟨liberal_pairOf rfl, rfl, T, h, hT, hl, heval⟩

end Legal

end Dataflow
