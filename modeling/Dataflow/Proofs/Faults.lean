import Dataflow.Proofs.Totality

/-!
# Faults

A run on well-typed code ends with a fault in two cases only: the second half of an argument starts
beyond the positions of 32 bits, or the constant index of a lane is too large to be doubled. Neither
arises where the numbers of the graph are moderate, since the rules keep them so.
-/

namespace Dataflow

/-- All numbers in the graph are moderate. -/
def Target.Moderates (T : Target) (g : Graph) : Prop :=
  ∀ (id : Nat) n ts, g.nodes[id]? = some n → n.operands.map g.typeOf? = ts.map some →
    T.Moderate g ts n

namespace Legal

open Engine

variable {T : Target} {limit : Limit} {strict total : Prop} {g : Graph} {root : NodeId} {n : Node}

theorem WellTyped.suited_of_moderates (hg : WellTyped g root) (h : T.Moderates g) (id : Nat)
    (n : Node) (hn : g.nodes[id]? = some n) : ∃ ts, Suited T (.top True) False False g n ts := by
  obtain ⟨ts, hts⟩ := hg.suited T id n hn
  exact ⟨ts, hts.reads, hts.typed, nofun, fun _ => h id n ts hn hts.reads, nofun⟩

/-- An index whose double leaves a word of 128 bits is of a type of 128 bits. -/
theorem Draft.Typed.eq_i128_of_le {d : Draft} (h : d.Typed T limit strict total)
    (hl : limit.moderate) {v : Value} {i : ValueType} {k : Nat} (hv : d.graph.typeOf? v = some i)
    (hi : i.IsWord) (hm : d.graph.nodes[v.node]? = some n) (hop : n.opcode = .constant)
    (hattr : n.attr = .imm k) (hk : 2 ^ 128 ≤ 2 * k) : i = .i128 := by
  obtain ⟨m, ts, hm', hts, hres, _⟩ := h.node_of_typeOf? hv
  cases hm.symm.trans hm'
  have hlt := (hts.moderate hl).constant i k hop hres hattr
  refine hi.eq_of_bits_eq ⟨rfl, rfl⟩ (Nat.le_antisymm hi.bits_le ?_)
  by_contra hbits
  have hle : i.laneBits ≤ 127 := by
    rw [hi.laneBits_eq]
    exact Nat.le_of_lt_succ (Nat.lt_of_not_le hbits)
  have hpow := Nat.pow_le_pow_right (n := 2) (by decide) hle
  omega

/-- The operands of a node that reads a lane. -/
theorem Suited.extract_cases {ts : List ValueType} {t : ValueType} {v : Value}
    (h : Suited T limit strict total g n ts) (hop : n.opcode = .extractElement)
    (hres : n.results = [t]) (hv : n.operands[1]? = some v) :
    ∃ vector u i, n.operands = [vector, v] ∧ ts = [u, i] ∧ g.typeOf? v = some i ∧ i.IsWord ∧
      T.Reads limit u t := by
  have hsig := h.typed.sig_of_results hres
  rw [hop] at hsig
  obtain ⟨u, i, rfl, hi⟩ := hsig.lane
  obtain ⟨vector, index, hops, _, hindex⟩ : ∃ vector index, n.operands = [vector, index] ∧
      g.typeOf? vector = some u ∧ g.typeOf? index = some i := by
    simpa [List.map_eq_cons_iff] using h.reads
  rw [hops] at hv
  cases hv
  exact ⟨vector, u, i, hops, rfl, hindex, hi, hsig.reads⟩

/-- Nothing that is computed from moderate numbers leaves its word. -/
theorem Draft.Typed.not_overflows {d : Draft} {rank : Nat → Nat} (h : d.Typed T limit strict total)
    (hT : T.Regular) (hd : d.replaced.Descends rank) (hl : limit.moderate) {id : Nat}
    (hn : d.graph.nodes[id]? = some n) : ¬ d.replaced.Overflows T d.graph n := by
  obtain ⟨ts, hts⟩ := h.nodes id n hn
  have hmoderate := hts.moderate hl
  rintro ⟨t, hres, ⟨hop, hc, hbits, index, offset, hattr, hle⟩ |
    ⟨hop, hc, v, m, k, hv, hm, hconstant, himm, hk⟩⟩
  · have hend := hmoderate.argument t index offset hop hres hattr hc
    have hpos := t.bits_pos
    omega
  · obtain ⟨vector, u, i, hops, rfl, hindex, hi, hreads⟩ := hts.extract_cases hop hres hv
    obtain ⟨hword, _, hbits, _⟩ := hT.expanded hc
    have hcanon := (h.typeOf?_canon hd v).trans hindex
    obtain rfl := h.eq_i128_of_le hl hcanon hi hm hconstant himm hk
    -- The widest words are expanded where any are, so the index is its own canonical form.
    have hillegal : T.classify .i128 ≠ .legal := by
      intro hlegal
      have hle := hT.bits_le_of_expanded hc hi (by rw [hlegal]; simp)
      obtain rfl := hword.eq_of_bits_eq hi (Nat.le_antisymm hword.bits_le hle)
      cases hlegal.symm.trans hc
    rw [h.canon_of_illegal hd hindex hillegal] at hm
    have hnames := hmoderate.index vector v u .i128 hop hops rfl m k rfl hillegal hm hconstant
      himm
    -- The lane is that expanded word, so it has at least two bits.
    have hlane : u.laneBits = t.bits := by
      rw [← hword.laneBits_eq, hreads.scalar_of_expanded hc, u.laneBits_scalar]
    have hpos := (T.transform t).bits_pos
    have htwo : (k + 1) * 2 ≤ (k + 1) * u.laneBits := Nat.mul_le_mul_left _ (by omega)
    omega

/-- A run that ends with a fault stops at a node whose rule refuses it with that fault. -/
theorem exists_refuses_of_fault (hT : T.Regular) (htotal : total → strict) (hg : Rooted g root)
    (hforward : Forward g)
    (hnodes : ∀ (id : Nat) n, g.nodes[id]? = some n → ∃ ts, Suited T limit strict total g n ts)
    {config : Config} {fuel : Nat} {f : Fault} (hl : legalize T config fuel g = .error (.fault f)) :
    ∃ ids rest id s n, Head T config g ids s ∧ s.worklist = id :: rest ∧
      s.draft.graph.nodes[id]? = some n ∧ s.draft.Refuses T n (.fault f) := by
  obtain ⟨h, hh⟩ | ⟨e, he, hend⟩ := legalize_cases hT htotal hg hforward hnodes config fuel
  · cases hl.symm.trans hh
  · cases hl.symm.trans he
    rcases hend with hexhausted | hstop
    · cases hexhausted
    · exact (hstop.refuses hT htotal hg hnodes).1

/-- A run on well-typed code ends with no other fault than an overflow, for one of two reasons: the
second half of an argument starts beyond the positions of 32 bits, or the constant index of a lane
is too large to be doubled. Where the numbers are moderate, a run ends with no fault at all. -/
theorem legalize_faults {d : Description} {T : Target} (hT : d.target = .ok T) (config : Config)
    {g : Graph} {root : NodeId} (hg : WellTyped g root) (hforward : Forward g) :
    (∀ fuel f, legalize T config fuel g = .error (.fault f) → f = .overflow ∧
      ∃ ids rest id s n, Head T config g ids s ∧ s.worklist = id :: rest ∧
        s.draft.graph.nodes[id]? = some n ∧ s.draft.replaced.Overflows T s.draft.graph n) ∧
    (T.Moderates g → ∀ fuel f, legalize T config fuel g ≠ .error (.fault f)) := by
  have hregular := Description.target_regular hT
  refine ⟨fun fuel f hl => ?_, fun hmoderates fuel f hl => ?_⟩
  · obtain ⟨ids, rest, id, s, n, hhead, hw, hn, hrefuses⟩ :=
      exists_refuses_of_fault hregular False.elim hg.toRooted hforward (hg.suited T) hl
    refine ⟨?_, ids, rest, id, s, n, hhead, hw, hn, hrefuses.overflows f rfl⟩
    have hrefusal := hrefuses.refusal
    cases f <;> first | rfl | exact hrefusal.elim
  · have hsuited := hg.suited_of_moderates hmoderates
    obtain ⟨ids, rest, id, s, n, hhead, _, hn, hrefuses⟩ :=
      exists_refuses_of_fault hregular False.elim hg.toRooted hforward hsuited hl
    obtain ⟨⟨rank, hsound⟩, _⟩ := hhead.sound
    have htyped := hhead.typed hregular False.elim hg.toRooted hsuited
    exact htyped.not_overflows hregular hsound.ordered.descends trivial hn
      (hrefuses.overflows f rfl)

/-- Reads lane `k` of an argument that starts at bit `offset`. -/
def laneNodes (offset k : Nat) : List Node :=
  [{ opcode := .argument, results := [.v2i64], attr := .arg 0 offset },
    { opcode := .constant, results := [.i128], attr := .imm k },
    { opcode := .extractElement, operands := [⟨0, 0⟩, ⟨1, 0⟩], results := [.i64] },
    { opcode := .output, operands := [⟨2, 0⟩], attr := .widths [64] }]

def laneAt (offset k : Nat) : Graph :=
  ((laneNodes offset k).foldl Graph.push .empty).setRoot 3

section
variable {offset k : Nat} {id : Nat}

theorem getElem?_laneAt : (laneAt offset k).nodes[id]? = (laneNodes offset k)[id]? := by
  rw [show (laneAt offset k).nodes = (laneNodes offset k).toArray from rfl, List.getElem?_toArray]

theorem wellTyped_laneAt (offset k : Nat) : WellTyped (laneAt offset k) 3 := by
  refine ⟨⟨rfl, ⟨_, rfl, rfl, rfl⟩, fun id n hn hid => ?_⟩, fun id n hn => ?_⟩
  · rw [getElem?_laneAt] at hn
    rcases id with _ | _ | _ | _ | id <;> cases hn
    iterate 3 rfl
    exact absurd rfl hid
  · rw [getElem?_laneAt] at hn
    rcases id with _ | _ | _ | _ | id <;> cases hn
    · exact ⟨[], rfl, .inr ⟨.v2i64, rfl, .argument⟩⟩
    · exact ⟨[], rfl, .inr ⟨.i128, rfl, .constant⟩⟩
    · exact ⟨[.v2i64, .i128], rfl, .inr ⟨.i64, rfl, .extractElement rfl (.inl rfl) ⟨rfl, rfl⟩⟩⟩
    · exact ⟨[.i64], rfl, .inl ⟨rfl, rfl⟩⟩

theorem forward_laneAt (offset k : Nat) : Forward (laneAt offset k) := by
  intro id n v hn hv
  rw [getElem?_laneAt] at hn
  rcases id with _ | _ | _ | _ | id <;> cases hn
  all_goals
    dsimp only at hv
    revert v
    decide

theorem moderates_laneAt (T : Target) (hoffset : offset + 128 ≤ 2 ^ 32)
    (hk : (k + 1) * 64 ≤ 2 ^ 128) : T.Moderates (laneAt offset k) := by
  intro id n ts hn hreads
  rw [getElem?_laneAt] at hn
  rcases id with _ | _ | _ | _ | id <;> cases hn
  · refine ⟨?_, by simp, by simp⟩
    rintro _ _ _ _ ⟨⟩ ⟨⟩ _
    exact hoffset
  · refine ⟨by simp, ?_, by simp⟩
    rintro _ _ _ ⟨⟩ ⟨⟩
    have hlt : k < 2 ^ 128 := by omega
    exact hlt
  · refine ⟨by simp, by simp, ?_⟩
    rintro _ _ _ _ _ ⟨⟩ rfl m k' _ _ hm _ hattr
    rw [getElem?_laneAt] at hm
    cases hreads
    cases hm
    cases hattr
    exact hk
  · exact Target.moderate_of_ne (by simp)

end

/-- On a machine of 32-bit registers, an argument may end with the last position of 32 bits, and the
index of a lane that is out of range may be large. -/
theorem legalize_faults_laneAt :
    WellTyped (laneAt (2 ^ 32 - 128) (2 ^ 122 - 1)) 3 ∧
      Forward (laneAt (2 ^ 32 - 128) (2 ^ 122 - 1)) ∧ ∃ T, Target.int32.target = .ok T ∧
        T.Moderates (laneAt (2 ^ 32 - 128) (2 ^ 122 - 1)) ∧
        ∀ fuel f, legalize T {} fuel (laneAt (2 ^ 32 - 128) (2 ^ 122 - 1)) ≠ .error (.fault f) := by
  have hwell := wellTyped_laneAt (2 ^ 32 - 128) (2 ^ 122 - 1)
  have hforward := forward_laneAt (2 ^ 32 - 128) (2 ^ 122 - 1)
  obtain ⟨T, hT, _⟩ := classify_int32
  have hmoderates : T.Moderates (laneAt (2 ^ 32 - 128) (2 ^ 122 - 1)) :=
    moderates_laneAt T (by decide) (by decide)
  exact ⟨hwell, hforward, T, hT, hmoderates, (legalize_faults hT {} hwell hforward).2 hmoderates⟩

/-- Twice the index `2 ^ 127` has more than 128 bits. -/
theorem legalize_faults_overflow :
    WellTyped (laneAt 0 (2 ^ 127)) 3 ∧ Forward (laneAt 0 (2 ^ 127)) ∧
      ∃ T, Target.int32.target = .ok T ∧
        legalize T {} 200 (laneAt 0 (2 ^ 127)) = .error (.fault .overflow) := by
  refine ⟨wellTyped_laneAt _ _, forward_laneAt _ _, ?_⟩
  have hrun : (Target.int32.target.toOption.map fun T =>
      (legalize T {} 200 (laneAt 0 (2 ^ 127))).map (fun _ => ())) =
        some (.error (.fault .overflow)) := by
    decide +kernel
  obtain ⟨T, hT, hrun⟩ := Option.map_eq_some_iff.1 hrun
  refine ⟨T, ?_, ?_⟩
  · cases hd : Target.int32.target <;> rw [hd] at hT <;> cases hT
    rfl
  · cases hl : legalize T {} 200 (laneAt 0 (2 ^ 127)) <;> rw [hl] at hrun <;> cases hrun
    rfl

end Legal

end Dataflow
