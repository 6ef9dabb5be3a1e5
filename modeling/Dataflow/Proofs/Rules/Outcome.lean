import Dataflow.Proofs.Resizing

/-!
# What a rule achieves

A result rule returns parts of the transformed type that make up a datum of the node. An operand
rule returns a value that has such a datum itself. The datum of the node is known from its
operation and the data of its operands.
-/

namespace Dataflow

theorem Datum.ofNumber_widened {t u : ValueType} (h : t.bits ≤ u.bits) (a : Nat) :
    Datum.ofNumber t ((Datum.ofNumber u a).number u) = .ofNumber t a := by
  rw [Datum.number_ofNumber, Datum.ofNumber_eq_iff,
    Nat.mod_mod_of_dvd _ (Nat.pow_dvd_pow 2 h)]

/-- What operations of two operands that work lane by lane are not. -/
theorem Opcode.ne_of_isBinary {op : Opcode} (h : op.isIntBinary ∨ op.isFloatBinary) :
    op ≠ .output ∧ op ≠ .buildPair ∧ ¬(op = .anyExtend ∨ op = .extractElement) := by
  refine ⟨?_, ?_, ?_⟩
  · rintro rfl
    simp [isIntBinary, isFloatBinary] at h
  · rintro rfl
    simp [isIntBinary, isFloatBinary] at h
  · rintro (rfl | rfl) <;> simp [isIntBinary, isFloatBinary] at h

/-- A number in two parts. -/
theorem Word.mod_add_div_mod (a m n : Nat) :
    a % 2 ^ m + 2 ^ m * (a / 2 ^ m % 2 ^ n) = a % 2 ^ (m + n) := by
  rw [Nat.pow_add, Nat.mod_mul]

namespace Legal

namespace RewriteSpec

variable {V : RewriteSpec} {op : Opcode} {ts : List ValueType} {t u c : ValueType} {v w : Value}
  {x y i : Nat} {d e : Datum}

/-- The node is an operation on values of types `ts`, with a result of type `t`. -/
structure Shows (V : RewriteSpec) (op : Opcode) (ts : List ValueType) (t : ValueType) : Prop where
  opcode : V.node.opcode = op
  types : V.types = ts
  results : V.node.results = [t]

/-- A datum that the node may have. -/
def Accepts (V : RewriteSpec) (d : Datum) : Prop :=
  V.node.Allows (V.T.Loose V.limit) V.types V.datum d

/-- The one part that stands for the result of the node. -/
structure Carried (V : RewriteSpec) (t : ValueType) (w : Value) : Prop where
  is : V.Is w (V.T.transform t) (V.val w.node)
  datum : V.sem → V.Accepts (Parts.assemble V.T V.val t (.one w))

/-- The two parts that stand for the result of the node. -/
structure Paired (V : RewriteSpec) (t : ValueType) (w : Value × Value) : Prop where
  low : V.Is w.1 (V.T.transform t) (V.val w.1.node)
  high : V.Is w.2 (V.T.transform t) (V.val w.2.node)
  datum : V.sem → V.Accepts (Parts.assemble V.T V.val t (.two w.1 w.2))

/-- A value that takes the place of the result of the node. -/
structure Stands (V : RewriteSpec) (t : ValueType) (w : Value) : Prop where
  is : V.Is w t (V.val w.node)
  datum : V.sem → V.Accepts (V.val w.node)

namespace Shows

theorem operandType (hn : V.Shows op ts t) (h : ts[i]? = some u) : V.types[i]? = some u :=
  hn.types ▸ h

theorem mem (hn : V.Shows op ts t) : t ∈ V.node.results ++ V.types := by
  rw [hn.results]
  exact List.mem_append_left _ (List.mem_singleton.2 rfl)

theorem mem_operand (hn : V.Shows op ts t) (h : u ∈ ts) : u ∈ V.node.results ++ V.types :=
  List.mem_append_right _ (hn.types ▸ h)

theorem append_eq (hn : V.Shows op ts t) : V.node.results ++ V.types = t :: ts := by
  rw [hn.results, hn.types]
  rfl

theorem plain (hn : V.Shows op ts t) (h : V.total) : V.T.Plain op (t :: ts) := by
  have := V.plain h
  rwa [hn.append_eq, hn.opcode] at this

/-- Only scalar integer code is converted without fail. -/
theorem not_total (hn : V.Shows op ts t) (hop : op.isPlain = false) : ¬ V.total := fun h => by
  rw [(hn.plain h).opcode] at hop
  cases hop

theorem not_total_of_mem (hn : V.Shows op ts t) (hu : u ∈ t :: ts) (hword : ¬ u.IsWord) :
    ¬ V.total := fun h => hword ((hn.plain h).words u hu)

/-- The meaning of the node, from the data of its operands. -/
theorem means (hn : V.Shows op ts t) (hop : op ≠ .output) (hs : V.sem) :
    Node.meaning V.args ⟨op, V.node.operands, [t], V.node.attr⟩
      ((List.range ts.length).map V.data) ts = .ok V.datum := by
  have h := V.means_data hs (by rw [hn.opcode]; exact hop)
  rw [hn.types] at h
  have hnode : V.node = ⟨op, V.node.operands, [t], V.node.attr⟩ := by
    rw [← hn.opcode, ← hn.results]
  rwa [hnode] at h

theorem accepts_iff (hn : V.Shows op ts t) (hop : ¬(op = .anyExtend ∨ op = .extractElement)) :
    V.Accepts d ↔ d = V.datum := by
  rw [Accepts, Node.Allows, hn.opcode, if_neg hop]

/-- Extensions of unspecified bits and lanes read into wider words fix the low bits only, where the
operand is loose. -/
theorem accepts_low (hn : V.Shows op (u :: ts) t) (hop : op = .anyExtend ∨ op = .extractElement)
    (hx : V.datum = .scalar x) (h : y % 2 ^ u.laneBits = x % 2 ^ u.laneBits)
    (htight : ¬ V.T.Loose V.limit u → y = x) : V.Accepts (.scalar y) := by
  rw [Accepts, Node.Allows, hn.opcode, if_pos hop, hn.types]
  refine ⟨x, y, hx, rfl, fun u' hu' => ?_⟩
  cases hu'
  exact ⟨h, htight⟩

theorem accepts_self (hn : V.Shows op (u :: ts) t) (hop : op = .anyExtend ∨ op = .extractElement)
    (hx : V.datum = .scalar x) : V.Accepts (.scalar x) :=
  hn.accepts_low hop hx rfl fun _ => rfl

end Shows

/-- The attributes of a node that takes no index. -/
theorem Shows.attributed (hn : V.Shows op ts t) (hs : V.strict)
    (hop : ¬(op = .extractElement ∨ op = .insertElement)) :
    V.node.Attributed (V.T.Within V.limit) V.types :=
  V.attributed hs fun h => absurd (hn.opcode ▸ h) hop

/-- Illegal lanes are those of illegal vectors. -/
theorem illegal_of_lane (hm : V.measured) (hu : u ∈ V.node.results ++ V.types)
    (h : V.T.classify u.scalar ≠ .legal) : V.T.classify u ≠ .legal :=
  fun hlegal => h (V.laned hm u hu hlegal)

theorem Shows.extract_index {i : ValueType} (hn : V.Shows .extractElement [u, i] t) (hs : V.strict)
    (hnumbered : V.numbered) : 8 ≤ i.bits := by
  have := V.attributed hs fun _ => hnumbered
  unfold Node.Attributed at this
  rwa [hn.opcode, hn.types, hn.results] at this

/-- The canonical form of the index is that of the second operand: the vector is no index. -/
theorem Shows.index_operand {i : ValueType} (hn : V.Shows .extractElement [u, i] t)
    (hu : u.isVector = true) (hi : i.isVector = false) {index : Value} (hsource : V.Source index)
    (hindex : V.Is index i d) : ∃ v w, V.node.operands = [v, w] ∧ V.final.typeOf? w = some i ∧
      index = V.base.replaced.canon w := by
  obtain ⟨v, w, hops, hv, hw⟩ : ∃ v w, V.node.operands = [v, w] ∧ V.final.typeOf? v = some u ∧
      V.final.typeOf? w = some i := by
    have hreads := V.reads
    rw [hn.types] at hreads
    simpa [List.map_eq_cons_iff] using hreads
  obtain ⟨x, hx, rfl⟩ := hsource
  have hmem := hx
  rw [hops] at hx
  have hx : x = v ∨ x = w := by simpa using hx
  rcases hx with rfl | rfl
  · cases hindex.type.symm.trans (V.supplies x hmem u hv).is.type
    rw [hu] at hi
    cases hi
  · exact ⟨v, x, hops, hw, rfl⟩

/-- The index of the lane that the node reads is within limits. -/
theorem Shows.names {i : ValueType} (hn : V.Shows .extractElement [u, i] t) (hu : u.isVector = true)
    (hi : i.isVector = false) {index : Value} (hsource : V.Source index) (hindex : V.Is index i d)
    (hl : V.limit.moderate) : V.T.Names V.final u i index := by
  intro m k hi128 hillegal
  obtain ⟨v, w, hops, hw, rfl⟩ := hn.index_operand hu hi hsource hindex
  rw [V.fixed hl w (by simp [hops]) i hw hillegal]
  exact (V.moderate hl).index v w u i hn.opcode hops hn.types m k hi128 hillegal

theorem Shows.shuffle_mask (hn : V.Shows .vectorShuffle [u, u] t) (hs : V.strict) :
    ∃ mask, V.node.attr = .mask mask ∧ mask.length = t.lanes ∧
      ∀ k, some k ∈ mask → k < 2 * u.lanes := by
  have := hn.attributed hs (by simp)
  unfold Node.Attributed at this
  rwa [hn.opcode, hn.types, hn.results] at this

theorem Shows.insert_index {e i : ValueType} (hn : V.Shows .insertElement [u, e, i] t)
    (hs : V.strict) (hnumbered : V.numbered) : 8 ≤ i.bits := by
  have := V.attributed hs fun _ => hnumbered
  unfold Node.Attributed at this
  rwa [hn.opcode, hn.types, hn.results] at this

/-- The same operation may work at simpler types. -/
theorem Shows.admits {t' : ValueType} {ts' : List ValueType} (hn : V.Shows op ts t)
    (hop : op ≠ .buildPair)
    (h : List.Forall₂ (fun t u => V.T.weight t ≤ V.T.weight u) (t' :: ts') (t :: ts))
    (hload : V.T.load (t' :: ts') < V.T.load (t :: ts))
    (hplain : V.total → V.T.Plain op (t' :: ts')) : V.Admits op (t' :: ts') :=
  .of_forall₂ hop (by rw [hn.opcode]) (hn.append_eq ▸ h) (hn.append_eq ▸ hload) hplain

/-- Operations of earlier stages may work at the types of the node. -/
theorem Shows.small (hn : V.Shows op ts t) (hu : u ∈ t :: ts) {s : Nat} (hs : s < op.stage) :
    V.Small s u :=
  .earlier (hn.append_eq ▸ hu) (hn.opcode ▸ hs)

/-- So may they at types that are no heavier. -/
theorem Shows.small_of_weight_le (hn : V.Shows op ts t) (hu : u ∈ t :: ts) {s : Nat} {u' : ValueType}
    (hs : s < op.stage) (h : V.measured → V.T.classify u ≠ .legal ∧ V.T.weight u' ≤ V.T.weight u) :
    V.Small s u' := fun hm => by
  have hle := V.charge_le (hn.append_eq ▸ hu)
  rw [hn.opcode] at hle
  exact Nat.lt_of_lt_of_le (charge_lt_of_stage hs (h hm).2 (Target.weight_pos (h hm).1)) hle

theorem Shows.small_narrower (hn : V.Shows op ts t) {u' : ValueType} (hu : u ∈ t :: ts)
    (hc : V.T.classify u ≠ .legal) (hbits : u'.bits < u.bits) : V.Small 5 u' :=
  .narrower (hn.append_eq ▸ hu) hc hbits (Nat.le_refl 5)

/-! ### The datum of the node -/

section
variable (hs : V.sem)
include hs

theorem Shows.datum_argument {index offset : Nat} (hn : V.Shows .argument [] t)
    (hattr : V.node.attr = .arg index offset) (hwithin : V.T.Within V.limit offset t) :
    ∃ s, V.args[index]? = some s ∧
      V.datum = .ofNumber t (BitString.number s.bits / 2 ^ offset) := by
  have hmeans := hn.means (by simp) hs
  rw [hattr] at hmeans
  cases hbits : V.args[index]? with
  | none =>
    simp only [Node.meaning, Eval.compute, Node.arg?, hbits] at hmeans
    cases hmeans
  | some s =>
    have hle := Nat.le_trans hwithin.le V.limit.bound_le
    refine ⟨s, rfl, ?_⟩
    rw [show (List.range ([] : List ValueType).length).map V.data = [] from rfl,
      Node.meaning_argument hbits hle] at hmeans
    exact (Except.ok.inj hmeans).symm

theorem Shows.datum_literal {bits : Nat} (hn : V.Shows op [] t)
    (hop : op = .constant ∨ op = .constantFp) (ht : t.isVector = false)
    (hattr : V.node.attr = .imm bits) : V.datum = .scalar (bits % 2 ^ t.bits) := by
  have hmeans := hn.means (by rcases hop with rfl | rfl <;> simp) hs
  rw [hattr, show (List.range ([] : List ValueType).length).map V.data = [] from rfl,
    Node.meaning_literal hop ht] at hmeans
  exact (Except.ok.inj hmeans).symm

theorem Shows.datum_undef (hn : V.Shows .undef [] t) : V.datum = .ofNumber t 0 := by
  have hmeans := hn.means (by simp) hs
  rw [show (List.range ([] : List ValueType).length).map V.data = [] from rfl,
    Node.meaning_undef] at hmeans
  exact (Except.ok.inj hmeans).symm

theorem Shows.datum_int {op : IntOp} (hn : V.Shows (.int op) [t, t] t) (ht : t.IsWord) :
    V.datum = .scalar (Word.value op t.bits (V.bitsOf 0) (V.bitsOf 1)) := by
  have h₀ : V.types[0]? = some t := hn.operandType rfl
  have h₁ : V.types[1]? = some t := hn.operandType rfl
  have hmeans := hn.means (by simp) hs
  rw [show (List.range [t, t].length).map V.data = [V.data 0, V.data 1] from rfl,
    V.data_scalar hs h₀ ht.2, V.data_scalar hs h₁ ht.2,
    Node.meaning_int ht (V.bitsOf_lt hs h₀ ht.2) (V.bitsOf_lt hs h₁ ht.2)] at hmeans
  exact (Except.ok.inj hmeans).symm

theorem Shows.datum_count {op : BitCount} (hn : V.Shows (.count op) [t] t) (ht : t.IsWord) :
    V.datum = .scalar (Word.count op t.bits (V.bitsOf 0)) := by
  have h₀ : V.types[0]? = some t := hn.operandType rfl
  have hmeans := hn.means (by simp) hs
  rw [show (List.range [t].length).map V.data = [V.data 0] from rfl,
    V.data_scalar hs h₀ ht.2, Node.meaning_count ht (V.bitsOf_lt hs h₀ ht.2)] at hmeans
  exact (Except.ok.inj hmeans).symm

theorem Shows.datum_setcc {c : Condition} (hn : V.Shows .setcc [u, u] t) (hu : u.IsWord)
    (ht : t.IsWord) (hattr : V.node.attr = .cond c) :
    V.datum = .scalar (c.test u.bits (V.bitsOf 0) (V.bitsOf 1)).toNat := by
  have h₀ : V.types[0]? = some u := hn.operandType rfl
  have h₁ : V.types[1]? = some u := hn.operandType rfl
  have hmeans := hn.means (by simp) hs
  rw [hattr, show (List.range [u, u].length).map V.data = [V.data 0, V.data 1] from rfl,
    V.data_scalar hs h₀ hu.2, V.data_scalar hs h₁ hu.2, Node.meaning_setcc ht] at hmeans
  exact (Except.ok.inj hmeans).symm

theorem Shows.datum_select (hn : V.Shows .select [c, t, t] t) (hc : c.IsWord) :
    V.datum = if V.bitsOf 0 ≠ 0 then V.data 1 else V.data 2 := by
  have h₀ : V.types[0]? = some c := hn.operandType rfl
  have hmeans := hn.means (by simp) hs
  rw [show (List.range [c, t, t].length).map V.data = [V.data 0, V.data 1, V.data 2] from rfl,
    V.data_scalar hs h₀ hc.2, Node.meaning_select] at hmeans
  exact (Except.ok.inj hmeans).symm

/-- Truncation and the extensions other than that of the sign. -/
theorem Shows.datum_cut (hn : V.Shows op [u] t)
    (hop : op = .truncate ∨ op = .zeroExtend ∨ op = .anyExtend) (hu : u.IsWord) (ht : t.IsWord) :
    V.datum = .scalar (V.bitsOf 0 % 2 ^ t.bits) := by
  have h₀ : V.types[0]? = some u := hn.operandType rfl
  have hmeans := hn.means (by rcases hop with rfl | rfl | rfl <;> simp) hs
  rw [show (List.range [u].length).map V.data = [V.data 0] from rfl,
    V.data_scalar hs h₀ hu.2, Node.meaning_cut hop ht] at hmeans
  exact (Except.ok.inj hmeans).symm

theorem Shows.datum_signExtend (hn : V.Shows .signExtend [u] t) (hu : u.IsWord) (ht : t.IsWord)
    (hut : u.bits < t.bits) : V.datum = .scalar (Word.extend u.bits t.bits (V.bitsOf 0)) := by
  have h₀ : V.types[0]? = some u := hn.operandType rfl
  have hmeans := hn.means (by simp) hs
  rw [show (List.range [u].length).map V.data = [V.data 0] from rfl,
    V.data_scalar hs h₀ hu.2,
    Node.meaning_signExtend ht hu hut (V.bitsOf_lt hs h₀ hu.2)] at hmeans
  exact (Except.ok.inj hmeans).symm

theorem Shows.datum_bitcast (hn : V.Shows .bitcast [u] t) (hbits : u.bits = t.bits) :
    V.datum = .ofNumber t ((V.data 0).number u) := by
  have hmeans := hn.means (by simp) hs
  rw [show (List.range [u].length).map V.data = [V.data 0] from rfl,
    Node.meaning_bitcast (V.data_fits hs (hn.operandType rfl)) hbits] at hmeans
  exact (Except.ok.inj hmeans).symm

theorem Shows.datum_pair (hn : V.Shows .buildPair [u, u] t) (hbits : t.bits = 2 * u.bits) :
    V.datum = .ofNumber t ((V.data 0).number u + 2 ^ u.bits * (V.data 1).number u) := by
  have h₀ : V.types[0]? = some u := hn.operandType rfl
  have h₁ : V.types[1]? = some u := hn.operandType rfl
  have hmeans := hn.means (by simp) hs
  rw [show (List.range [u, u].length).map V.data = [V.data 0, V.data 1] from rfl,
    Node.meaning_buildPair (V.data_fits hs h₀) (V.data_fits hs h₁) hbits] at hmeans
  exact (Except.ok.inj hmeans).symm

/-- Operations of one operand that work lane by lane, on a scalar. -/
theorem Shows.datum_unary {z : Nat} (hn : V.Shows op [t] t) (hop : op.isSameTypeUnary)
    (ht : t.isVector = false) (hpair : op = .fabs → t ≠ .ppcf128)
    (hz : Node.lane₁ op t (V.bitsOf 0) = .ok z) : V.datum = .scalar z := by
  have hmeans := hn.means (by rintro rfl; cases hop) hs
  rw [show (List.range [t].length).map V.data = [V.data 0] from rfl,
    V.data_scalar hs (hn.operandType rfl) ht,
    Node.meaning_lanes₁ hop (fun h => by rw [ValueType.scalar_eq_self ht]; exact hpair h),
    Node.lanewise_scalar ht hz] at hmeans
  exact (Except.ok.inj hmeans).symm

/-- Operations of two operands that work lane by lane, on scalars. -/
theorem Shows.datum_binary {z : Nat} {wide : ValueType → ValueType → Prop}
    (hn : V.Shows op [t, t] t) (hsig : Signature wide op [t, t] t)
    (hop : op.isIntBinary ∨ op.isFloatBinary) (ht : t.isVector = false)
    (hz : Node.lane₂ op t (V.bitsOf 0) (V.bitsOf 1) = .ok z) : V.datum = .scalar z := by
  have hmeans := hn.means (by rintro rfl; simp [Opcode.isIntBinary, Opcode.isFloatBinary] at hop) hs
  rw [show (List.range [t, t].length).map V.data = [V.data 0, V.data 1] from rfl,
    V.data_scalar hs (hn.operandType rfl) ht, V.data_scalar hs (hn.operandType rfl) ht,
    Node.meaning_lanes₂ hsig hop, Node.lanewise₂_scalar ht hz] at hmeans
  exact (Except.ok.inj hmeans).symm

theorem Shows.datum_extract {i : ValueType} (hn : V.Shows .extractElement [u, i] t)
    (hu : u.isVector = true) (hi : i.IsWord) :
    ∃ x, (V.lanesOf 0)[V.bitsOf 1 % 2 ^ 64]? = some x ∧ V.datum = .scalar x := by
  have hmeans := hn.means (by simp) hs
  rw [show (List.range [u, i].length).map V.data = [V.data 0, V.data 1] from rfl,
    V.data_vector hs (hn.operandType rfl) hu, V.data_scalar hs (hn.operandType rfl) hi.2] at hmeans
  cases hx : (V.lanesOf 0)[V.bitsOf 1 % 2 ^ 64]? with
  | some x =>
    rw [Node.meaning_extract hx] at hmeans
    exact ⟨x, rfl, (Except.ok.inj hmeans).symm⟩
  | none =>
    have herror : Eval.laneAt u (.vector (V.lanesOf 0)) (V.bitsOf 1) = .ok V.datum := hmeans
    rw [Eval.laneAt, Datum.lanes, Word.bound_eq, hx] at herror
    cases herror

theorem Shows.datum_buildVector (hn : V.Shows .buildVector ts t)
    (hts : ∀ e ∈ ts, e.isVector = false) : V.datum =
      .vector ((List.range ts.length).map fun j => V.bitsOf j % 2 ^ t.laneBits) := by
  have hmeans := hn.means (by simp) hs
  have hdata : (List.range ts.length).map V.data =
      ((List.range ts.length).map V.bitsOf).map .scalar := by
    rw [List.map_map]
    refine List.map_congr_left fun j hj => ?_
    have hget := List.getElem?_eq_getElem (List.mem_range.1 hj)
    exact V.data_scalar hs (hn.operandType hget) (hts _ (List.mem_of_getElem? hget))
  have hlen : V.node.operands.length = ((List.range ts.length).map V.bitsOf).length := by
    rw [V.length_operands, hn.types, List.length_map, List.length_range]
  rw [hdata, Node.meaning_buildVector hlen, List.map_map] at hmeans
  exact (Except.ok.inj hmeans).symm

theorem Shows.length_lanesOf (hn : V.Shows op ts t) (h : ts[i]? = some u) (hu : u.isVector = true) :
    (V.lanesOf i).length = u.lanes := by
  have hfits := V.data_fits hs (hn.operandType h)
  rw [V.data_vector hs (hn.operandType h) hu] at hfits
  exact (Datum.fits_vector.1 hfits).2.1

theorem Shows.datum_insert {e i : ValueType} (hn : V.Shows .insertElement [t, e, i] t)
    (ht : t.isVector = true) (he : e.isVector = false) (hi : i.IsWord) :
    V.bitsOf 2 % 2 ^ 64 < t.lanes ∧ V.datum =
      .vector ((V.lanesOf 0).set (V.bitsOf 2 % 2 ^ 64) (V.bitsOf 1 % 2 ^ t.laneBits)) := by
  have hmeans := hn.means (by simp) hs
  have h₀ : V.types[0]? = some t := hn.operandType rfl
  rw [show (List.range [t, e, i].length).map V.data = [V.data 0, V.data 1, V.data 2] from rfl,
    V.data_vector hs h₀ ht, V.data_scalar hs (hn.operandType rfl) he,
    V.data_scalar hs (hn.operandType rfl) hi.2] at hmeans
  have hlen := hn.length_lanesOf hs (i := 0) rfl ht
  by_cases hk : V.bitsOf 2 % 2 ^ 64 < (V.lanesOf 0).length
  · rw [Node.meaning_insert ht hk] at hmeans
    exact ⟨hlen ▸ hk, (Except.ok.inj hmeans).symm⟩
  · have herror : Eval.withLane t (.vector (V.lanesOf 0)) (V.bitsOf 1) (V.bitsOf 2) =
        .ok V.datum := hmeans
    cases (if_neg hk).symm.trans herror

theorem Shows.datum_concat (hn : V.Shows .concatVectors [u, u] t) (hu : u.isVector = true) :
    V.datum = .vector (V.lanesOf 0 ++ V.lanesOf 1) := by
  have hmeans := hn.means (by simp) hs
  rw [show (List.range [u, u].length).map V.data = [V.data 0, V.data 1] from rfl,
    V.data_vector hs (hn.operandType rfl) hu, V.data_vector hs (hn.operandType rfl) hu,
    Node.meaning_concat] at hmeans
  exact (Except.ok.inj hmeans).symm

theorem Shows.datum_shuffle (hn : V.Shows .vectorShuffle [u, u] t) (hu : u.isVector = true)
    (ht : t.isVector = true) {mask : List (Option Nat)} (hattr : V.node.attr = .mask mask) :
    V.datum = .vector (mask.map (Node.selected (V.lanesOf 0 ++ V.lanesOf 1))) := by
  have hmeans := hn.means (by simp) hs
  obtain ⟨_, hattr', _, hmask⟩ := hn.shuffle_mask (V.strict_of_sem hs)
  rw [hattr] at hattr'
  cases hattr'
  rw [hattr, show (List.range [u, u].length).map V.data = [V.data 0, V.data 1] from rfl,
    V.data_vector hs (hn.operandType rfl) hu, V.data_vector hs (hn.operandType rfl) hu,
    Node.meaning_shuffle ht fun k hk => ?_] at hmeans
  · exact (Except.ok.inj hmeans).symm
  · have := hmask k hk
    rw [List.length_append, hn.length_lanesOf hs (i := 0) rfl hu,
      hn.length_lanesOf hs (i := 1) rfl hu]
    omega

end

end RewriteSpec

/-! ### Parts -/

namespace RuleSpec

variable {V : RewriteSpec} {t : ValueType} {w : Value} {x y : Nat} {d e : Datum}

theorem Is.carried (hw : V.Is w (V.T.transform t) d)
    (hd : V.sem → V.Accepts (.ofNumber t (d.number (V.T.transform t)))) : V.Carried t w :=
  ⟨hw.self, fun hs => by rw [Parts.assemble, hw.val hs]; exact hd hs⟩

/-- A carrier of the bits of the datum. -/
theorem Is.carriedWord (hw : V.Is w (V.T.transform t) (.scalar y)) (ht : t.isVector = false)
    (hd : V.sem → V.Accepts (.scalar (y % 2 ^ t.bits))) : V.Carried t w :=
  hw.carried fun hs => by
    rw [Datum.number_scalar, Datum.ofNumber_word ht]
    exact hd hs

/-- The lane of a vector of one lane. -/
theorem Is.carriedLane (hw : V.Is w (V.T.transform t) (.scalar y)) (ht : t.lanes = 1)
    (hpart : V.T.transform t = t.scalar) (hd : V.sem → V.Accepts (.vector [y])) :
    V.Carried t w := by
  refine hw.carried fun hs => ?_
  have hlt := hw.lt hs
  rw [hpart, ValueType.bits_eq_laneBits t.isVector_scalar, t.laneBits_scalar] at hlt
  rw [Datum.number_scalar, Datum.ofNumber, if_pos (by simp [ValueType.isVector, ht]), ht, Word.limbs,
    Word.limbs, Nat.mod_eq_of_lt hlt]
  exact hd hs

theorem Is.paired {p : Value × Value} (hlo : V.Is p.1 (V.T.transform t) d)
    (hhi : V.Is p.2 (V.T.transform t) e)
    (hd : V.sem → V.Accepts (.ofNumber t (d.number (V.T.transform t) +
      2 ^ (V.T.transform t).bits * e.number (V.T.transform t)))) : V.Paired t p :=
  ⟨hlo.self, hhi.self, fun hs => by rw [Parts.assemble, hlo.val hs, hhi.val hs]; exact hd hs⟩

/-- Two words that make up the datum. -/
theorem Is.pairedWords {p : Value × Value} (hlo : V.Is p.1 (V.T.transform t) (.scalar x))
    (hhi : V.Is p.2 (V.T.transform t) (.scalar y)) (ht : t.isVector = false)
    (hbits : t.bits = 2 * (V.T.transform t).bits)
    (hd : V.sem → V.Accepts (.scalar (x + 2 ^ (V.T.transform t).bits * y))) : V.Paired t p := by
  refine hlo.paired hhi fun hs => ?_
  have hlt : x + 2 ^ (V.T.transform t).bits * y < 2 ^ t.bits := by
    have := Nat.mul_le_mul_left (2 ^ (V.T.transform t).bits) (hhi.lt hs)
    have := hlo.lt hs
    rw [Nat.mul_succ] at *
    rw [hbits, Nat.two_mul, Nat.pow_add]
    omega
  rw [Datum.number_scalar, Datum.number_scalar, Datum.ofNumber_word ht, Nat.mod_eq_of_lt hlt]
  exact hd hs

/-- Two vectors that make up the datum. -/
theorem Is.pairedLanes {p : Value × Value} {l m : List Nat} (hhalf : t.half? = some (V.T.transform t))
    (hlo : V.Is p.1 (V.T.transform t) (.vector l)) (hhi : V.Is p.2 (V.T.transform t) (.vector m))
    (hd : V.sem → V.Accepts (.vector (l ++ m))) : V.Paired t p := by
  refine hlo.paired hhi fun hs => ?_
  rw [Datum.ofNumber_halves hhalf (hlo.fits hs) (hhi.fits hs)]
  exact hd hs

theorem Is.stands (hw : V.Is w t d) (hd : V.sem → V.Accepts d) : V.Stands t w :=
  ⟨hw.self, fun hs => by rw [hw.val hs]; exact hd hs⟩

end RuleSpec

/-! ### Lists -/

namespace RuleSpec.Meets

section
variable {V : RuleSpec} {t u : ValueType} {v : Value}

/-- Results of a list of edits, by position. -/
theorem mapM {α β : Type} {f : α → Edit β} {as : List α} {S : β → Nat → Prop}
    (hf : ∀ j a, as[j]? = some a → V.Meets (f a) fun b => S b j) :
    V.Meets (as.mapM f) fun bs => bs.length = as.length ∧ ∀ j b, bs[j]? = some b → S b j := by
  induction as generalizing S with
  | nil => exact .pure ⟨rfl, by simp⟩
  | cons a as ih =>
    rw [List.mapM_cons]
    refine .bind (hf 0 a rfl) fun b hb => ?_
    refine .bind (ih (S := fun b j => S b (j + 1)) fun j a' h => hf (j + 1) a' h) fun bs hbs => ?_
    refine .pure ⟨by simp [hbs.1], fun j b' hb' => ?_⟩
    cases j with
    | zero =>
      cases hb'
      exact hb
    | succ j => exact hbs.2 j b' hb'

/-- Results of a list of edits, one for each element. -/
theorem mapM_forall₂ {α β : Type} {f : α → Edit β} {as : List α} {R : β → α → Prop}
    (hf : ∀ a ∈ as, V.Meets (f a) (R · a)) : V.Meets (as.mapM f) (List.Forall₂ R · as) := by
  induction as with
  | nil => exact .pure .nil
  | cons a as ih =>
    rw [List.mapM_cons]
    refine .bind (hf a List.mem_cons_self) fun b hb => ?_
    exact .bind (ih fun a' ha' => hf a' (List.mem_cons_of_mem a ha')) fun bs hbs =>
      .pure (.cons hb hbs)

/-- Lanes at constant indices. -/
theorem readLanes {l : List Nat} (hu : u.isVector = true)
    (hadmits : V.Admits .extractElement [u.scalar, u, V.T.indexType]) (h : V.Is v u (.vector l))
    {ks : List Nat} (hks : ∀ k ∈ ks, k < u.lanes) : V.Meets (ks.mapM (Edit.extractLane V.T v))
      (List.Forall₂ (fun w k => V.Is w u.scalar (.scalar (l[k]?.getD 0))) · ks) := by
  refine mapM_forall₂ fun k hk => .extractLane hu hadmits h (fun _ => hks k hk) fun hs => ?_
  have hlen := (Datum.fits_vector.1 (h.fits hs)).2.1
  rw [List.getElem?_eq_getElem (hlen ▸ hks k hk), Option.getD_some]

/-- A vector of elements of the lane type. -/
theorem buildElements (ht : t.isVector = true) {vs : List Value} {xs : List Nat}
    (h : List.Forall₂ (fun v x => V.Is v t.scalar (.scalar x)) vs xs) (hlen : xs.length = t.lanes)
    (htotal : ¬ V.total) (hsmall : V.Small 0 t ∧ V.Small 0 t.scalar) :
    V.Meets (Edit.buildVector vs t) fun v => V.Is v t (.vector xs) := by
  have hmem (w : Value) (hw : w ∈ vs) : ∃ x, V.Is w t.scalar (.scalar x) := by
    clear hlen
    induction h with
    | nil => cases hw
    | cons hx _ ih =>
      rcases List.mem_cons.1 hw with rfl | hw
      · exact ⟨_, hx⟩
      · exact ih hw
  refine (buildVector ht (fun w hw => ?_) (h.length_eq.trans hlen) fun es hes _ => ?_).mono
    fun w hw => hw.congr fun hs => ?_
  · obtain ⟨x, hx⟩ := hmem w hw
    exact ⟨_, x, hx, .inl (.inl rfl)⟩
  · refine .of_small (by simp) (fun e he => ?_) fun h => absurd h htotal
    rcases List.mem_cons.1 he with rfl | he
    · exact hsmall.1
    · have hsome : some e ∈ vs.map V.final.typeOf? := hes ▸ List.mem_map_of_mem he
      obtain ⟨w, hw, htype⟩ := List.mem_map.1 hsome
      obtain ⟨x, hx⟩ := hmem w hw
      rw [hx.type] at htype
      cases htype
      exact hsmall.2
  · congr 1
    clear hlen hmem hw
    induction h with
    | nil => rfl
    | cons hx _ ih =>
      have hlt := hx.lt hs
      rw [ValueType.bits_eq_laneBits t.isVector_scalar, t.laneBits_scalar] at hlt
      rw [List.map_cons, ih, hx.wordAt hs, Nat.mod_eq_of_lt hlt]

end

variable {V : RewriteSpec} {op : Opcode} {ts : List ValueType} {t : ValueType} {v : Value} {x : Nat}

/-- The canonical operands, by position. -/
theorem operands (V : RewriteSpec) : V.Meets (Edit.operands V.id) fun ws =>
    ws.length = V.types.length ∧ ∀ j w, ws[j]? = some w →
      V.Source w ∧ ∃ t, V.types[j]? = some t ∧ V.Is w t (V.data j) := by
  refine .bind (.node V.node_final) ?_
  rintro _ rfl
  rw [← V.length_operands]
  refine .mapM fun j v hv => ?_
  have hj : j < V.types.length := V.length_operands ▸ (List.getElem?_eq_some_iff.1 hv).1
  have ht := List.getElem?_eq_getElem hj
  obtain ⟨v', hv', his⟩ := V.operand_at ht
  rw [hv] at hv'
  cases hv'
  refine (Meets.canonical v).mono ?_
  rintro _ rfl
  exact ⟨⟨v, List.mem_of_getElem? hv, rfl⟩, _, ht, his⟩

/-! ### Attributes -/

theorem argumentPosition (hn : V.Shows .argument ts t) :
    V.Meets (Edit.argumentPosition V.id) fun p =>
      V.node.attr = .arg p.1 p.2 ∧ (V.strict → V.T.Within V.limit p.2 t) ∧
        (V.limit.moderate → V.T.classify t ≠ .legal → p.2 + t.bits ≤ 2 ^ 32) := by
  refine .bind (.node V.node_final) ?_
  rintro _ rfl
  have hattr (hs : V.strict) : ∃ index offset, V.node.attr = .arg index offset ∧
      V.T.Within V.limit offset t := by
    have := hn.attributed hs (by simp)
    unfold Node.Attributed at this
    rwa [hn.opcode, hn.results] at this
  unfold Node.arg?
  split
  · next slot hslot =>
    split at hslot
    · next index offset heq =>
      cases hslot
      refine .pure ⟨heq, fun hs => ?_, fun hl =>
        (V.moderate hl).argument t index offset hn.opcode hn.results heq⟩
      obtain ⟨_, _, heq', hwithin⟩ := hattr hs
      rw [heq] at heq'
      cases heq'
      exact hwithin
    · cases hslot
  · next hnone =>
    refine .obstacle _ fun ht => ?_
    obtain ⟨index, offset, heq, _⟩ := hattr (V.strict_of_total ht)
    rw [heq] at hnone
    cases hnone

theorem immediate (hn : V.Shows op ts t) (hop : op = .constant ∨ op = .constantFp) :
    V.Meets (Edit.immediate V.id) fun bits =>
      V.node.attr = .imm bits ∧ (V.strict → bits < 2 ^ t.laneBits) := by
  refine .bind (.node V.node_final) ?_
  rintro _ rfl
  have hattr (hs : V.strict) : ∃ bits, V.node.attr = .imm bits ∧ bits < 2 ^ t.laneBits := by
    have := hn.attributed hs (by rcases hop with rfl | rfl <;> simp)
    unfold Node.Attributed at this
    rcases hop with rfl | rfl <;> rwa [hn.opcode, hn.results] at this
  unfold Node.imm?
  split
  · next bits hbits =>
    split at hbits
    · next bits' heq =>
      cases hbits
      refine .pure ⟨heq, fun hs => ?_⟩
      obtain ⟨_, heq', hlt⟩ := hattr hs
      rw [heq] at heq'
      cases heq'
      exact hlt
    · cases hbits
  · next hnone =>
    refine .obstacle _ fun ht => ?_
    obtain ⟨bits, heq, _⟩ := hattr (V.strict_of_total ht)
    rw [heq] at hnone
    cases hnone

theorem predicate (hn : V.Shows .setcc ts t) :
    V.Meets (Edit.predicate V.id) fun c => V.node.attr = .cond c := by
  refine .bind (.node V.node_final) ?_
  rintro _ rfl
  unfold Node.cond?
  split
  · next c hc =>
    split at hc
    · next c' heq =>
      cases hc
      exact .pure heq
    · cases hc
  · next hnone =>
    refine .obstacle _ fun ht => ?_
    have hattr := hn.attributed (V.strict_of_total ht) (by simp)
    unfold Node.Attributed at hattr
    rw [hn.opcode] at hattr
    obtain ⟨c, heq⟩ := hattr
    rw [heq] at hnone
    cases hnone

theorem bit {n : Nat} (h : n < 128) : V.Meets (Edit.bit n) (· = 2 ^ n) := by
  rw [Edit.bit, if_pos (show n < Word.maxBits from h)]
  exact .pure (Nat.one_shiftLeft n)

theorem shiftedRight {n : Nat} (a : Nat) (h : n < 128) :
    V.Meets (Edit.shiftedRight a n) (· = a / 2 ^ n) := by
  rw [Edit.shiftedRight, if_pos (show n < Word.maxBits from h)]
  exact .pure (Nat.shiftRight_eq_div_pow a n)

/-- Positions within the bounds of the argument are in range. -/
theorem position {n : Nat} (h : V.strict → n < 2 ^ 32)
    (hover : 2 ^ 32 ≤ n → V.base.replaced.Overflows V.T V.final V.node) :
    V.Meets (Edit.position n) (· = n) := by
  unfold Edit.position
  split
  · exact .pure rfl
  · next hn =>
    exact .overflow (hover (Nat.le_of_not_lt hn)) fun ht => hn (h (V.strict_of_total ht))

/-- The bits of a constant are its datum. -/
theorem constant? (h : V.Is v t (.scalar x)) (ht : t.isVector = false) :
    V.Meets (Edit.constant? v) fun r => ∀ k, r = some k → (V.sem → V.numbered → x = k) ∧
      ∃ n, V.final.nodes[v.node]? = some n ∧ n.opcode = .constant ∧ n.attr = .imm k := by
  have htype := h.type
  unfold Graph.typeOf? at htype
  obtain ⟨n, hn, _⟩ := Option.bind_eq_some_iff.1 htype
  refine .bind (.node hn) ?_
  rintro _ rfl
  refine .pure fun k hk => ?_
  split at hk
  · next hop =>
    unfold Node.imm? at hk
    split at hk
    · next bits hattr =>
      cases hk
      refine ⟨fun hs hnumbered => ?_, _, hn, hop, hattr⟩
      have hval := V.constants hs hnumbered v _ t _ hn hop hattr h.type ht
      rw [h.val hs] at hval
      exact Datum.scalar.inj hval
    · cases hk
  · cases hk

end RuleSpec.Meets

end Legal

end Dataflow
