import Dataflow.Legal.Rules
import Dataflow.Proofs.IsolatedRun
import Dataflow.Proofs.Rules.Halve.Counts
import Dataflow.Proofs.Rules.Halve.LongDivision

/-!
# Arithmetic of wide integers

Rules for integers in two halves, on their own: whatever words the halves of the operands are, the
nodes that a rule adds evaluate to the halves of the result.
-/

namespace Dataflow

namespace Word

variable {op : IntOp} {n x k : Nat}

/-- A zero has as many zeros on either side as its type has bits. -/
theorem count_zero {op : BitCount} (hop : op ≠ .ones) (n : Nat) : count op n 0 = n := by
  cases op with
  | ones => exact absurd rfl hop
  | leadingZeros => rfl
  | trailingZeros =>
    rw [count, trailingZeros, List.takeWhile_eq_self_iff.2 (by simp), List.length_range]

/-- Twice the width of a half is a width that operations have. -/
theorem double_width (hn : 8 ≤ n ∧ n ≤ 64) {t : ValueType} (ht : t.IsWord) (hbits : t.bits = n) :
    2 * n ≤ 64 ∨ 2 * n = 128 := by
  rcases ht.bits_cases with h | h | h | h | h | h <;> omega

end Word

namespace Legal

variable {T : Target} {d : Draft} {args : Array BitString} {values : Values} {half : ValueType}
  {op : IntOp} {id : NodeId} {u v lo hi : Value} {a b x y k : Nat}

/-- The integer halves of a value are at hand. -/
structure Draft.HoldsHalves (d : Draft) (values : Values) (v : Value) (half : ValueType)
    (a b : Nat) : Prop where
  parts : ∃ lo hi, d.conversions.get? (d.replaced.canon v) = some ⟨.expandedInteger, .two lo hi⟩ ∧
    d.Holds values lo half a ∧ d.Holds values hi half b

theorem Draft.HoldsHalves.lt (h : d.HoldsHalves values v half a b) :
    a + 2 ^ half.bits * b < 2 ^ (2 * half.bits) := by
  obtain ⟨_, _, _, hlo, hhi⟩ := h
  exact Word.halves_lt hlo.lt hhi.lt

/-- The ways in which a shift amount is at hand: in halves, as a word that is legal, or as a word
that was promoted, with any bits above its width. Words are no wider than the halves. -/
inductive Draft.HoldsAmount (d : Draft) (T : Target) (values : Values) (half : ValueType)
    (v : Value) : Nat → Prop
  | pair {t : ValueType} {a b : Nat} : d.graph.typeOf? (d.replaced.canon v) = some t →
    T.classify t = .expandInteger → d.HoldsHalves values v half a b →
    HoldsAmount d T values half v (a + 2 ^ half.bits * b)
  | legal {t : ValueType} {x : Nat} : T.classify t = .legal → t.IsWord → t.bits ≤ half.bits →
    d.Holds values v t x → HoldsAmount d T values half v x
  | promoted {t u : ValueType} {w : Value} {x : Nat} :
    d.graph.typeOf? (d.replaced.canon v) = some t → T.classify t = .promoteInteger → t.IsWord →
    d.conversions.get? (d.replaced.canon v) = some ⟨.promoted, .one w⟩ → u.IsWord →
    u.bits ≤ half.bits → d.Holds values w u x → HoldsAmount d T values half v (x % 2 ^ t.bits)

/-- From draft `d`, the edit returns two values of type `half`; evaluating the nodes that it adds
gives them the data `x` and `y`. -/
def Draft.Evaluates (d : Draft) (args : Array BitString) (values : Values)
    (e : Edit (Value × Value)) (half : ValueType) (x y : Nat) : Prop :=
  ∃ p d' values', e.run d = .ok p d' ∧ d'.graph.evaluateFrom args values = .ok values' ∧
    d'.Holds values' p.1 half x ∧ d'.Holds values' p.2 half y

namespace IsolatedRun

/-- Halves of a number, in every isolated run. -/
theorem evaluates {e : Edit (Value × Value)} {z : Nat} (hd : d.Traceable)
    (hsize : values.size = d.graph.size)
    (h : ∀ B : IsolatedRun, B.Starts d args values →
      B.words.Meets e fun p => B.words.IsPair half p z) :
    d.Evaluates args values e half (z % 2 ^ half.bits) (z / 2 ^ half.bits) := by
  obtain ⟨B, p, d', values', hrun, heval, hends, x, y, hx, hy, hxy⟩ := exists_run hd hsize h
  have hz := hxy trivial
  have hxlt : x < 2 ^ half.bits := hx.lt
  refine ⟨p, d', values', hrun, heval, ?_, ?_⟩
  · rw [hz, Word.mod_half hxlt]
    exact hends.holds hx
  · rw [hz, Word.div_half hxlt]
    exact hends.holds hy

variable {B : IsolatedRun}

theorem Starts.halves (h : B.Starts d args values) (hv : d.HoldsHalves values v half a b) :
    B.Meets (Edit.halves (d.replaced.canon v)) fun p =>
      B.words.IsPair half p (a + 2 ^ half.bits * b) := by
  obtain ⟨lo, hi, hget, hlo, hhi⟩ := hv
  refine (h.two hget).mono ?_
  rintro _ rfl
  exact ⟨a, b, h.is hlo, h.is hhi, fun _ => rfl⟩

/-- The halves of the first operand of a node. -/
theorem Starts.operand {n : Node} (h : B.Starts d args values)
    (hn : d.graph.nodes[id]? = some n) (hop : n.operands[0]? = some u)
    (hu : d.HoldsHalves values u half a b) :
    B.words.Operand half id (a + 2 ^ half.bits * b) := by
  have hn : B.final.nodes[id]? = some n := B.grown.getElem? (h.base ▸ hn)
  have hu := h.halves hu
  rw [← h.base] at hu
  refine .bind (EditSpec.Meets.operand (C := B.editSpec) hn hop) ?_
  rintro _ rfl
  exact hu

/-- The halves of the two operands of a node. -/
theorem Starts.operands {n : Node} {c e : Nat} (h : B.Starts d args values)
    (hn : d.graph.nodes[id]? = some n) (hops : n.operands = [u, v])
    (hu : d.HoldsHalves values u half a b) (hv : d.HoldsHalves values v half c e) :
    B.words.Operands half id (a + 2 ^ half.bits * b) (c + 2 ^ half.bits * e) := by
  have hn : B.final.nodes[id]? = some n := B.grown.getElem? (h.base ▸ hn)
  have hu := h.halves hu
  have hv := h.halves hv
  rw [← h.base] at hu hv
  refine .bind (EditSpec.Meets.operand (C := B.editSpec) (i := 0) hn (by rw [hops]; rfl)) ?_
  rintro _ rfl
  refine .bind (EditSpec.Meets.operand (C := B.editSpec) (i := 1) hn (by rw [hops]; rfl)) ?_
  rintro _ rfl
  exact .bind hu fun p hp => .bind hv fun q hq => .pure ⟨hp, hq⟩

theorem Starts.resultType {n : Node} {t : ValueType} {slot : Nat} (h : B.Starts d args values)
    (hn : d.graph.nodes[id]? = some n) (hslot : n.results[slot]? = some t) :
    B.Meets (Edit.resultType id slot) (t = ·) := by
  refine .bind (EditSpec.Meets.node (C := B.editSpec) (B.grown.getElem? (h.base ▸ hn))) ?_
  rintro _ rfl
  rw [hslot]
  exact .pure rfl

theorem Starts.predicate {n : Node} {c : Condition} (h : B.Starts d args values)
    (hn : d.graph.nodes[id]? = some n) (hattr : n.cond? = some c) :
    B.Meets (Edit.predicate id) (c = ·) := by
  refine .bind (EditSpec.Meets.node (C := B.editSpec) (B.grown.getElem? (h.base ▸ hn))) ?_
  rintro _ rfl
  rw [hattr]
  exact .pure rfl

/-- A word that is no wider than the halves. -/
theorem resize_amount {t : ValueType} (hhalf : half.IsWord) (ht : t.IsWord)
    (hle : t.bits ≤ half.bits) (h : B.Is v t x) :
    B.Meets (do return (← Edit.resize .zero v half, none)) (B.words.IsAmount half x) := by
  refine .bind (WordLogic.resize (L := B.words) (x := x) .zero ht hhalf t.bits_pos (Nat.le_refl _)
    hle h fun _ => ⟨h.lt, rfl⟩) ?_
  rintro w ⟨z, hw, hz⟩
  exact .pure ⟨z, 0, hw, by simp, fun _ => rfl, fun hs => (hz hs).symm⟩

theorem Starts.amountParts (h : B.Starts d args values) (hhalf : half.IsWord)
    (hk : d.HoldsAmount T values half v k) :
    B.Meets (Halve.amountParts T id (d.replaced.canon v) half) (B.words.IsAmount half k) := by
  cases hk with
  | @pair t a b ht hc hv =>
    refine .typeOf_bind (h.typeOf? ht) ?_
    rw [hc]
    refine .bind (h.halves hv) ?_
    rintro ⟨low, high⟩ ⟨x, y, hx, hy, hxy⟩
    have hx : B.Is low half x := hx
    refine .typeOf_bind hx.type ?_
    rw [if_neg (not_not.2 rfl)]
    refine .pure ⟨x, y, hx, ?_, fun h => ?_, hxy⟩
    · rintro _ ⟨⟩
      exact hy
    · cases h
  | @legal t x hc hword hle hv =>
    refine .typeOf_bind (h.is hv).type ?_
    rw [hc]
    dsimp only
    rw [if_neg (Nat.not_lt_of_le hle)]
    exact resize_amount hhalf hword hle (h.is hv)
  | @promoted t u w x ht hc hword hget hu hle hw =>
    refine .typeOf_bind (h.typeOf? ht) ?_
    rw [hc]
    have hcarrier : B.Meets (Edit.zeroExtended (d.replaced.canon v)) fun c =>
        B.Is c u (x % 2 ^ t.bits) := by
      refine .typeOf_bind (h.typeOf? ht) (.bind (h.one hget) ?_)
      rintro _ rfl
      exact WordLogic.clearAbove (L := B.words) (s := 0) hu hword (h.is hw)
    refine .bind hcarrier fun c hc => .typeOf_bind hc.type ?_
    rw [if_neg (Nat.not_lt_of_le hle)]
    exact resize_amount hhalf hu hle hc

end IsolatedRun

/-! ### Sums and products -/

/-- Sums, differences and products of two wide integers are exact, whatever the target: the rule
for the operation gives the halves of the result. -/
theorem Halve.arithmetic_exact {results : List ValueType} {attr : Attr} {c e slot : Nat}
    (hhalf : half.IsWord) (hbits : 8 ≤ half.bits ∧ half.bits ≤ 64)
    (hflag : (T.compareType half).IsWord)
    (hop : op = .add ∨ op = .sub ∨ op = .mul ∨ op = .mulhu) (hd : d.Traceable)
    (hsize : values.size = d.graph.size)
    (hn : d.graph.nodes[id]? = some ⟨.int op, [u, v], results, attr⟩)
    (hu : d.HoldsHalves values u half a b) (hv : d.HoldsHalves values v half c e) :
    ∃ rule x y, Halve.result? (.int op) = some rule ∧
      d.Evaluates args values (rule T id slot) half x y ∧
      Word.binary op (2 * half.bits) (a + 2 ^ half.bits * b) (c + 2 ^ half.bits * e) =
        .ok (x + 2 ^ half.bits * y) ∧
      (op = .mulhu → x + 2 ^ half.bits * y =
        (a + 2 ^ half.bits * b) * (c + 2 ^ half.bits * e) / 2 ^ (2 * half.bits)) := by
  have hx : a + 2 ^ half.bits * b < 2 ^ (2 * half.bits) := hu.lt
  have hy : c + 2 ^ half.bits * e < 2 ^ (2 * half.bits) := hv.lt
  generalize hX : a + 2 ^ half.bits * b = X at hx
  generalize hY : c + 2 ^ half.bits * e = Y at hy
  have hwide (rule : Target → NodeId → Nat → Edit (Value × Value))
      (hrule : Halve.result? (.int op) = some rule)
      (h : ∀ B : IsolatedRun, B.words.Operands half id X Y →
        B.words.Meets (rule T id slot) fun p =>
          B.words.IsPair half p (Word.value op (2 * half.bits) X Y)) :
      ∃ rule x y, Halve.result? (.int op) = some rule ∧
        d.Evaluates args values (rule T id slot) half x y ∧
        Word.binary op (2 * half.bits) X Y = .ok (x + 2 ^ half.bits * y) ∧
        (op = .mulhu → x + 2 ^ half.bits * y = X * Y / 2 ^ (2 * half.bits)) := by
    refine ⟨rule, _, _, hrule, IsolatedRun.evaluates hd hsize fun B hB =>
      h B (hX ▸ hY ▸ hB.operands hn rfl hu hv), ?_, ?_⟩
    · rw [Nat.mod_add_div, Word.binary_eq op (by omega) (Word.double_width hbits hhalf rfl) hx hy]
    · rintro rfl
      rw [Nat.mod_add_div]
      rfl
  rcases hop with rfl | rfl | rfl | rfl
  · exact hwide _ rfl fun B hB => WordLogic.meets_ofAdd (L := B.words) hhalf hflag hB
  · exact hwide _ rfl fun B hB => WordLogic.meets_ofSub (L := B.words) hhalf hflag hB
  · exact hwide _ rfl fun B hB => WordLogic.meets_ofMul (L := B.words) hhalf trivial hB
  · exact hwide _ rfl fun B hB =>
      WordLogic.meets_ofMulHigh (L := B.words) hhalf hflag trivial hbits.1 hB

/-- A machine of bytes. -/
def byteTarget : Target where
  name := "bytes"
  action t := if t = .i16 then .expand else .legal
  transform t := if t = .i16 then .i8 else t
  compareType _ := .i8
  indexType := .i8

/-- A value of two bytes, multiplied by itself. -/
def squareDraft : Draft where
  graph := (((Graph.empty.push { opcode := .argument, results := [.i8], attr := .arg 0 0 }).push
    { opcode := .argument, results := [.i8], attr := .arg 0 8 }).push
    { opcode := .buildPair, operands := [⟨0, 0⟩, ⟨1, 0⟩], results := [.i16] }).push
    { opcode := .int .mulhu, operands := [⟨2, 0⟩, ⟨2, 0⟩], results := [.i16] }
  conversions := .ofList [(⟨2, 0⟩, ⟨.expandedInteger, .two ⟨0, 0⟩ ⟨1, 0⟩⟩)]

theorem traceable_squareDraft : squareDraft.Traceable :=
  ⟨⟨id, fun _ _ h => by cases h⟩, fun _ _ h => by cases h⟩

theorem holdsHalves_squareDraft {a b : Nat} (ha : a < 2 ^ 8) (hb : b < 2 ^ 8) :
    squareDraft.HoldsHalves #[some (.scalar a), some (.scalar b), none, none] ⟨2, 0⟩ .i8 a b :=
  ⟨⟨0, 0⟩, ⟨1, 0⟩, rfl, ⟨rfl, rfl, Datum.fits_scalar.2 ⟨rfl, ha⟩⟩,
    ⟨rfl, rfl, Datum.fits_scalar.2 ⟨rfl, hb⟩⟩⟩

/-- The high half of the square of the greatest value of two bytes: every column carries. -/
theorem Halve.arithmetic_exact_square : ∃ rule x y, Halve.result? (.int .mulhu) = some rule ∧
    squareDraft.Evaluates #[] #[some (.scalar 255), some (.scalar 255), none, none]
      (rule byteTarget 3 0) .i8 x y ∧ x + 2 ^ 8 * y = 65534 := by
  have hhalves := holdsHalves_squareDraft (a := 255) (b := 255) (by decide) (by decide)
  obtain ⟨rule, x, y, hrule, heval, _, hvalue⟩ :=
    @Halve.arithmetic_exact byteTarget squareDraft #[] _ .i8 .mulhu 3 _ _ _ _ _ _ _ _ 0 (by decide)
      (by decide) (by decide) (by simp) traceable_squareDraft rfl rfl hhalves hhalves
  exact ⟨rule, x, y, hrule, heval, hvalue rfl⟩

/-! ### Shifts -/

/-- Shifts of a wide integer are exact for every amount, and the same whether the amount is known
beforehand or only when the graph is evaluated. -/
theorem Halve.shift_exact (hhalf : half.IsWord) (hbits : 8 ≤ half.bits ∧ half.bits ≤ 64)
    (hflag : (T.compareType half).IsWord) (hop : op = .shl ∨ op = .srl ∨ op = .sra)
    (hd : d.Traceable) (hsize : values.size = d.graph.size) (hlo : d.Holds values lo half a)
    (hhi : d.Holds values hi half b) (k : Nat) :
    ∃ x y, Word.binary op (2 * half.bits) (a + 2 ^ half.bits * b) k =
        .ok (x + 2 ^ half.bits * y) ∧
      d.Evaluates args values (Halve.constantShift (.int op) (d.replaced.canon lo)
        (d.replaced.canon hi) k) half x y ∧
      ∀ amount, d.HoldsAmount T values half amount k →
        d.Evaluates args values (Halve.variableShift T id (.int op) (d.replaced.canon lo)
          (d.replaced.canon hi) (d.replaced.canon amount)) half x y := by
  have hlt := Word.halves_lt hlo.lt hhi.lt
  let z := Word.value op (2 * half.bits) (a + 2 ^ half.bits * b) k
  refine ⟨z % 2 ^ half.bits, z / 2 ^ half.bits, ?_, IsolatedRun.evaluates hd hsize fun B hB => ?_,
    fun amount hk => IsolatedRun.evaluates hd hsize fun B hB => ?_⟩
  · rw [Nat.mod_add_div, Word.binary_shift hop (by omega) (Word.double_width hbits hhalf rfl) hlt]
  · exact WordLogic.meets_constantShift (L := B.words) hhalf (hB.is hlo) (hB.is hhi) hop k
  · exact WordLogic.meets_variableShift (L := B.words) hhalf hflag hbits.1 hop (hB.is hlo)
      (hB.is hhi) (hB.amountParts hhalf hk)

/-- An amount of which only the high part is set moves every bit out. -/
theorem Halve.shift_exact_highPart : ∃ x y, x + 2 ^ 8 * y = 0 ∧
    squareDraft.Evaluates #[] #[some (.scalar 0), some (.scalar 1), none, none]
      (Halve.variableShift byteTarget 3 (.int .shl) ⟨0, 0⟩ ⟨1, 0⟩ ⟨2, 0⟩) .i8 x y := by
  have hhalves := holdsHalves_squareDraft (a := 0) (b := 1) (by decide) (by decide)
  obtain ⟨x, y, hvalue, _, hvariable⟩ :=
    @Halve.shift_exact byteTarget squareDraft #[] #[some (.scalar 0), some (.scalar 1), none, none] .i8
      .shl 3 ⟨0, 0⟩ ⟨1, 0⟩ 0 1 (by decide) (by decide) (by decide) (by simp) traceable_squareDraft rfl
      ⟨rfl, rfl, Datum.fits_scalar.2 (by decide)⟩ ⟨rfl, rfl, Datum.fits_scalar.2 (by decide)⟩ 256
  exact ⟨x, y, (Except.ok.inj hvalue).symm, hvariable ⟨2, 0⟩ (.pair rfl rfl hhalves)⟩

/-! ### Quotients -/

/-- The operands of a division node in an isolated run. -/
theorem IsolatedRun.Starts.divides {B : IsolatedRun} {results : List ValueType} {attr : Attr}
    {t : ValueType}
    {slot : Nat} (h : B.Starts d args values) (hflag : (T.compareType t).IsWord)
    (hhalf : (T.transform t).IsWord) (hbits : t.bits = 2 * (T.transform t).bits)
    (hn₀ : d.graph.nodes[id]? = some ⟨.int op, [u, v], results, attr⟩)
    (hslot : results[slot]? = some t) (hu : d.Holds values u t a) (hv : d.Holds values v t b) :
    B.words.Divides T id slot t a b := by
  have hn : B.final.nodes[id]? = some ⟨.int op, [u, v], results, attr⟩ :=
    B.grown.getElem? (h.base ▸ hn₀)
  have hoperand (i : Nat) (w : Value) (c : Nat) (hi : [u, v][i]? = some w)
      (hw : d.Holds values w t c) :
      B.words.Meets (Edit.operand id i) fun w => B.words.Is w t c := by
    refine (EditSpec.Meets.operand (C := B.editSpec) hn hi).mono ?_
    rintro _ rfl
    have his := h.is hw
    rw [← h.base] at his
    exact his
  exact ⟨h.resultType hn₀ hslot, hoperand 0 u a rfl hu, hoperand 1 v b rfl hv, hflag, hhalf, hbits⟩

/-- Division of wide integers is exact, whatever the target, also by zero. The nodes of the long
division evaluate to the quotient; the rules for both divisions give the halves of the result. -/
theorem Halve.division_exact {t : ValueType} (ht : t.IsWord) (hflag : (T.compareType t).IsWord)
    (hd : d.Traceable) (hsize : values.size = d.graph.size) (hu : d.Holds values u t a)
    (hv : d.Holds values v t b) :
    (∃ w d' values', (Halve.unsignedQuotient T (d.replaced.canon u) (d.replaced.canon v)).run d =
        .ok w d' ∧ d'.graph.evaluateFrom args values = .ok values' ∧
      d'.Holds values' w t (if b = 0 then 2 ^ t.bits - 1 else a / b)) ∧
    ∀ op id slot results attr, op = .udiv ∨ op = .sdiv → (T.transform t).IsWord →
      t.bits = 2 * (T.transform t).bits →
      d.graph.nodes[id]? = some ⟨.int op, [u, v], results, attr⟩ → results[slot]? = some t →
      ∃ rule x y, Halve.result? (.int op) = some rule ∧
        d.Evaluates args values (rule T id slot) (T.transform t) x y ∧
        Word.binary op t.bits a b = .ok (x + 2 ^ (T.transform t).bits * y) := by
  refine ⟨?_, fun op id slot results attr hop hhalf hbits hn hslot => ?_⟩
  · obtain ⟨B, w, d', values', hrun, heval, hends, hw⟩ := IsolatedRun.exists_run hd hsize
      fun B (hB : B.Starts d args values) =>
        WordLogic.meets_unsignedQuotient (L := B.words) ht hflag (hB.is hu) (hB.is hv)
    exact ⟨w, d', values', hrun, heval, hends.holds hw⟩
  · have hdivides (B : IsolatedRun) (hB : B.Starts d args values) :
        B.words.Divides T id slot t a b :=
      hB.divides hflag hhalf hbits hn hslot hu hv
    have hwide : t.bits ≤ 64 ∨ t.bits = 128 := by
      rcases ht.bits_cases with h | h | h | h | h | h <;> omega
    have hbinary := Word.binary_eq op t.bits_pos hwide hu.lt hv.lt
    rw [← Nat.mod_add_div (Word.value op t.bits a b) (2 ^ (T.transform t).bits)] at hbinary
    rcases hop with rfl | rfl
    · exact ⟨_, _, _, rfl, IsolatedRun.evaluates hd hsize fun B hB =>
        WordLogic.meets_ofUnsignedDiv (hdivides B hB) ht, hbinary⟩
    · exact ⟨_, _, _, rfl, IsolatedRun.evaluates hd hsize fun B hB =>
        WordLogic.meets_ofSignedDiv (hdivides B hB) ht, hbinary⟩

/-- Two values of two bytes and their signed quotient. -/
def quotientDraft : Draft where
  graph := ((Graph.empty.push { opcode := .argument, results := [.i16], attr := .arg 0 0 }).push
    { opcode := .argument, results := [.i16], attr := .arg 0 16 }).push
    { opcode := .int .sdiv, operands := [⟨0, 0⟩, ⟨1, 0⟩], results := [.i16] }

theorem traceable_quotientDraft : quotientDraft.Traceable :=
  ⟨⟨id, fun _ _ h => by cases h⟩, fun _ _ h => by cases h⟩

/-- The least value of two bytes divided by minus one: the quotient does not fit and wraps. -/
theorem Halve.division_exact_least : ∃ rule x y, Halve.result? (.int .sdiv) = some rule ∧
    quotientDraft.Evaluates #[] #[some (.scalar 32768), some (.scalar 65535), none]
      (rule byteTarget 2 0) .i8 x y ∧ x + 2 ^ 8 * y = 32768 := by
  obtain ⟨rule, x, y, hrule, heval, hvalue⟩ :=
    (@Halve.division_exact byteTarget quotientDraft #[]
      #[some (.scalar 32768), some (.scalar 65535), none] ⟨0, 0⟩ ⟨1, 0⟩ 32768 65535 .i16 (by decide)
      (by decide) traceable_quotientDraft rfl ⟨rfl, rfl, Datum.fits_scalar.2 (by decide)⟩
      ⟨rfl, rfl, Datum.fits_scalar.2 (by decide)⟩).2
      .sdiv 2 0 [.i16] .none (.inr rfl) (by decide) (by decide) rfl rfl
  exact ⟨rule, x, y, hrule, heval, (Except.ok.inj hvalue).symm⟩

/-! ### Comparisons and bit counts -/

/-- Comparisons and bit counts of wide integers are exact, whatever the target: the value that
stands for a comparison is its outcome as 0 or 1, at any type of integers, and the rules for counts
give the halves of the count. A zero has as many zeros on either side as the wide type has bits. -/
theorem Halve.tests_exact (hhalf : half.IsWord) (hbits : 8 ≤ half.bits ∧ half.bits ≤ 64)
    (hflag : (T.compareType half).IsWord) (hd : d.Traceable) (hsize : values.size = d.graph.size)
    (hu : d.HoldsHalves values u half a b) :
    (∀ v c e, d.HoldsHalves values v half c e → ∀ (p : Condition) t id i results, t.IsWord →
      d.graph.nodes[id]? = some ⟨.setcc, [u, v], results, .cond p⟩ → results[0]? = some t →
      ∃ rule w d' values' r, Halve.operand? .setcc = some rule ∧
        (rule T id i).run d = .ok (.value w) d' ∧
        d'.graph.evaluateFrom args values = .ok values' ∧
        p.holds (2 * half.bits) (a + 2 ^ half.bits * b) (c + 2 ^ half.bits * e) = .ok r ∧
        d'.Holds values' w t r.toNat) ∧
    ∀ (op : BitCount) t id slot results attr,
      d.graph.nodes[id]? = some ⟨.count op, [u], results, attr⟩ → results[slot]? = some t →
      T.transform t = half →
      ∃ rule x y, Halve.result? (.count op) = some rule ∧
        d.Evaluates args values (rule T id slot) half x y ∧
        Eval.bitCount op (2 * half.bits) (a + 2 ^ half.bits * b) = .ok (x + 2 ^ half.bits * y) ∧
        (op ≠ .ones → a + 2 ^ half.bits * b = 0 → x + 2 ^ half.bits * y = 2 * half.bits) := by
  refine ⟨fun v c e hv p t id i results ht hn hresult => ?_,
    fun op t id slot results attr hn hresult htransform => ?_⟩
  · obtain ⟨B, w, d', values', hrun, heval, hends, p', rfl, hw⟩ := IsolatedRun.exists_run hd hsize
      fun B (hB : B.Starts d args values) => WordLogic.meets_inSetcc (L := B.words) hhalf hbits.2
        hflag ht (hB.resultType hn hresult) (hB.predicate hn rfl) (hB.operands hn rfl hu hv)
    refine ⟨_, w, d', values', _, rfl, ?_, heval, Condition.holds_eq (by omega) p _ _,
      hends.holds hw⟩
    rw [map_eq_pure_bind, Edit.run_bind, hrun]
    rfl
  · have htype (B : IsolatedRun) (hB : B.Starts d args values) :
        B.Meets (Halve.halfType T id slot) (half = ·) := by
      refine .bind (hB.resultType hn hresult) ?_
      rintro _ rfl
      exact .pure htransform.symm
    have hcount := Word.bitCount_eq op (n := 2 * half.bits) (by omega) hu.lt
    rw [← Nat.mod_add_div (Word.count ..) (2 ^ half.bits)] at hcount
    have hzero (hop : op ≠ .ones) (h : a + 2 ^ half.bits * b = 0) :
        Word.count op (2 * half.bits) (a + 2 ^ half.bits * b) = 2 * half.bits := by
      rw [h]
      exact Word.count_zero hop _
    rw [← Nat.mod_add_div (Word.count ..) (2 ^ half.bits)] at hzero
    cases op with
    | ones => exact ⟨_, _, _, rfl, IsolatedRun.evaluates hd hsize fun B hB =>
        WordLogic.meets_ofOnes hhalf hbits.1 (htype B hB) (hB.operand hn rfl hu), hcount, hzero⟩
    | leadingZeros => exact ⟨_, _, _, rfl, IsolatedRun.evaluates hd hsize fun B hB =>
        WordLogic.meets_ofLeadingZeros hhalf hbits.1 (htype B hB) (hB.operand hn rfl hu) hflag,
        hcount, hzero⟩
    | trailingZeros => exact ⟨_, _, _, rfl, IsolatedRun.evaluates hd hsize fun B hB =>
        WordLogic.meets_ofTrailingZeros hhalf hbits.1 (htype B hB) (hB.operand hn rfl hu) hflag,
        hcount, hzero⟩

/-- Two values of two bytes, a signed comparison of them and the zeros at the end of the first. -/
def testDraft : Draft where
  graph := (((((((Graph.empty.push { opcode := .argument, results := [.i8], attr := .arg 0 0 }).push
    { opcode := .argument, results := [.i8], attr := .arg 0 8 }).push
    { opcode := .argument, results := [.i8], attr := .arg 0 16 }).push
    { opcode := .argument, results := [.i8], attr := .arg 0 24 }).push
    { opcode := .buildPair, operands := [⟨0, 0⟩, ⟨1, 0⟩], results := [.i16] }).push
    { opcode := .buildPair, operands := [⟨2, 0⟩, ⟨3, 0⟩], results := [.i16] }).push
    { opcode := .setcc, operands := [⟨4, 0⟩, ⟨5, 0⟩], results := [.i32], attr := .cond .slt }).push
    { opcode := .count .trailingZeros, operands := [⟨4, 0⟩], results := [.i16] }
  conversions := .ofList [(⟨4, 0⟩, ⟨.expandedInteger, .two ⟨0, 0⟩ ⟨1, 0⟩⟩),
    (⟨5, 0⟩, ⟨.expandedInteger, .two ⟨2, 0⟩ ⟨3, 0⟩⟩)]

theorem traceable_testDraft : testDraft.Traceable :=
  ⟨⟨id, fun _ _ h => by cases h⟩, fun _ _ h => by cases h⟩

/-- Zero is less than 255 although the low byte of 255 is negative, and ends in sixteen zeros. -/
theorem Halve.tests_exact_zero :
    let values : Values := #[some (.scalar 0), some (.scalar 0), some (.scalar 255),
      some (.scalar 0), none, none, none, none]
    (∃ rule w d' values', Halve.operand? .setcc = some rule ∧
      (rule byteTarget 6 0).run testDraft = .ok (.value w) d' ∧
      d'.graph.evaluateFrom #[] values = .ok values' ∧ d'.Holds values' w .i32 1) ∧
    ∃ rule x y, Halve.result? (.count .trailingZeros) = some rule ∧
      testDraft.Evaluates #[] values (rule byteTarget 7 0) .i8 x y ∧ x + 2 ^ 8 * y = 16 := by
  intro values
  have hzero : testDraft.HoldsHalves values ⟨4, 0⟩ .i8 0 0 :=
    ⟨⟨0, 0⟩, ⟨1, 0⟩, rfl, ⟨rfl, rfl, Datum.fits_scalar.2 (by decide)⟩,
      ⟨rfl, rfl, Datum.fits_scalar.2 (by decide)⟩⟩
  have hlow : testDraft.HoldsHalves values ⟨5, 0⟩ .i8 255 0 :=
    ⟨⟨2, 0⟩, ⟨3, 0⟩, rfl, ⟨rfl, rfl, Datum.fits_scalar.2 (by decide)⟩,
      ⟨rfl, rfl, Datum.fits_scalar.2 (by decide)⟩⟩
  obtain ⟨htest, hcount⟩ := @Halve.tests_exact byteTarget testDraft #[] values .i8 ⟨4, 0⟩ 0 0
    (by decide) (by decide) (by decide) traceable_testDraft rfl hzero
  refine ⟨?_, ?_⟩
  · obtain ⟨rule, w, d', values', r, hrule, hrun, heval, hholds, hw⟩ :=
      htest ⟨5, 0⟩ 255 0 hlow .slt .i32 6 0 [.i32] (by decide) rfl rfl
    cases Except.ok.inj hholds
    exact ⟨rule, w, d', values', hrule, hrun, heval, hw⟩
  · obtain ⟨rule, x, y, hrule, heval, _, hsum⟩ :=
      hcount .trailingZeros .i16 7 0 [.i16] .none rfl rfl rfl
    exact ⟨rule, x, y, hrule, heval, hsum (by decide) rfl⟩

end Legal

end Dataflow
