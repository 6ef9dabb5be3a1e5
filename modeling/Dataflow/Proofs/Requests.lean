import Dataflow.Proofs.RewriteSpec
import Dataflow.Proofs.WordLogic

/-!
# Requests of a rule

What each request of a rule returns: the type of the new value and its datum, from the types and
data of the operands.
-/

namespace Dataflow.Legal

/-- An integer constant of type `t`. -/
def literal (t : ValueType) (bits : Nat) : Node := ⟨.constant, [], [t], .imm bits⟩

theorem EditSpec.Meets.literal {C : EditSpec} (hgood : ∀ id n, C.Good id n) {t : ValueType}
    (ht : t.isVector = false) (bits : Nat) : C.Meets (Edit.constant bits t) fun v =>
      C.final.nodes[v.node]? = some (literal t (bits % 2 ^ t.bits)) := by
  refine (build (n := ⟨.constant, [], [t], .imm (Word.low t.laneBits bits)⟩) (by simp)
    (fun id _ _ => hgood id _) rfl).mono fun v hv => ?_
  rw [hv.2.2, Word.low_eq t.laneBits_le, ValueType.bits_eq_laneBits ht]
  rfl

namespace RuleSpec

variable {V : RuleSpec} {a b c : Value} {t u : ValueType} {x y k s : Nat} {d e : Datum}

/-- The bits of a value of a scalar type. -/
def wordAt (V : RuleSpec) (v : Value) : Nat :=
  (V.val v.node).lanes.headD 0

theorem Is.wordAt (h : V.Is a t (.scalar x)) (hs : V.sem) : V.wordAt a = x := by
  rw [RuleSpec.wordAt, h.val hs]
  rfl

/-- A lane of a vector of type `t` can be built from the value. -/
def IsLane (V : RuleSpec) (t : ValueType) (v : Value) : Prop :=
  ∃ e x, V.Is v e (.scalar x) ∧ V.T.Writes V.limit t e

/-- A request for a node of the type of a value. -/
theorem Is.node_eq (h : V.Is a t d) (f : ValueType → Node) :
    (do return f (← V.final.typeOf a)) = Except.ok (f t) := by
  rw [typeOf_of_typeOf? h.type]
  rfl

namespace Meets

/-- The type of a value is no news. -/
theorem typeOf_bind {α : Type} {f : ValueType → Edit α} {Q : α → Prop} (h : V.Is a t d)
    (hf : V.Meets (f t) Q) : V.Meets (Edit.typeOf a >>= f) Q :=
  EditSpec.Meets.typeOf_bind h.type hf

/-! ### Leaves -/

theorem literal {op : Opcode} (hop : op = .constant ∨ op = .constantFp) (ht : t.isVector = false)
    (hadmits : V.Admits op [t]) {i : Instr} {bits : Nat}
    (hi : i.node V.final.typeOf = .ok ⟨op, [], [t], .imm (Word.low t.laneBits bits)⟩) :
    V.Meets (Edit.build i) fun v => V.Is v t (.scalar (bits % 2 ^ t.bits)) := by
  have hlow : Word.low t.laneBits bits = bits % 2 ^ t.bits := by
    rw [Word.low_eq t.laneBits_le, ValueType.bits_eq_laneBits ht]
  have hlt := Nat.mod_lt bits (Nat.two_pow_pos t.bits)
  have hrange : Word.low t.laneBits bits < 2 ^ t.laneBits := by
    rw [hlow, ← ValueType.bits_eq_laneBits ht]
    exact hlt
  refine build_exact [] ?_ hi .nil ?_ hadmits (fun _ _ => ?_) (fun _ => ⟨?_, ?_, ?_⟩) fun hs => ?_
  · rcases hop with rfl | rfl <;> simp
  · rcases hop with rfl | rfl
    exacts [.inl .constant, .inl .constantFp]
  · rcases hop with rfl | rfl <;> exact ⟨_, rfl, hrange⟩
  · rcases hop with rfl | rfl <;> simp
  · rintro _ _ _ ⟨⟩ ⟨⟩
    exact hrange
  · rcases hop with rfl | rfl <;> simp
  · rw [List.map_nil, Node.meaning_literal hop ht, hlow, Nat.mod_eq_of_lt hlt]

theorem constantOf (ht : t.isVector = false) (hadmits : V.Admits .constant [t]) (bits : Nat) :
    V.Meets (Edit.constant bits t) fun v => V.Is v t (.scalar (bits % 2 ^ t.bits)) :=
  literal (.inl rfl) ht hadmits rfl

theorem constant (ht : V.Word s t) (bits : Nat) :
    V.Meets (Edit.constant bits t) fun v => V.Is v t (.scalar (bits % 2 ^ t.bits)) :=
  constantOf ht.1.2 (.words rfl (by simp) (by simpa [Opcode.stage] using ht.mono (Nat.zero_le _)) (by simp)
    (by simp)) bits

/-- A constant is a literal. -/
theorem withLiteral {P : Value → Prop} {bits : Nat} (h : V.Meets (Edit.constant bits t) P)
    (ht : t.isVector = false) : V.Meets (Edit.constant bits t) fun v =>
      P v ∧ V.final.nodes[v.node]? = some (Legal.literal t (bits % 2 ^ t.bits)) :=
  EditSpec.Meets.and_lax h (.literal (fun _ _ => trivial) ht bits)

/-- What an operation returns is no constant. -/
theorem withInt {P : Value → Prop} {op : IntOp} (h : V.Meets (Edit.int op a b) P)
    (ha : V.Is a t d) (hb : V.Is b u e) : V.Meets (Edit.int op a b) fun v =>
      P v ∧ ∃ n, V.final.nodes[v.node]? = some n ∧ n.opcode ≠ .constant := by
  have hnode : Instr.node V.final.typeOf (.binary (.int op) a b) =
      .ok ⟨.int op, [a, b], [t], .none⟩ := ha.node_eq fun t => ⟨.int op, [a, b], [t], .none⟩
  refine EditSpec.Meets.and_lax h ((EditSpec.Meets.build (C := V.editSpec.lax) (fun v hv => ?_)
    (fun _ _ _ => trivial) hnode).mono fun v hv => ⟨_, hv.2.2, by simp [Replacements.update]⟩)
  have hreads : V.Reads [a, b] [t, u] := .cons ha.self (.cons hb.self .nil)
  exact hreads.isSome hv

theorem constantFp (ht : t.isVector = false) (hadmits : V.Admits .constantFp [t]) (bits : Nat) :
    V.Meets (Edit.constantFp bits t) fun v => V.Is v t (.scalar (bits % 2 ^ t.bits)) :=
  literal (.inr rfl) ht hadmits rfl

theorem undef (hadmits : V.Admits .undef [t]) :
    V.Meets (Edit.undef t) fun v => V.Is v t (.ofNumber t 0) :=
  build_is [] (by simp) rfl .nil .undef hadmits (fun _ _ => trivial) fun _ => Node.meaning_undef

theorem argument (bits : BitString) (hadmits : V.Admits .argument [t]) {index offset : Nat}
    (hwithin : V.strict → V.T.Within V.limit offset t)
    (hends : V.limit.moderate → V.T.classify t ≠ .legal → offset + t.bits ≤ 2 ^ 32)
    (hs : V.sem → V.args[index]? = some bits) : V.Meets (Edit.argument index offset t) fun v =>
      V.Is v t (.ofNumber t (BitString.number bits.bits / 2 ^ offset)) := by
  refine build_exact [] (by simp) rfl .nil (.inl .argument) hadmits
    (fun hstrict _ => ⟨index, offset, rfl, hwithin hstrict⟩) (fun hl => ⟨?_, by simp, by simp⟩)
    fun hsem => ?_
  · rintro _ _ _ _ ⟨⟩ ⟨⟩
    exact hends hl
  have hle := (hwithin (V.strict_of_sem hsem)).le
  exact Node.meaning_argument (hs hsem) (Nat.le_trans hle V.limit.bound_le)

/-! ### Lane by lane -/

theorem binary {op : Opcode} (hop : op.isIntBinary ∨ op.isFloatBinary)
    (hsig : Signature V.T.Wide op [t, t] t) (hadmits : V.Admits op [t, t, t]) {d' : Datum}
    (ha : V.Is a t d) (hb : V.Is b t d') (hmean : V.sem → ∀ ops attr types,
      Node.meaning V.args ⟨op, ops, [t], attr⟩ [d, d'] types = .ok e) :
    V.Meets (Edit.binary op a b) fun v => V.Is v t e := by
  refine build_is [t, t] ?_ (ha.node_eq fun t => ⟨op, [a, b], [t], .none⟩)
    (.cons ha.self (.cons hb.self .nil)) hsig hadmits (fun _ _ => ?_) fun hs => ?_
  · cases hsig <;> simp_all [Opcode.isIntBinary, Opcode.isFloatBinary]
  · cases hsig <;> simp_all [Opcode.isIntBinary, Opcode.isFloatBinary, Node.Attributed]
  · simp only [List.map_cons, List.map_nil, ha.val hs, hb.val hs]
    exact hmean hs _ _ _

theorem unary {op : Opcode} (hop : op.isSameTypeUnary) (hsig : Signature V.T.Wide op [t] t)
    (hadmits : V.Admits op [t, t]) (ha : V.Is a t d) (hmean : V.sem → ∀ ops attr types,
      Node.meaning V.args ⟨op, ops, [t], attr⟩ [d] types = .ok e) :
    V.Meets (Edit.unary op a) fun v => V.Is v t e := by
  refine build_is [t] ?_ (ha.node_eq fun t => ⟨op, [a], [t], .none⟩)
    (.cons ha.self .nil) hsig hadmits (fun _ _ => ?_) fun hs => ?_
  · cases hsig <;> simp_all [Opcode.isSameTypeUnary]
  · cases hsig <;> simp_all [Opcode.isSameTypeUnary, Node.Attributed]
  · simp only [List.map_cons, List.map_nil, ha.val hs]
    exact hmean hs _ _ _

/-! ### Words -/

theorem intOf {op : IntOp} (ht : V.Word s t) (hs : (Opcode.int op).stage ≤ s)
    (hmulhu : op = .mulhu → V.T.classify t ≠ .promoteInteger) (ha : V.Is a t (.scalar x))
    (hb : V.Is b t (.scalar y)) :
    V.Meets (Edit.int op a b) fun v => V.Is v t (.scalar (Word.value op t.bits x y)) := by
  have hword := ht.mono hs
  refine binary (.inl rfl) (.int ht.1.1)
    (.words rfl (by simp) (by simpa using hword) (fun h => ?_) (by simp)) ha hb
    fun hs _ _ _ => Node.meaning_int ht.1 (ha.lt hs) (hb.lt hs) op _
  simpa using hmulhu (Opcode.int.inj h)

theorem int (ht : V.Word s t) (op : IntOp) (ha : V.Is a t (.scalar x)) (hb : V.Is b t (.scalar y))
    (hop : (Opcode.int op).stage ≤ s ∧ op ≠ .mulhu) :
    V.Meets (Edit.int op a b) fun v => V.Is v t (.scalar (Word.value op t.bits x y)) :=
  intOf ht hop.1 (fun h => absurd h hop.2) ha hb

theorem count (ht : V.Word s t) (op : BitCount) (ha : V.Is a t (.scalar x)) :
    V.Meets (Edit.unary (.count op) a) fun v => V.Is v t (.scalar (Word.count op t.bits x)) :=
  unary rfl (.count ht.1.1) (.words rfl (by simp) (by simpa [Opcode.stage] using ht.mono (Nat.zero_le _)) (by simp)
    (by simp)) ha fun hs _ _ _ => Node.meaning_count ht.1 (ha.lt hs) op _

theorem setccOf (ht : t.IsWord) (hu : u.IsWord) (hadmits : V.Admits .setcc [t, u, u])
    (c : Condition) (ha : V.Is a u (.scalar x)) (hb : V.Is b u (.scalar y)) :
    V.Meets (Edit.setcc a b c t) fun v => V.Is v t (.scalar (c.test u.bits x y).toNat) := by
  refine build_is [u, u] (by simp) rfl (.cons ha.self (.cons hb.self .nil)) (.setcc hu ht) hadmits
    (fun _ _ => ⟨c, rfl⟩) fun hs => ?_
  simp only [List.map_cons, List.map_nil, ha.val hs, hb.val hs]
  exact Node.meaning_setcc ht c x y

/-- A comparison with a result of a legal type. -/
theorem setcc (ht : t.IsWord) (hlegal : V.T.classify t = .legal) (hu : V.Word s u) (c : Condition)
    (ha : V.Is a u (.scalar x)) (hb : V.Is b u (.scalar y)) :
    V.Meets (Edit.setcc a b c t) fun v => V.Is v t (.scalar (c.test u.bits x y).toNat) := by
  have ht' : V.Word 0 t := ⟨ht, .legal hlegal⟩
  have hu' := hu.mono (Nat.zero_le s)
  exact setccOf ht hu.1 (.words rfl (by simp) (by simp [Opcode.stage, ht', hu']) (by simp)
    (by simp [hlegal])) c ha hb

theorem selectOf (hu : u.IsWord) (hadmits : V.Admits .select [t, u, t, t])
    (hc : V.Is c u (.scalar k)) (ha : V.Is a t d) (hb : V.Is b t e) :
    V.Meets (Edit.select c a b) fun v => V.Is v t (if k ≠ 0 then d else e) := by
  refine build_is [u, t, t] (by simp) (ha.node_eq fun t => ⟨.select, [c, a, b], [t], .none⟩)
    (.cons hc.self (.cons ha.self (.cons hb.self .nil))) (.select hu) hadmits (fun _ _ => trivial) fun hs => ?_
  simp only [List.map_cons, List.map_nil, hc.val hs, ha.val hs, hb.val hs]
  exact Node.meaning_select d e _

theorem select (hu : V.Word s u) (ht : V.Word s t) (hc : V.Is c u (.scalar k))
    (ha : V.Is a t (.scalar x)) (hb : V.Is b t (.scalar y)) :
    V.Meets (Edit.select c a b) fun v => V.Is v t (.scalar (if k ≠ 0 then x else y)) := by
  have ht' := ht.mono (Nat.zero_le s)
  have hu' := hu.mono (Nat.zero_le s)
  refine (selectOf hu.1 (.words rfl (by simp) (by simp [Opcode.stage, ht', hu']) (by simp)
    (by simp)) hc ha hb).mono fun v hv => hv.congr fun _ => ?_
  split <;> rfl

theorem truncateOf (hu : u.IsWord) (ht : t.IsWord) (h : t.bits < u.bits)
    (hadmits : V.Admits .truncate [t, u]) (ha : V.Is a u (.scalar x)) :
    V.Meets (Edit.cast .truncate a t) fun v => V.Is v t (.scalar (x % 2 ^ t.bits)) := by
  refine build_is [u] (by simp) rfl (.cons ha.self .nil) (.truncate hu ht h) hadmits
    (fun _ _ => trivial) fun hs => ?_
  simp only [List.map_cons, List.map_nil, ha.val hs]
  exact Node.meaning_cut (.inl rfl) ht x _

theorem truncate (hu : V.Word s u) (ht : V.Word s t) (h : t.bits < u.bits)
    (ha : V.Is a u (.scalar x)) (hs : 1 ≤ s) :
    V.Meets (Edit.cast .truncate a t) fun v => V.Is v t (.scalar (x % 2 ^ t.bits)) :=
  truncateOf hu.1 ht.1 h (.words rfl (by simp) (by simpa using ⟨ht.mono hs, hu.mono hs⟩) (by simp)
    (by simp)) ha

section
variable (hu : V.Word s u) (ht : V.Word s t) (h : u.bits < t.bits) (ha : V.Is a u (.scalar x))
include hu ht h ha

theorem zeroExtend : V.Meets (Edit.cast .zeroExtend a t) fun v =>
    V.Is v t (.scalar (x % 2 ^ t.bits)) := by
  refine build_is [u] (by simp) rfl (.cons ha.self .nil) (.zeroExtend hu.1 ht.1 h)
    (.words rfl (by simp) (by simpa using ⟨ht.mono (Nat.zero_le _), hu.mono (Nat.zero_le _)⟩)
      (by simp) (by simp)) (fun _ _ => trivial) fun hs => ?_
  simp only [List.map_cons, List.map_nil, ha.val hs]
  exact Node.meaning_cut (.inr (.inl rfl)) ht.1 x _

theorem signExtend : V.Meets (Edit.cast .signExtend a t) fun v =>
    V.Is v t (.scalar (Word.extend u.bits t.bits x)) := by
  refine build_is [u] (by simp) rfl (.cons ha.self .nil) (.signExtend hu.1 ht.1 h)
    (.words rfl (by simp) (by simpa using ⟨ht.mono (Nat.zero_le _), hu.mono (Nat.zero_le _)⟩)
      (by simp) (by simp)) (fun _ _ => trivial) fun hs => ?_
  simp only [List.map_cons, List.map_nil, ha.val hs]
  exact Node.meaning_signExtend ht.1 hu.1 h (ha.lt hs)

/-- The bits above the operand may be any where its type is loose. -/
theorem anyExtend : V.Meets (Edit.cast .anyExtend a t) fun v => ∃ y, V.Is v t (.scalar y) ∧
    (V.sem → y % 2 ^ u.bits = x ∧ (¬ V.T.Loose V.limit u → y = x)) := by
  refine (build (d := .scalar (x % 2 ^ t.bits)) [u] rfl (.cons ha.self .nil)
    (.inl (.anyExtend hu.1 ht.1 h))
    (.words rfl (by simp) (by simpa using ⟨ht.mono (Nat.zero_le _), hu.mono (Nat.zero_le _)⟩)
      (by simp) (by simp)) (fun _ _ => trivial) (fun _ => Target.moderate_of_ne (by simp))
    fun hs => ?_).mono ?_
  · simp only [List.map_cons, List.map_nil, ha.val hs]
    exact Node.meaning_cut (.inr (.inr rfl)) ht.1 x _
  · rintro v ⟨e, hv, he⟩
    obtain ⟨y, hy, heq⟩ := hv.scalar ht.1.2
    refine ⟨y, hy, fun hs => ?_⟩
    have hallows := (he hs).1
    rw [Node.Allows, if_pos (.inl rfl), heq hs] at hallows
    obtain ⟨_, _, hx, hy', hmod⟩ := hallows
    cases hx
    cases hy'
    have hlt := ha.lt hs
    have hlt' := Nat.lt_of_lt_of_le hlt (Nat.pow_le_pow_right (by decide) (Nat.le_of_lt h))
    refine ⟨?_, fun htight => ((hmod u rfl).2 htight).trans (Nat.mod_eq_of_lt hlt')⟩
    rw [← hu.1.laneBits_eq, (hmod u rfl).1, hu.1.laneBits_eq, Nat.mod_mod_of_dvd _
      (Nat.pow_dvd_pow 2 (Nat.le_of_lt h)), Nat.mod_eq_of_lt hlt]

end

/-! ### Values of one lane

Where liberties are taken, values of one lane that are no words are extended like words. -/

section
variable (hl : V.limit.liberal) (hone : u.laneCount = 1) (hu : ¬ u.IsWord) (ht : t.IsWord)
  (hlegal : V.T.classify t = .legal) (h : u.bits < t.bits) (ha : V.Is a u d)
include hl hone hu ht hlegal h ha

theorem zeroExtendLane (hadmits : V.Admits .zeroExtend [t, u]) :
    V.Meets (Edit.cast .zeroExtend a t) fun v => V.Is v t (.scalar (d.number u)) := by
  refine build_signed [u] (by simp) rfl (.cons ha.self .nil)
    (.inr ⟨hl, .zeroExtend hone hu ht h, hlegal⟩) hadmits (fun _ _ => trivial) fun hs => ?_
  have hlt := Nat.lt_of_lt_of_le (ha.fits hs).number_lt
    (Nat.pow_le_pow_right (by decide) (Nat.le_of_lt h))
  simp only [List.map_cons, List.map_nil, ha.val hs]
  rw [Node.meaning_cutLane (.inr (.inl rfl)) ht ((ha.fits hs).lanes_eq hone), Nat.mod_eq_of_lt hlt]

theorem anyExtendLane (hadmits : V.Admits .anyExtend [t, u]) :
    V.Meets (Edit.cast .anyExtend a t) fun v =>
      ∃ y, V.Is v t (.scalar y) ∧ (V.sem → y % 2 ^ u.bits = d.number u) := by
  refine (build (d := .scalar (d.number u % 2 ^ t.bits)) [u] rfl (.cons ha.self .nil)
    (.inr ⟨hl, .anyExtend hone hu ht h, hlegal⟩) hadmits (fun _ _ => trivial)
    (fun _ => Target.moderate_of_ne (by simp)) fun hs => ?_).mono ?_
  · simp only [List.map_cons, List.map_nil, ha.val hs]
    exact Node.meaning_cutLane (.inr (.inr rfl)) ht ((ha.fits hs).lanes_eq hone) _
  · rintro v ⟨e, hv, he⟩
    obtain ⟨y, hy, heq⟩ := hv.scalar ht.2
    refine ⟨y, hy, fun hs => ?_⟩
    have hallows := (he hs).1
    rw [Node.Allows, if_pos (.inl rfl), heq hs] at hallows
    obtain ⟨_, _, hx, hy', hmod⟩ := hallows
    cases hx
    cases hy'
    have hlane : u.laneBits = u.bits := by rw [ValueType.bits_eq_mul, hone, Nat.mul_one]
    rw [← hlane, (hmod u rfl).1, hlane, Nat.mod_mod_of_dvd _ (Nat.pow_dvd_pow 2 (Nat.le_of_lt h)),
      Nat.mod_eq_of_lt (ha.fits hs).number_lt]

end

/-! ### Reinterpretation -/

theorem castBits (h : u.bits = t.bits) (hadmits : V.Admits .bitcast [t, u]) (ha : V.Is a u d) :
    V.Meets (Edit.cast .bitcast a t) fun v => V.Is v t (.ofNumber t (d.number u)) := by
  refine build_is [u] (by simp) rfl (.cons ha.self .nil) (.bitcast h) hadmits
    (fun _ _ => trivial) fun hs => ?_
  simp only [List.map_cons, List.map_nil, ha.val hs]
  exact Node.meaning_bitcast (ha.fits hs) h

theorem buildPair (hsig : V.T.Signs V.limit .buildPair [u, u] t) (h : t.bits = 2 * u.bits)
    (hadmits : V.Admits .buildPair [t, u, u]) (ha : V.Is a u d) (hb : V.Is b u e) :
    V.Meets (Edit.buildPair a b t) fun v =>
      V.Is v t (.ofNumber t (d.number u + 2 ^ u.bits * e.number u)) := by
  refine build_signed [u, u] (by simp) rfl (.cons ha.self (.cons hb.self .nil)) hsig hadmits
    (fun _ _ => trivial) fun hs => ?_
  simp only [List.map_cons, List.map_nil, ha.val hs, hb.val hs]
  exact Node.meaning_buildPair (ha.fits hs) (hb.fits hs) h

/-! ### Vectors -/

section
variable {i : ValueType} {l m : List Nat}

/-- A lane is read at the lane type or into a wider word, above the lane with any bits. -/
theorem lane {r : Instr}
    (hr : r.node V.final.typeOf = .ok ⟨.extractElement, [a, b], [t], .none⟩)
    (hu : u.isVector = true) (ht : V.T.Reads V.limit u t) (hi : i.IsWord)
    (hbits : V.strict → V.numbered → 8 ≤ i.bits) (hnames : V.limit.moderate → V.T.Names V.final u i b)
    (hadmits : V.Admits .extractElement [t, u, i])
    (ha : V.Is a u (.vector l)) (hb : V.Is b i (.scalar k))
    (hx : V.sem → l[k % 2 ^ 64]? = some x) :
    V.Meets (Edit.build r) fun v => ∃ y, V.Is v t (.scalar y) ∧
      (V.sem → y % 2 ^ u.laneBits = x ∧ (V.exact ∨ ¬ V.T.Loose V.limit u → y = x)) := by
  refine (build (d := .scalar x) [u, i] hr (.cons ha.self (.cons hb.self .nil))
    (ht.signs hu hi) hadmits (fun hs hn => hbits hs (hn (.inl rfl))) (fun hl => ?_)
    fun hs => ?_).mono ?_
  · refine ⟨by simp, by simp, ?_⟩
    rintro _ _ _ _ _ ⟨⟩ ⟨⟩
    exact hnames hl
  · simp only [List.map_cons, List.map_nil, ha.val hs, hb.val hs]
    exact Node.meaning_extract (hx hs) _
  · rintro v ⟨e, hv, he⟩
    obtain ⟨y, hy, heq⟩ := hv.scalar ht.isVector
    refine ⟨y, hy, fun hs => ?_⟩
    have hallows := (he hs).1
    rw [Node.Allows, if_pos (.inr rfl), heq hs] at hallows
    obtain ⟨_, _, hx', hy', hmod⟩ := hallows
    cases hx'
    cases hy'
    refine ⟨?_, fun hexact => hexact.elim (fun hexact => ?_) (hmod u rfl).2⟩
    · have hlt := (Datum.fits_vector.1 (ha.fits hs)).2.2 x (List.mem_of_getElem? (hx hs))
      rw [(hmod u rfl).1, Nat.mod_eq_of_lt hlt]
    · have hdatum := (he hs).2 hexact
      rw [heq hs] at hdatum
      exact Datum.scalar.inj hdatum

theorem extractAs (hu : u.isVector = true) (ht : V.T.Reads V.limit u t) (hi : i.IsWord)
    (hbits : V.strict → V.numbered → 8 ≤ i.bits) (hnames : V.limit.moderate → V.T.Names V.final u i b)
    (hadmits : V.Admits .extractElement [t, u, i]) (ha : V.Is a u (.vector l))
    (hb : V.Is b i (.scalar k)) (hx : V.sem → l[k % 2 ^ 64]? = some x) :
    V.Meets (Edit.extractAs a b t) fun v => ∃ y, V.Is v t (.scalar y) ∧
      (V.sem → y % 2 ^ u.laneBits = x ∧ (V.exact ∨ ¬ V.T.Loose V.limit u → y = x)) :=
  lane rfl hu ht hi hbits hnames hadmits ha hb hx

theorem extract (hu : u.isVector = true) (hi : i.IsWord) (hbits : V.strict → V.numbered → 8 ≤ i.bits)
    (hnames : V.limit.moderate → V.T.Names V.final u i b)
    (hadmits : V.Admits .extractElement [u.scalar, u, i]) (ha : V.Is a u (.vector l))
    (hb : V.Is b i (.scalar k)) (hx : V.sem → l[k % 2 ^ 64]? = some x) :
    V.Meets (Edit.extract a b) fun v => V.Is v u.scalar (.scalar x) := by
  refine (lane (r := .extract a b)
    (ha.node_eq fun t => ⟨.extractElement, [a, b], [t.scalar], .none⟩) hu (.inl (.inl rfl)) hi hbits
    hnames hadmits ha hb hx).mono ?_
  rintro v ⟨y, hy, hmod⟩
  refine hy.congr fun hs => ?_
  have hlt := hy.lt hs
  rw [ValueType.bits_eq_laneBits u.isVector_scalar, u.laneBits_scalar] at hlt
  rw [← (hmod hs).1, Nat.mod_eq_of_lt hlt]

theorem insert (hu : u.isVector = true) {e : ValueType} (he : V.T.Writes V.limit u e)
    (hi : i.IsWord) (hbits : V.strict → V.numbered → 8 ≤ i.bits) (hadmits : V.Admits .insertElement [u, u, e, i])
    (ha : V.Is a u (.vector l)) (hb : V.Is b e (.scalar x)) (hc : V.Is c i (.scalar k))
    (hk : V.sem → k % 2 ^ 64 < l.length) : V.Meets (Edit.insert a b c) fun v =>
      V.Is v u (.vector (l.set (k % 2 ^ 64) (x % 2 ^ u.laneBits))) := by
  refine build_signed [u, e, i] (by simp)
    (ha.node_eq fun t => ⟨.insertElement, [a, b, c], [t], .none⟩)
    (.cons ha.self (.cons hb.self (.cons hc.self .nil))) (he.signs_insert hu hi) hadmits
    (fun hs hn => hbits hs (hn (.inr rfl))) fun hs => ?_
  simp only [List.map_cons, List.map_nil, ha.val hs, hb.val hs, hc.val hs]
  exact Node.meaning_insert hu (hk hs) _

theorem shuffle (hu : u.isVector = true) (ht : t.isVector = true) (hscalar : u.scalar = t.scalar)
    (hadmits : V.Admits .vectorShuffle [t, u, u]) {mask : List (Option Nat)}
    (hlen : V.strict → mask.length = t.lanes)
    (hmask : V.strict → ∀ k, some k ∈ mask → k < 2 * u.lanes) (ha : V.Is a u (.vector l))
    (hb : V.Is b u (.vector m)) : V.Meets (Edit.shuffle a b mask t) fun v =>
      V.Is v t (.vector (mask.map (Node.selected (l ++ m)))) := by
  refine build_is [u, u] (by simp) rfl (.cons ha.self (.cons hb.self .nil))
    (.vectorShuffle hu ht hscalar) hadmits
    (fun hstrict _ => ⟨mask, rfl, hlen hstrict, hmask hstrict⟩) fun hs => ?_
  simp only [List.map_cons, List.map_nil, ha.val hs, hb.val hs]
  refine Node.meaning_shuffle ht (fun k hk => ?_) _
  have hl := (Datum.fits_vector.1 (ha.fits hs)).2.1
  have hm := (Datum.fits_vector.1 (hb.fits hs)).2.1
  have := hmask (V.strict_of_sem hs) k hk
  rw [List.length_append]
  omega

/-- The types and data of lanes. -/
theorem lanes_types {vs : List Value} (h : ∀ v ∈ vs, V.IsLane t v) :
    ∃ es : List ValueType, V.Reads vs es ∧
      (∀ e ∈ es, V.T.Writes V.limit t e) ∧
      (V.sem → vs.map (V.val ·.node) = (vs.map V.wordAt).map .scalar) := by
  induction vs with
  | nil => exact ⟨[], .nil, by simp, fun _ => rfl⟩
  | cons v vs ih =>
    obtain ⟨e, x, hv, he⟩ := h v List.mem_cons_self
    obtain ⟨es, hes, hwrites, hdata⟩ := ih fun w hw => h w (List.mem_cons_of_mem _ hw)
    refine ⟨e :: es, .cons hv.self hes, by simpa using ⟨he, hwrites⟩, fun hs => ?_⟩
    rw [List.map_cons, List.map_cons, List.map_cons, hdata hs, hv.val hs, hv.wordAt hs]

/-- Lanes cut what they are given. -/
theorem buildVector (ht : t.isVector = true) {vs : List Value} (h : ∀ v ∈ vs, V.IsLane t v)
    (hlen : vs.length = t.lanes)
    (hadmits : ∀ es : List ValueType, vs.map V.final.typeOf? = es.map some →
      (∀ e ∈ es, V.T.Writes V.limit t e) → V.Admits .buildVector (t :: es)) :
    V.Meets (Edit.buildVector vs t) fun v =>
      V.Is v t (.vector (vs.map fun v => V.wordAt v % 2 ^ t.laneBits)) := by
  obtain ⟨es, hes, hwrites, hdata⟩ := lanes_types h
  have heslen : es.length = vs.length := hes.length_eq.symm
  refine build_signed es (by simp) rfl hes
    (Target.signs_buildVector ht (heslen.trans hlen) hwrites) (hadmits es hes.types hwrites)
    (fun _ _ => trivial) fun hs => ?_
  rw [hdata hs, Node.meaning_buildVector (by rw [List.length_map]), List.map_map]
  rfl

/-- The lane at a constant index. -/
theorem extractLane (hu : u.isVector = true)
    (hadmits : V.Admits .extractElement [u.scalar, u, V.T.indexType]) (ha : V.Is a u (.vector l))
    (hk : V.strict → k < u.lanes) (hx : V.sem → l[k]? = some x) :
    V.Meets (Edit.extractLane V.T a k) fun v => V.Is v u.scalar (.scalar x) := by
  obtain ⟨hindex, hlegal, hbits⟩ := V.regular.indexType
  have hword : V.Word 0 V.T.indexType := ⟨hindex, .legal hlegal⟩
  refine .bind (constant hword k) fun b hb => extract hu hindex (fun _ _ => hbits)
    (fun _ => Target.names_of_legal hlegal) hadmits ha hb fun hs => ?_
  have hlanes : u.lanes ≤ 16 := by cases u <;> decide
  have hpow : 2 ^ 8 ≤ 2 ^ V.T.indexType.bits := Nat.pow_le_pow_right (by decide) hbits
  have hlt := hk (V.strict_of_sem hs)
  rw [Nat.mod_eq_of_lt (a := k) (by omega), Nat.mod_eq_of_lt (a := k) (by omega), hx hs]

end

end Meets

/-- Words under what is asked of a rule. -/
def words (V : RuleSpec) : WordLogic where
  sem := V.sem
  Meets := V.Meets
  Is v t x := V.Is v t (.scalar x)
  Works := V.Word
  Flag t := t.IsWord ∧ V.T.classify t = .legal
  Product t := V.T.classify t ≠ .promoteInteger
  bind := .bind
  mono := .mono
  pure := .pure
  isWord h := h.1
  works_mono := .mono
  works_flag h := ⟨h.1, .legal h.2⟩
  lt := Is.lt
  congr h hxy := h.congr fun hs => by rw [hxy hs]
  typeOf h := .typeOf h.type
  constant := .constant
  intOf := .intOf
  count := .count
  setcc h := .setcc h.1 h.2
  select := .select
  truncate := .truncate
  zeroExtend := .zeroExtend
  signExtend := .signExtend
  anyExtend hu ht h ha := (Meets.anyExtend hu ht h ha).mono fun _ hv =>
    hv.imp fun _ hy => ⟨hy.1, fun hs => (hy.2 hs).1⟩

end RuleSpec

/-! ### Parts of operands -/

namespace RuleSpec.Meets

variable {V : RewriteSpec} {t : ValueType} {x : Nat}

theorem promoted {v : Value} (hv : V.Source v) (h : V.Is v t (.scalar x))
    (ht : V.T.classify t = .promoteInteger) : V.Meets (Edit.promoted v) fun w =>
      ∃ y, V.Is w (V.T.transform t) (.scalar y) ∧ (V.sem → y % 2 ^ t.bits = x) := by
  have hsuits := V.regular.suits t
  rw [ht] at hsuits
  obtain ⟨hword, hwide, _, _⟩ := hsuits
  refine (one hv h (by rw [ht]; rfl) rfl).mono ?_
  rintro w ⟨e, hw, he⟩
  obtain ⟨y, hy, hey⟩ := hw.scalar hwide.2
  refine ⟨y, hy, fun hs => ?_⟩
  have hx := he hs
  rw [hey hs, Datum.number_scalar, Datum.ofNumber_word hword.2] at hx
  cases hx
  rfl

theorem softened {v : Value} (hv : V.Source v) (h : V.Is v t (.scalar x))
    (ht : V.T.classify t = .promoteFloat) :
    V.Meets (Edit.promoted v) fun w => V.Is w (V.T.transform t) (.scalar x) := by
  have hsuits := V.regular.suits t
  rw [ht] at hsuits
  obtain ⟨_, hvector, hwide, hbits, _⟩ := hsuits
  refine (one hv h (by rw [ht]; rfl) rfl).mono ?_
  rintro w ⟨e, hw, he⟩
  obtain ⟨y, hy, hey⟩ := hw.scalar hwide.2
  refine hy.congr fun hs => ?_
  have hx := he hs
  rw [hey hs, Datum.number_scalar, Datum.ofNumber_word hvector, ← hbits,
    Nat.mod_eq_of_lt (hy.lt hs)] at hx
  exact hx.symm

/-- Two scalar parts of half the width each. -/
theorem scalarParts {v : Value} {kind : ConversionKind} (hv : V.Source v)
    (h : V.Is v t (.scalar x)) (hk : (V.T.classify t).kind? = some kind) (hp : kind.isPair = true)
    (ht : t.isVector = false) (hhalf : (V.T.transform t).isVector = false)
    (hbits : t.bits = 2 * (V.T.transform t).bits) : V.Meets (Edit.two kind v) fun w =>
      ∃ lo hi, V.Is w.1 (V.T.transform t) (.scalar lo) ∧ V.Is w.2 (V.T.transform t) (.scalar hi) ∧
        (V.sem → x = lo + 2 ^ (V.T.transform t).bits * hi) := by
  refine (two hv h hk hp).mono ?_
  rintro w ⟨e, e', hlo, hhi, he⟩
  obtain ⟨lo, hlo, helo⟩ := hlo.scalar hhalf
  obtain ⟨hi, hhi, hehi⟩ := hhi.scalar hhalf
  refine ⟨lo, hi, hlo, hhi, fun hs => ?_⟩
  have hx := he hs
  have hlt : lo + 2 ^ (V.T.transform t).bits * hi < 2 ^ t.bits := by
    have h₁ := hlo.lt hs
    have h₂ : 2 ^ (V.T.transform t).bits * (hi + 1) ≤
        2 ^ (V.T.transform t).bits * 2 ^ (V.T.transform t).bits :=
      Nat.mul_le_mul_left _ (hhi.lt hs)
    rw [hbits, Nat.two_mul, Nat.pow_add]
    rw [Nat.mul_add, Nat.mul_one] at h₂
    omega
  rw [helo hs, hehi hs, Datum.number_scalar, Datum.number_scalar, Datum.ofNumber_word ht,
    Nat.mod_eq_of_lt hlt] at hx
  cases hx
  rfl

theorem halves {v : Value} (hv : V.Source v) (h : V.Is v t (.scalar x))
    (ht : V.T.classify t = .expandInteger) : V.Meets (Edit.halves v) fun w =>
      ∃ lo hi, V.Is w.1 (V.T.transform t) (.scalar lo) ∧ V.Is w.2 (V.T.transform t) (.scalar hi) ∧
        (V.sem → x = lo + 2 ^ (V.T.transform t).bits * hi) := by
  have hsuits := V.regular.suits t
  rw [ht] at hsuits
  exact scalarParts hv h (by rw [ht]; rfl) rfl hsuits.1.2 hsuits.2.1.2 hsuits.2.2.1

theorem floatParts {v : Value} (hv : V.Source v) (h : V.Is v t (.scalar x))
    (ht : V.T.classify t = .expandFloat) : V.Meets (Edit.floatParts v) fun w =>
      ∃ lo hi, V.Is w.1 .f64 (.scalar lo) ∧ V.Is w.2 .f64 (.scalar hi) ∧
        (V.sem → x = lo + 2 ^ 64 * hi) := by
  have hsuits := V.regular.suits t
  rw [ht] at hsuits
  obtain ⟨rfl, hpart⟩ := hsuits
  have hparts := scalarParts hv h (by rw [ht]; rfl) rfl rfl (by rw [hpart]; rfl) (by rw [hpart]; rfl)
  rwa [hpart] at hparts

theorem soleLane {v : Value} {l : List Nat} (hv : V.Source v) (h : V.Is v t (.vector l))
    (ht : V.T.classify t = .scalarize) : V.Meets (Edit.soleLane v) fun w =>
      ∃ y, V.Is w t.scalar (.scalar y) ∧ (V.sem → l = [y]) := by
  have hsuits := V.regular.suits t
  rw [ht] at hsuits
  obtain ⟨hlanes, helement⟩ := hsuits
  refine (one hv h (by rw [ht]; rfl) rfl).mono ?_
  rintro w ⟨e, hw, he⟩
  rw [helement] at hw he
  obtain ⟨y, hy, hey⟩ := hw.scalar t.isVector_scalar
  refine ⟨y, hy, fun hs => ?_⟩
  have hx := he hs
  have hlt := hy.lt hs
  rw [ValueType.bits_eq_laneBits t.isVector_scalar, t.laneBits_scalar] at hlt
  rw [hey hs, Datum.number_scalar, Datum.ofNumber, if_pos (by simp [ValueType.isVector, hlanes]),
    hlanes] at hx
  cases hx
  rw [Word.limbs, Word.limbs, Nat.mod_eq_of_lt hlt]

theorem vectorHalves {v : Value} {l : List Nat} (hv : V.Source v) (h : V.Is v t (.vector l))
    (ht : V.T.classify t = .split) : V.Meets (Edit.vectorHalves v) fun w =>
      ∃ m m', V.Is w.1 (V.T.transform t) (.vector m) ∧ V.Is w.2 (V.T.transform t) (.vector m') ∧
        (V.sem → l = m ++ m') := by
  have hsuits := V.regular.suits t
  rw [ht] at hsuits
  have hhalf : t.half? = some (V.T.transform t) := hsuits
  obtain ⟨htvec, hvector, _, hlanes⟩ := ValueType.half?_eq_some hhalf
  refine (two hv h (by rw [ht]; rfl) rfl).mono ?_
  rintro w ⟨e, e', hlo, hhi, he⟩
  obtain ⟨m, hm, hem⟩ := hlo.vector hvector
  obtain ⟨m', hm', hem'⟩ := hhi.vector hvector
  refine ⟨m, m', hm, hm', fun hs => ?_⟩
  obtain ⟨_, hlen, hlt⟩ := Datum.fits_vector.1 (hm.fits hs)
  obtain ⟨_, hlen', hlt'⟩ := Datum.fits_vector.1 (hm'.fits hs)
  have hfits : (Datum.vector (m ++ m')).Fits t := by
    refine Datum.fits_vector.2 ⟨htvec, by rw [List.length_append]; omega, fun y hy => ?_⟩
    rw [(ValueType.bits_half hhalf).1]
    rcases List.mem_append.1 hy with hy | hy
    · exact hlt y hy
    · exact hlt' y hy
  have hx := he hs
  rw [hem hs, hem' hs, ← Datum.number_append hhalf hlen, hfits.ofNumber_number] at hx
  cases hx
  rfl

end RuleSpec.Meets

end Dataflow.Legal
