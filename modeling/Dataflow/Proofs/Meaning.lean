import Dataflow.Proofs.Words

/-!
# The meaning of a node

The datum of a node is a function of the data and the types of its operands. Here it is in closed
form for every operation, and it is a datum of the type of the result.
-/

namespace Dataflow

namespace Node

/-- The datum of a node of one result, from the data and the types of its operands. -/
def meaning (args : Array BitString) (n : Node) (data : List Datum) (types : List ValueType) :
    Except EvalError Datum :=
  match n.results with
  | [t] =>
    Eval.compute args n t (fun i => data[i]?.elim (.error (.missingOperand 0 i)) .ok)
      (fun i => .ok (types[i]?.getD t))
  | _ => .error (.unsupported n.opcode .i1)

/-- The data that a node of meaning `d` may have: `d` itself, but extensions of unspecified bits and
lanes read into wider words fix the low bits only where they read a `loose` type. -/
def Allows (loose : ValueType → Prop) (n : Node) (types : List ValueType) (d d' : Datum) : Prop :=
  if n.opcode = .anyExtend ∨ n.opcode = .extractElement then
    ∃ x y, d = .scalar x ∧ d' = .scalar y ∧
      ∀ u, types.head? = some u → y % 2 ^ u.laneBits = x % 2 ^ u.laneBits ∧ (¬ loose u → y = x)
  else d' = d

/-- The bits that an output observes, from the data and the types of its operands: of each its
width, or all of it. -/
def observation (n : Node) (data : List Datum) (types : List ValueType) : BitString :=
  .join ((types.zip data).mapIdx fun i p =>
    .ofNumber (((n.widths?.getD [])[i]?).getD p.1.bits) (p.2.number p.1))

/-- Operands count by their data and types only. -/
theorem meaning_operands (args : Array BitString) (n : Node) {vs : List Value}
    (h : vs.length = n.operands.length) (data : List Datum) (types : List ValueType) :
    meaning args { n with operands := vs } data types = meaning args n data types := by
  unfold meaning
  dsimp only
  split
  · unfold Eval.compute
    cases n with
    | mk opcode operands results attr =>
      dsimp only at h ⊢
      cases opcode <;> first | rfl | rw [h]
  · rfl

section
variable {args : Array BitString} {ops : List Value} {attr : Attr} {t u : ValueType}

/-! ### Leaves -/

theorem meaning_argument {index offset : Nat} {s : BitString} (hs : args[index]? = some s)
    (h : offset + t.bits ≤ 2 ^ 32) :
    meaning args ⟨.argument, ops, [t], .arg index offset⟩ [] [] =
      .ok (.ofNumber t (BitString.number s.bits / 2 ^ offset)) := by
  simp only [meaning, Eval.compute, arg?, hs, BitString.readDatum_eq s h]
  rfl

theorem meaning_literal {op : Opcode} (hop : op = .constant ∨ op = .constantFp)
    (ht : t.isVector = false) (bits : Nat) :
    meaning args ⟨op, ops, [t], .imm bits⟩ [] [] = .ok (.scalar (bits % 2 ^ t.bits)) := by
  have hlanes : (liftM (Datum.ofLanes t (List.replicate t.laneCount (Word.low t.laneBits bits))) :
      Except EvalError Datum) = .ok (.scalar (bits % 2 ^ t.bits)) := by
    rw [ValueType.laneCount_eq_one ht, List.replicate_one, Datum.ofLanes_scalar ht,
      Word.low_eq t.laneBits_le, ValueType.bits_eq_laneBits ht]
    rfl
  rcases hop with rfl | rfl <;> exact hlanes

theorem meaning_undef : meaning args ⟨.undef, ops, [t], attr⟩ [] [] = .ok (.ofNumber t 0) := by
  have hlanes : List.replicate t.laneCount 0 = (Datum.ofNumber t 0).lanes := by
    rw [Datum.lanes_ofNumber, Word.limbs_eq_map]
    simp only [Nat.zero_div, Nat.zero_mod, List.map_const', List.length_range]
  simp only [meaning, Eval.compute, hlanes, (Datum.fits_ofNumber t 0).shape]
  rfl

/-! ### Words -/

theorem lanewise_scalar (ht : t.isVector = false) {f : Nat → Except EvalError Nat} {x z : Nat}
    (hf : f x = .ok z) : Eval.lanewise t f (.scalar x) = .ok (.scalar z) := by
  simp only [Eval.lanewise, Datum.lanes, List.mapM_cons, List.mapM_nil, hf, ok_bind, pure_bind]
  rw [Datum.ofLanes_scalar ht]
  rfl

theorem lanewise₂_scalar (ht : t.isVector = false) {f : Nat → Nat → Except EvalError Nat}
    {x y z : Nat} (hf : f x y = .ok z) :
    Eval.lanewise₂ t f (.scalar x) (.scalar y) = .ok (.scalar z) := by
  simp only [Eval.lanewise₂, Datum.lanes, List.zip_cons_cons, List.zip_nil_right, List.mapM_cons,
    List.mapM_nil, hf, ok_bind, pure_bind]
  rw [Datum.ofLanes_scalar ht]
  rfl

theorem meaning_int (ht : t.IsWord) {x y : Nat} (hx : x < 2 ^ t.bits) (hy : y < 2 ^ t.bits)
    (op : IntOp) (types : List ValueType) :
    meaning args ⟨.int op, ops, [t], attr⟩ [.scalar x, .scalar y] types =
      .ok (.scalar (Word.value op t.bits x y)) := by
  have hbits : t.bits ≤ 64 ∨ t.bits = 128 := by
    have := ht.bits_cases
    omega
  show (if t.isInt then Eval.lanewise₂ t (fun a b => liftM (Word.binary op t.laneBits a b))
    (.scalar x) (.scalar y) else throw _) = _
  rw [if_pos ht.1, lanewise₂_scalar ht.2]
  rw [ht.laneBits_eq, Word.binary_eq op t.bits_pos hbits hx hy]
  rfl

/-- Truncation and the extensions other than that of the sign, of a value of one lane. -/
theorem meaning_cutLane {op : Opcode} (hop : op = .truncate ∨ op = .zeroExtend ∨ op = .anyExtend)
    (ht : t.IsWord) {d : Datum} {x : Nat} (hd : d.lanes = [x]) (types : List ValueType) :
    meaning args ⟨op, ops, [t], attr⟩ [d] types = .ok (.scalar (x % 2 ^ t.bits)) := by
  have hlane : Eval.lanewise t (fun a => .ok (Word.low t.laneBits a)) d =
      .ok (.scalar (x % 2 ^ t.bits)) := by
    have hlanes (f : Nat → Except EvalError Nat) :
        Eval.lanewise t f d = Eval.lanewise t f (.scalar x) := by
      rw [Eval.lanewise, Eval.lanewise, hd, Datum.lanes]
    rw [hlanes]
    exact lanewise_scalar ht.2 (by rw [Word.low_eq t.laneBits_le, ht.laneBits_eq])
  rcases hop with rfl | rfl | rfl <;> exact hlane

theorem meaning_cut {op : Opcode} (hop : op = .truncate ∨ op = .zeroExtend ∨ op = .anyExtend)
    (ht : t.IsWord) (x : Nat) (types : List ValueType) :
    meaning args ⟨op, ops, [t], attr⟩ [.scalar x] types = .ok (.scalar (x % 2 ^ t.bits)) :=
  meaning_cutLane hop ht rfl types

theorem meaning_signExtend (ht : t.IsWord) (hu : u.IsWord) (hut : u.bits < t.bits) {x : Nat}
    (hx : x < 2 ^ u.bits) :
    meaning args ⟨.signExtend, ops, [t], attr⟩ [.scalar x] [u] =
      .ok (.scalar (Word.extend u.bits t.bits x)) := by
  show Eval.lanewise t (fun a => .ok (Word.ofInt t.laneBits (Word.signed u.laneBits a)))
    (.scalar x) = _
  refine lanewise_scalar ht.2 ?_
  rw [ht.laneBits_eq, hu.laneBits_eq, Word.ofInt_signed u.bits_pos (Nat.le_of_lt hut) ht.bits_le hx]

theorem meaning_setcc (ht : t.IsWord) (c : Condition) (x y : Nat) :
    meaning args ⟨.setcc, ops, [t], .cond c⟩ [.scalar x, .scalar y] [u, u] =
      .ok (.scalar (c.test u.bits x y).toNat) := by
  have hholds := Condition.holds_eq u.bits_pos c x y
  simp only [meaning, Eval.compute, ht.2, Bool.false_eq_true, if_false, cond?]
  show ((liftM (c.holds u.bits x y) : Except EvalError Bool) >>= fun b =>
    pure (Datum.scalar b.toNat)) = _
  rw [hholds]
  rfl

theorem meaning_select {k : Nat} (d d' : Datum) (types : List ValueType) :
    meaning args ⟨.select, ops, [t], attr⟩ [.scalar k, d, d'] types =
      .ok (if k ≠ 0 then d else d') := by
  show (if k ≠ 0 then Except.ok d else .ok d') = _
  split <;> rfl

theorem meaning_count (ht : t.IsWord) {x : Nat} (hx : x < 2 ^ t.bits) (op : BitCount)
    (types : List ValueType) :
    meaning args ⟨.count op, ops, [t], attr⟩ [.scalar x] types =
      .ok (.scalar (Word.count op t.bits x)) := by
  show Eval.lanewise t (fun a => liftM (Eval.bitCount op t.laneBits a)) (.scalar x) = _
  refine lanewise_scalar ht.2 ?_
  rw [ht.laneBits_eq, Word.bitCount_eq op ht.bits_le hx]
  rfl

/-! ### Reinterpretation -/

theorem meaning_bitcast {d : Datum} (hd : d.Fits u) (h : u.bits = t.bits) :
    meaning args ⟨.bitcast, ops, [t], attr⟩ [d] [u] = .ok (.ofNumber t (d.number u)) := by
  show (liftM ((BitString.ofDatum d u).readDatum 0 t) : Except EvalError Datum) = _
  rw [BitString.readDatum_ofDatum hd h]
  rfl

/-- A pair has the bits of its halves, the low half first. -/
theorem meaning_buildPair {d e : Datum} (hd : d.Fits u) (he : e.Fits u) (h : t.bits = 2 * u.bits) :
    meaning args ⟨.buildPair, ops, [t], attr⟩ [d, e] [u, u] =
      .ok (.ofNumber t (d.number u + 2 ^ u.bits * e.number u)) := by
  have hle := t.bits_le
  show (liftM (((BitString.ofDatum d u).pushDatum e u).readDatum 0 t) :
    Except EvalError Datum) = _
  rw [BitString.pushDatum_eq, BitString.ofDatum_eq hd, BitString.ofDatum_eq he,
    BitString.ofNumber_append, BitString.readDatum_eq _ (by omega), BitString.number_ofNumber,
    Nat.mod_eq_of_lt hd.number_lt, Nat.pow_zero, Nat.div_one, ← Nat.two_mul, ← h,
    Datum.ofNumber_mod]
  rfl

/-! ### Vectors -/

theorem meaning_buildVector {xs : List Nat} (hops : ops.length = xs.length)
    (types : List ValueType) :
    meaning args ⟨.buildVector, ops, [t], attr⟩ (xs.map .scalar) types =
      .ok (.vector (xs.map (· % 2 ^ t.laneBits))) := by
  have hlanes : (List.range ops.length).mapM (fun i => do
      let d ← (xs.map Datum.scalar)[i]?.elim (Except.error (EvalError.missingOperand 0 i)) .ok
      let x ← (liftM d.first : Except EvalError Nat)
      return Word.low t.laneBits x) = .ok (xs.map (· % 2 ^ t.laneBits)) := by
    have hmap : xs.map (· % 2 ^ t.laneBits) =
        (List.range ops.length).map fun i => (xs[i]?.getD 0) % 2 ^ t.laneBits := by
      refine List.ext_getElem? fun i => ?_
      by_cases hi : i < ops.length
      · have hlt : i < xs.length := hops ▸ hi
        simp only [List.getElem?_map, List.getElem?_range hi, List.getElem?_eq_getElem hlt,
          Option.map_some, Option.getD_some]
      · rw [List.getElem?_eq_none (by simp; omega), List.getElem?_eq_none (by simp; omega)]
    rw [hmap]
    refine mapM_of_ok fun i hi => ?_
    have hlt : i < xs.length := hops ▸ List.mem_range.1 hi
    rw [List.getElem?_map, List.getElem?_eq_getElem hlt]
    show Except.ok (Word.low t.laneBits xs[i]) = _
    rw [Word.low_eq t.laneBits_le, Option.getD_some]
  show (_ >>= fun ys => pure (Datum.vector ys) : Except EvalError Datum) = _
  rw [hlanes]
  rfl

theorem meaning_extract {l : List Nat} {k x : Nat} (hx : l[k % 2 ^ 64]? = some x)
    (types : List ValueType) :
    meaning args ⟨.extractElement, ops, [t], attr⟩ [.vector l, .scalar k] types =
      .ok (.scalar x) := by
  show Eval.laneAt _ (.vector l) k = _
  rw [Eval.laneAt, Datum.lanes, Word.bound_eq, hx]

theorem meaning_insert {l : List Nat} {k x : Nat} (ht : t.isVector = true)
    (hk : k % 2 ^ 64 < l.length) (types : List ValueType) :
    meaning args ⟨.insertElement, ops, [t], attr⟩ [.vector l, .scalar x, .scalar k] types =
      .ok (.vector (l.set (k % 2 ^ 64) (x % 2 ^ t.laneBits))) := by
  show Eval.withLane t (.vector l) x k = _
  simp only [Eval.withLane, Datum.lanes, Word.bound_eq, if_pos hk, Word.low_eq t.laneBits_le,
    Datum.ofLanes_vector ht]
  rfl

/-- The lane that an entry of a shuffle selects. -/
def selected (inputs : List Nat) (lane : Option Nat) : Nat :=
  match lane with
  | none => 0
  | some l => inputs[l]?.getD 0

theorem meaning_shuffle {l m : List Nat} {mask : List (Option Nat)} (ht : t.isVector = true)
    (hmask : ∀ k, some k ∈ mask → k < (l ++ m).length) (types : List ValueType) :
    meaning args ⟨.vectorShuffle, ops, [t], .mask mask⟩ [.vector l, .vector m] types =
      .ok (.vector (mask.map (selected (l ++ m)))) := by
  show Eval.shuffled t mask (l ++ m) = _
  unfold Eval.shuffled
  rw [mapM_of_ok (g := selected (l ++ m))]
  · rw [ok_bind, Datum.ofLanes_vector ht]
    rfl
  · intro lane hlane
    cases lane with
    | none => rfl
    | some k =>
      have hk := hmask k hlane
      simp only [selected, List.getElem?_eq_getElem hk]
      rfl

theorem meaning_concat {l m : List Nat} (types : List ValueType) :
    meaning args ⟨.concatVectors, ops, [t], attr⟩ [.vector l, .vector m] types =
      .ok (.vector (l ++ m)) := rfl

/-! ### Lane by lane -/

/-- Operations with two operands that work lane by lane. -/
def lane₂ (op : Opcode) (t : ValueType) (x y : Nat) : Except EvalError Nat :=
  match op with
  | .int op => liftM (Word.binary op t.laneBits x y)
  | .float op =>
    match FloatBits.binary? op t.scalar x y with
    | some r => .ok r
    | none => .error (.unsupported (.float op) t)
  | _ => .ok (Word.clear x (FloatBits.signMask t.scalar) ||| (y &&& FloatBits.signMask t.scalar))

/-- Operations with one operand that work lane by lane. -/
def lane₁ (op : Opcode) (t : ValueType) (x : Nat) : Except EvalError Nat :=
  match op with
  | .count op => liftM (Eval.bitCount op t.laneBits x)
  | .fneg => .ok (x ^^^ FloatBits.signMask t.scalar)
  | _ => .ok (Word.clear x (FloatBits.signMask t.scalar))

/-- Lanes are combined alike in all types of one lane type. -/
theorem lane₂_congr {op : Opcode} (h : u.scalar = t.scalar) {x y z : Nat}
    (hz : lane₂ op t x y = .ok z) : lane₂ op u x y = .ok z := by
  have hbits : u.laneBits = t.laneBits := by
    rw [← ValueType.laneBits_scalar u, h, ValueType.laneBits_scalar]
  unfold lane₂ at hz ⊢
  rw [h, hbits]
  cases op with
  | float op =>
    dsimp only at hz ⊢
    split at hz
    · exact hz
    · cases hz
  | _ => exact hz

theorem lane₁_congr {op : Opcode} (h : u.scalar = t.scalar) : lane₁ op u = lane₁ op t := by
  have hbits : u.laneBits = t.laneBits := by
    rw [← ValueType.laneBits_scalar u, h, ValueType.laneBits_scalar]
  funext x
  unfold lane₁
  rw [h, hbits]

variable {wide : ValueType → ValueType → Prop}

theorem meaning_lanes₂ {op : Opcode} (hsig : Signature wide op [t, t] t)
    (hop : op.isIntBinary ∨ op.isFloatBinary) (a b : Datum) (types : List ValueType) :
    meaning args ⟨op, ops, [t], attr⟩ [a, b] types = Eval.lanewise₂ t (lane₂ op t) a b := by
  cases hsig with
  | int hint =>
    show (if t.isInt then _ else throw _ : Except EvalError Datum) = _
    rw [if_pos hint]
    rfl
  | float | fcopysign => rfl
  | _ => simp [Opcode.isIntBinary, Opcode.isFloatBinary] at hop

theorem meaning_lanes₁ {op : Opcode} (hop : op.isSameTypeUnary) (hpair : op = .fabs → t.scalar ≠ .ppcf128)
    (a : Datum) (types : List ValueType) :
    meaning args ⟨op, ops, [t], attr⟩ [a] types = Eval.lanewise t (lane₁ op t) a := by
  cases op with
  | fabs =>
    show (if t.scalar = .ppcf128 then throw _ else _ : Except EvalError Datum) = _
    rw [if_neg (hpair rfl)]
    rfl
  | count | fneg => rfl
  | _ => cases hop

theorem lanewise_vector (ht : t.isVector = true) {f : Nat → Except EvalError Nat} {l : List Nat}
    {d : Datum} : Eval.lanewise t f (.vector l) = .ok d ↔ ∃ r, l.mapM f = .ok r ∧ d = .vector r := by
  simp only [Eval.lanewise, Datum.lanes]
  cases hr : l.mapM f with
  | error e =>
    simp only [reduceCtorEq, false_and, exists_false, iff_false]
    intro h
    cases h
  | ok r =>
    rw [ok_bind, Datum.ofLanes_vector ht, liftM_ok]
    simp [eq_comm]

theorem lanewise₂_vector (ht : t.isVector = true) {f : Nat → Nat → Except EvalError Nat}
    {l m : List Nat} {d : Datum} : Eval.lanewise₂ t f (.vector l) (.vector m) = .ok d ↔
      ∃ r, (l.zip m).mapM (fun (x, y) => f x y) = .ok r ∧ d = .vector r := by
  simp only [Eval.lanewise₂, Datum.lanes]
  cases hr : (l.zip m).mapM (fun (x, y) => f x y) with
  | error e =>
    simp only [reduceCtorEq, false_and, exists_false, iff_false]
    intro h
    cases h
  | ok r =>
    rw [ok_bind, Datum.ofLanes_vector ht, liftM_ok]
    simp [eq_comm]

/-- The halves of a vector are combined on their own. -/
theorem meaning_split₂ {op : Opcode} (hsig : Signature wide op [t, t] t)
    (hop : op.isIntBinary ∨ op.isFloatBinary) (hu : t.half? = some u) {l l' m m' : List Nat}
    (hlen : l.length = m.length) {d : Datum} {types : List ValueType}
    (hd : meaning args ⟨op, ops, [t], attr⟩ [.vector (l ++ l'), .vector (m ++ m')] types = .ok d) :
    ∃ r r', d = .vector (r ++ r') ∧ ∀ ops attr types,
      meaning args ⟨op, ops, [u], attr⟩ [.vector l, .vector m] types = .ok (.vector r) ∧
      meaning args ⟨op, ops, [u], attr⟩ [.vector l', .vector m'] types = .ok (.vector r') := by
  obtain ⟨ht, hvector, hscalar, _⟩ := ValueType.half?_eq_some hu
  rw [meaning_lanes₂ hsig hop, lanewise₂_vector ht] at hd
  obtain ⟨z, hz, rfl⟩ := hd
  rw [List.zip_append hlen, mapM_append_eq_ok] at hz
  obtain ⟨r, r', hr, hr', rfl⟩ := hz
  have hcongr : ∀ (p : Nat × Nat) z, lane₂ op t p.1 p.2 = .ok z → lane₂ op u p.1 p.2 = .ok z :=
    fun p z => lane₂_congr hscalar
  refine ⟨r, r', rfl, fun ops attr types => ?_⟩
  have hsig' := hsig.retype₂ hop hscalar
  rw [meaning_lanes₂ hsig' hop, meaning_lanes₂ hsig' hop, lanewise₂_vector hvector,
    lanewise₂_vector hvector]
  exact ⟨⟨r, mapM_mono_ok hcongr hr, rfl⟩, r', mapM_mono_ok hcongr hr', rfl⟩

/-- A vector of one lane is combined like its lane. -/
theorem meaning_lane₂ {op : Opcode} (hsig : Signature wide op [t, t] t)
    (hop : op.isIntBinary ∨ op.isFloatBinary) (ht : t.isVector = true) {x y : Nat} {d : Datum}
    {types : List ValueType}
    (hd : meaning args ⟨op, ops, [t], attr⟩ [.vector [x], .vector [y]] types = .ok d) :
    ∃ z, d = .vector [z] ∧ ∀ ops attr types,
      meaning args ⟨op, ops, [t.scalar], attr⟩ [.scalar x, .scalar y] types = .ok (.scalar z) := by
  rw [meaning_lanes₂ hsig hop, lanewise₂_vector ht] at hd
  obtain ⟨r, hr, rfl⟩ := hd
  have hscalar := ValueType.scalar_scalar t
  simp only [List.zip_cons_cons, List.zip_nil_right, List.mapM_cons, List.mapM_nil] at hr
  cases hz : lane₂ op t x y with
  | error e =>
    rw [hz] at hr
    cases hr
  | ok z =>
    rw [hz] at hr
    cases hr
    refine ⟨z, rfl, fun ops attr types => ?_⟩
    rw [meaning_lanes₂ (hsig.retype₂ hop hscalar) hop]
    exact lanewise₂_scalar (ValueType.isVector_scalar t) (lane₂_congr hscalar hz)

theorem fabs_of_meaning {op : Opcode} {a d : Datum} {types : List ValueType}
    (hd : meaning args ⟨op, ops, [t], attr⟩ [a] types = .ok d) :
    op = .fabs → t.scalar ≠ .ppcf128 := by
  rintro rfl hpair
  have h : meaning args ⟨.fabs, ops, [t], attr⟩ [a] types =
      if t.scalar = .ppcf128 then .error (.unsupported .fabs t)
      else Eval.lanewise t (lane₁ .fabs t) a := rfl
  rw [h, if_pos hpair] at hd
  cases hd

theorem meaning_split₁ {op : Opcode} (hop : op.isSameTypeUnary) (hu : t.half? = some u)
    {l l' : List Nat} {d : Datum} {types : List ValueType}
    (hd : meaning args ⟨op, ops, [t], attr⟩ [.vector (l ++ l')] types = .ok d) :
    ∃ r r', d = .vector (r ++ r') ∧ ∀ ops attr types,
      meaning args ⟨op, ops, [u], attr⟩ [.vector l] types = .ok (.vector r) ∧
      meaning args ⟨op, ops, [u], attr⟩ [.vector l'] types = .ok (.vector r') := by
  obtain ⟨ht, hvector, hscalar, _⟩ := ValueType.half?_eq_some hu
  have hpair := fabs_of_meaning hd
  rw [meaning_lanes₁ hop hpair, lanewise_vector ht, ← lane₁_congr hscalar] at hd
  obtain ⟨z, hz, rfl⟩ := hd
  obtain ⟨r, r', hr, hr', rfl⟩ := mapM_append_eq_ok.1 hz
  refine ⟨r, r', rfl, fun ops attr types => ?_⟩
  rw [meaning_lanes₁ hop (hscalar ▸ hpair), meaning_lanes₁ hop (hscalar ▸ hpair),
    lanewise_vector hvector, lanewise_vector hvector]
  exact ⟨⟨r, hr, rfl⟩, r', hr', rfl⟩

theorem meaning_lane₁ {op : Opcode} (hop : op.isSameTypeUnary) (ht : t.isVector = true) {x : Nat}
    {d : Datum} {types : List ValueType}
    (hd : meaning args ⟨op, ops, [t], attr⟩ [.vector [x]] types = .ok d) :
    ∃ z, d = .vector [z] ∧ ∀ ops attr types,
      meaning args ⟨op, ops, [t.scalar], attr⟩ [.scalar x] types = .ok (.scalar z) := by
  have hscalar := ValueType.scalar_scalar t
  have hpair := fabs_of_meaning hd
  rw [meaning_lanes₁ hop hpair, lanewise_vector ht] at hd
  obtain ⟨r, hr, rfl⟩ := hd
  simp only [List.mapM_cons, List.mapM_nil] at hr
  cases hz : lane₁ op t x with
  | error e =>
    rw [hz] at hr
    cases hr
  | ok z =>
    rw [hz] at hr
    cases hr
    refine ⟨z, rfl, fun ops attr types => ?_⟩
    rw [meaning_lanes₁ hop (by rw [hscalar]; exact hpair)]
    exact lanewise_scalar (ValueType.isVector_scalar t) (by rw [lane₁_congr hscalar, hz])

end

end Node

end Dataflow
