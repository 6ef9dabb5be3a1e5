import Dataflow.Proofs.Liberties
import Dataflow.Proofs.Live
import Dataflow.Proofs.Meaning
import Dataflow.Proofs.Widths
import Mathlib.Data.List.Forall2

/-!
# When a node has a datum

A well-typed node has a datum of the type of its result, whatever data of their types its operands
have. Five kinds of operation are partial: arguments may not be supplied, lanes may not exist, and
double-doubles have no arithmetic. Where such a node has no datum, evaluation reports it.
-/

namespace Dataflow

/-- The errors that evaluation of a well-typed node can report, by its operation. -/
def EvalError.Reports (op : Opcode) : EvalError → Prop
  | missingArgument _ => op = .argument
  | indexOutOfRange _ _ => op = .extractElement ∨ op = .insertElement ∨ op = .vectorShuffle
  | unsupported op' t => op' = op ∧ t = .ppcf128 ∧ (op = .fabs ∨ ∃ f, op = .float f)
  | noRoot | unevaluated _ | missingOperand _ _ | fault _ => False

namespace Node

/-- The attribute of a node is of the kind that its operation reads. -/
def Equipped (n : Node) : Prop :=
  match n.opcode with
  | .argument => ∃ index offset, n.attr = .arg index offset ∧ offset < 2 ^ 31
  | .constant | .constantFp => ∃ bits, n.attr = .imm bits
  | .setcc => ∃ c, n.attr = .cond c
  | .vectorShuffle => ∃ lanes, n.attr = .mask lanes ∧ ∀ t ∈ n.results, lanes.length = t.lanes
  | _ => True

/-- What a partial operation asks for. -/
def Defined (args : Array BitString) (n : Node) (data : List Datum) (types : List ValueType) :
    Prop :=
  match n.opcode with
  | .argument => ∀ index offset, n.attr = .arg index offset → index < args.size
  | .extractElement => ∀ u k, types[0]? = some u → data[1]? = some (.scalar k) →
    k % 2 ^ 64 < u.lanes
  | .insertElement => ∀ u k, types[0]? = some u → data[2]? = some (.scalar k) →
    k % 2 ^ 64 < u.lanes
  | .vectorShuffle => ∀ u lanes l, types[0]? = some u → n.attr = .mask lanes → some l ∈ lanes →
    l < 2 * u.lanes
  | .float _ | .fabs => .ppcf128 ∉ n.results
  | _ => True

/-- A datum of type `t` where it is `defined`, and elsewhere an error that the operation reports. -/
def Settles (op : Opcode) (t : ValueType) (defined : Prop) (x : Except EvalError Datum) : Prop :=
  (defined ∧ ∃ d, x = .ok d ∧ d.Fits t) ∨ (¬ defined ∧ ∃ e, x = .error e ∧ e.Reports op)

section
variable {args : Array BitString} {ops : List Value} {attr : Attr} {t u : ValueType}
  {wide : ValueType → ValueType → Prop} {op : Opcode} {d d' : Datum}

theorem Settles.of_ok {x : Except EvalError Datum} (hx : x = .ok d) (hd : d.Fits t) :
    Settles op t True x :=
  .inl ⟨trivial, d, hx, hd⟩

/-! ### Lane by lane -/

theorem ofLanes_fits {l : List Nat} (hlen : l.length = t.laneCount)
    (hlt : ∀ x ∈ l, x < 2 ^ t.laneBits) : ∃ d, Datum.ofLanes t l = .ok d ∧ d.Fits t := by
  cases ht : t.isVector with
  | true =>
    rw [ValueType.laneCount_eq_lanes ht] at hlen
    exact ⟨_, Datum.ofLanes_vector ht l, Datum.fits_vector.2 ⟨ht, hlen, hlt⟩⟩
  | false =>
    rw [ValueType.laneCount_eq_one ht] at hlen
    obtain ⟨x, rfl⟩ := List.length_eq_one_iff.1 hlen
    refine ⟨_, Datum.ofLanes_scalar ht x, Datum.fits_scalar.2 ⟨ht, ?_⟩⟩
    rw [ValueType.bits_eq_laneBits ht]
    exact hlt x (List.mem_singleton.2 rfl)

theorem mapM_ok_of_forall {α : Type} {f : α → Except EvalError Nat} {xs : List α} {m : Nat}
    (h : ∀ x ∈ xs, ∃ z, f x = .ok z ∧ z < m) :
    ∃ ys, xs.mapM f = .ok ys ∧ ys.length = xs.length ∧ ∀ y ∈ ys, y < m := by
  induction xs with
  | nil => exact ⟨[], rfl, rfl, by simp⟩
  | cons x xs ih =>
    obtain ⟨z, hz, hlt⟩ := h x List.mem_cons_self
    obtain ⟨ys, hys, hlen, hall⟩ := ih fun y hy => h y (List.mem_cons_of_mem x hy)
    refine ⟨z :: ys, by rw [List.mapM_cons, hz, hys]; rfl, by simp [hlen], fun y hy => ?_⟩
    rcases List.mem_cons.1 hy with rfl | hy
    · exact hlt
    · exact hall y hy

theorem lanewise_fits {f : Nat → Except EvalError Nat} (hd : d.Fits u)
    (hcount : u.laneCount = t.laneCount)
    (hf : ∀ x, x < 2 ^ u.laneBits → ∃ z, f x = .ok z ∧ z < 2 ^ t.laneBits) :
    ∃ e, Eval.lanewise t f d = .ok e ∧ e.Fits t := by
  obtain ⟨ys, hys, hlen, hlt⟩ := mapM_ok_of_forall fun x hx => hf x (hd.lt x hx)
  obtain ⟨e, he, hfits⟩ := ofLanes_fits (by rw [hlen, hd.length, hcount]) hlt
  refine ⟨e, ?_, hfits⟩
  rw [Eval.lanewise, hys, ok_bind, he]
  rfl

theorem lanewise₂_fits {f : Nat → Nat → Except EvalError Nat} (hd : d.Fits t) (hd' : d'.Fits t)
    (hf : ∀ x y, x < 2 ^ t.laneBits → y < 2 ^ t.laneBits → ∃ z, f x y = .ok z ∧ z < 2 ^ t.laneBits) :
    ∃ e, Eval.lanewise₂ t f d d' = .ok e ∧ e.Fits t := by
  have hzip (p : Nat × Nat) (hp : p ∈ d.lanes.zip d'.lanes) :
      ∃ z, f p.1 p.2 = .ok z ∧ z < 2 ^ t.laneBits := by
    obtain ⟨hx, hy⟩ := List.of_mem_zip hp
    exact hf p.1 p.2 (hd.lt _ hx) (hd'.lt _ hy)
  obtain ⟨ys, hys, hlen, hlt⟩ := mapM_ok_of_forall hzip
  obtain ⟨e, he, hfits⟩ := ofLanes_fits
    (by rw [hlen, List.length_zip, hd.length, hd'.length, Nat.min_self]) hlt
  refine ⟨e, ?_, hfits⟩
  rw [Eval.lanewise₂, hys, ok_bind, he]
  rfl

/-- Integer lanes are combined within their width. -/
theorem lane₂_int_lt (ht : t.isInt = true) (op : IntOp) {x y : Nat} (hx : x < 2 ^ t.laneBits)
    (hy : y < 2 ^ t.laneBits) : ∃ z, lane₂ (.int op) t x y = .ok z ∧ z < 2 ^ t.laneBits := by
  have hbits : t.laneBits ≤ 64 ∨ t.laneBits = 128 := by
    have := ((ValueType.isWord_scalar t).2 ht).bits_cases
    rw [ValueType.bits_eq_laneBits t.isVector_scalar, t.laneBits_scalar] at this
    omega
  refine ⟨Word.value op t.laneBits x y, ?_, Word.value_lt op t.laneBits_pos hx hy⟩
  rw [lane₂, Word.binary_eq op t.laneBits_pos hbits hx hy]
  rfl

theorem signMask_lt (t : ValueType) : FloatBits.signMask t.scalar < 2 ^ t.laneBits := by
  cases t <;> decide

theorem clear_lt {x n : Nat} (hx : x < 2 ^ n) (y : Nat) : Word.clear x y < 2 ^ n :=
  Nat.xor_lt_two_pow hx (Nat.lt_of_le_of_lt Nat.and_le_left hx)

theorem lane₂_copysign_lt {x y : Nat} (hx : x < 2 ^ t.laneBits) :
    ∃ z, lane₂ .fcopysign t x y = .ok z ∧ z < 2 ^ t.laneBits :=
  ⟨_, rfl, Nat.or_lt_two_pow (clear_lt hx _) (Nat.and_lt_two_pow y (signMask_lt t))⟩

/-- Single and double floats have arithmetic. -/
theorem lane₂_float_lt (ht : t.isFloat = true) (hpair : t ≠ .ppcf128) (op : FloatOp) (x y : Nat) :
    ∃ z, lane₂ (.float op) t x y = .ok z ∧ z < 2 ^ t.laneBits := by
  have hscalar : t.scalar = .f32 ∧ t.laneBits = 32 ∨ t.scalar = .f64 ∧ t.laneBits = 64 := by
    revert ht hpair
    cases t <;> decide
  rcases hscalar with ⟨hs, hbits⟩ | ⟨hs, hbits⟩
  · refine ⟨_, by simp only [lane₂, hs, FloatBits.binary?]; rfl, ?_⟩
    rw [hbits]
    exact UInt32.toNat_lt _
  · refine ⟨_, by simp only [lane₂, hs, FloatBits.binary?]; rfl, ?_⟩
    rw [hbits]
    exact UInt64.toNat_lt _

theorem lane₁_lt (hop : op.isSameTypeUnary) {x : Nat} (hx : x < 2 ^ t.laneBits) :
    ∃ z, lane₁ op t x = .ok z ∧ z < 2 ^ t.laneBits := by
  cases op with
  | count op =>
    refine ⟨Word.count op t.laneBits x, ?_, ?_⟩
    · rw [lane₁, Word.bitCount_eq op t.laneBits_le hx]
      rfl
    · exact Word.count_lt op t.laneBits x
  | fneg => exact ⟨_, rfl, Nat.xor_lt_two_pow hx (signMask_lt t)⟩
  | fabs => exact ⟨_, rfl, clear_lt hx _⟩
  | _ => cases hop

/-- Operations with two operands that work lane by lane, other than arithmetic of
double-doubles. -/
theorem settles_lanes₂ (hsig : Signature wide op [t, t] t) (hop : op.isIntBinary ∨ op.isFloatBinary)
    (hd : d.Fits t) (hd' : d'.Fits t) :
    Settles op t (Defined args ⟨op, ops, [t], attr⟩ [d, d'] [t, t])
      (meaning args ⟨op, ops, [t], attr⟩ [d, d'] [t, t]) := by
  rw [meaning_lanes₂ hsig hop]
  cases hsig with
  | int ht =>
    obtain ⟨e, he, hfits⟩ := lanewise₂_fits hd hd' fun x y => lane₂_int_lt ht _
    exact .of_ok he hfits
  | fcopysign ht =>
    obtain ⟨e, he, hfits⟩ := lanewise₂_fits hd hd' fun x y hx _ => lane₂_copysign_lt hx
    exact .of_ok he hfits
  | @float f _ ht =>
    by_cases hpair : t = .ppcf128
    · subst hpair
      obtain ⟨x, rfl, _⟩ := hd.eq_scalar rfl
      obtain ⟨y, rfl, _⟩ := hd'.eq_scalar rfl
      exact .inr ⟨fun h => h (List.mem_singleton.2 rfl), _, rfl, rfl, rfl, .inr ⟨f, rfl⟩⟩
    · obtain ⟨e, he, hfits⟩ := lanewise₂_fits hd hd' fun x y _ _ => lane₂_float_lt ht hpair f x y
      exact .inl ⟨fun h => hpair (List.mem_singleton.1 h).symm, e, he, hfits⟩
  | _ => simp [Opcode.isIntBinary, Opcode.isFloatBinary] at hop

theorem scalar_ne_ppcf128 (h : t ≠ .ppcf128) : t.scalar ≠ .ppcf128 := by
  revert h
  cases t <;> decide

theorem settles_lanes₁ (hop : op.isSameTypeUnary) (hd : d.Fits t) :
    Settles op t (Defined args ⟨op, ops, [t], attr⟩ [d] [t])
      (meaning args ⟨op, ops, [t], attr⟩ [d] [t]) := by
  by_cases hpair : op = .fabs ∧ t = .ppcf128
  · obtain ⟨rfl, rfl⟩ := hpair
    exact .inr ⟨fun h => h (List.mem_singleton.2 rfl), _, rfl, rfl, rfl, .inl rfl⟩
  · obtain ⟨e, he, hfits⟩ := lanewise_fits hd rfl fun x => lane₁_lt hop
    rw [meaning_lanes₁ hop fun h => scalar_ne_ppcf128 fun ht => hpair ⟨h, ht⟩]
    refine .inl ⟨?_, e, he, hfits⟩
    cases op with
    | count | fneg => trivial
    | fabs => exact fun h => hpair ⟨rfl, (List.mem_singleton.1 h).symm⟩
    | _ => cases hop

/-! ### Partial operations -/

theorem settles_argument (heq : Equipped ⟨.argument, ops, [t], attr⟩) :
    Settles .argument t (Defined args ⟨.argument, ops, [t], attr⟩ [] [])
      (meaning args ⟨.argument, ops, [t], attr⟩ [] []) := by
  obtain ⟨index, offset, rfl, hoffset⟩ := heq
  cases hs : args[index]? with
  | some s =>
    have hle := t.bits_le
    have hlt : index < args.size := (Array.getElem?_eq_some_iff.1 hs).1
    refine .inl ⟨fun i o h => ?_, _, meaning_argument hs (by omega), Datum.fits_ofNumber t _⟩
    cases h
    exact hlt
  | none =>
    refine .inr ⟨fun h => ?_, .missingArgument index, ?_, rfl⟩
    · exact absurd (h index offset rfl) (Nat.not_lt_of_le (Array.getElem?_eq_none_iff.1 hs))
    · simp only [meaning, Eval.compute, arg?, hs]
      rfl

theorem settles_extract {i : ValueType} (hu : u.isVector = true) (ht : t.isVector = false)
    (hle : u.laneBits ≤ t.bits) (hi : i.IsWord) (hd : d.Fits u) (hd' : d'.Fits i) :
    Settles .extractElement t (Defined args ⟨.extractElement, ops, [t], attr⟩ [d, d'] [u, i])
      (meaning args ⟨.extractElement, ops, [t], attr⟩ [d, d'] [u, i]) := by
  obtain ⟨l, rfl, hlen, hlt⟩ := hd.eq_vector hu
  obtain ⟨k, rfl, _⟩ := hd'.eq_scalar hi.2
  by_cases hk : k % 2 ^ 64 < u.lanes
  · have hx := List.getElem?_eq_getElem (hlen.symm ▸ hk : k % 2 ^ 64 < l.length)
    refine .inl ⟨fun u' k' hu' hk' => ?_, _, meaning_extract hx _, ?_⟩
    · cases hu'
      cases hk'
      exact hk
    · refine Datum.fits_scalar.2 ⟨ht, ?_⟩
      exact Nat.lt_of_lt_of_le (hlt _ (List.getElem_mem _)) (Nat.pow_le_pow_right (by decide) hle)
  · refine .inr ⟨fun h => hk (h u k rfl rfl), .indexOutOfRange k u, ?_, .inl rfl⟩
    show Eval.laneAt u (.vector l) k = _
    rw [Eval.laneAt, Datum.lanes, Word.bound_eq, List.getElem?_eq_none (by omega)]

theorem settles_insert {e i : ValueType} {d'' : Datum} (ht : t.isVector = true)
    (he : e.isVector = false) (hi : i.IsWord) (hd : d.Fits t) (hd' : d'.Fits e) (hd'' : d''.Fits i) :
    Settles .insertElement t (Defined args ⟨.insertElement, ops, [t], attr⟩ [d, d', d''] [t, e, i])
      (meaning args ⟨.insertElement, ops, [t], attr⟩ [d, d', d''] [t, e, i]) := by
  obtain ⟨l, rfl, hlen, hlt⟩ := hd.eq_vector ht
  obtain ⟨x, rfl, _⟩ := hd'.eq_scalar he
  obtain ⟨k, rfl, _⟩ := hd''.eq_scalar hi.2
  by_cases hk : k % 2 ^ 64 < t.lanes
  · refine .inl ⟨fun u' k' hu' hk' => ?_, _, meaning_insert ht (hlen.symm ▸ hk) _, ?_⟩
    · cases hu'
      cases hk'
      exact hk
    · refine Datum.fits_vector.2 ⟨ht, by rw [List.length_set, hlen], fun y hy => ?_⟩
      rcases List.mem_or_eq_of_mem_set hy with hy | rfl
      · exact hlt y hy
      · exact Nat.mod_lt _ (Nat.two_pow_pos _)
  · refine .inr ⟨fun h => hk (h t k rfl rfl), .indexOutOfRange k t, ?_, .inr (.inl rfl)⟩
    show Eval.withLane t (.vector l) x k = _
    rw [Eval.withLane, Datum.lanes, Word.bound_eq, if_neg (by omega)]

/-- A shuffle that names a lane that does not exist. -/
theorem shuffled_eq_error {mask : List (Option Nat)} {inputs : List Nat}
    (h : ¬ ∀ k, some k ∈ mask → k < inputs.length) :
    ∃ k, Eval.shuffled t mask inputs = .error (.indexOutOfRange k t) := by
  simp only [not_forall, Nat.not_lt] at h
  obtain ⟨k, hk, hge⟩ := h
  unfold Eval.shuffled
  generalize hrun : (mask.mapM _ : Except EvalError (List Nat)) = r
  cases r with
  | error e =>
    obtain ⟨lane, _, hlane⟩ := mapM_eq_error hrun
    cases lane with
    | none => cases hlane
    | some lane =>
      dsimp only at hlane
      split at hlane
      · cases hlane
      · cases hlane
        exact ⟨lane, rfl⟩
  | ok ys =>
    obtain ⟨hlen, hget⟩ := mapM_eq_ok hrun
    obtain ⟨i, hi⟩ := List.getElem?_of_mem hk
    have hlt : i < ys.length := hlen ▸ (List.getElem?_eq_some_iff.1 hi).1
    obtain ⟨x, hx, hy⟩ := hget i _ (List.getElem?_eq_getElem hlt)
    rw [hi] at hx
    cases hx
    dsimp only at hy
    rw [List.getElem?_eq_none hge] at hy
    cases hy

theorem settles_shuffle (hu : u.isVector = true) (ht : t.isVector = true) (hscalar : u.scalar = t.scalar)
    (heq : Equipped ⟨.vectorShuffle, ops, [t], attr⟩) (hd : d.Fits u) (hd' : d'.Fits u) :
    Settles .vectorShuffle t (Defined args ⟨.vectorShuffle, ops, [t], attr⟩ [d, d'] [u, u])
      (meaning args ⟨.vectorShuffle, ops, [t], attr⟩ [d, d'] [u, u]) := by
  obtain ⟨mask, rfl, hmask⟩ := heq
  have hlanes := hmask t (List.mem_singleton.2 rfl)
  obtain ⟨l, rfl, hlen, hlt⟩ := hd.eq_vector hu
  obtain ⟨m, rfl, hlen', hlt'⟩ := hd'.eq_vector hu
  have hbits : u.laneBits = t.laneBits := by
    rw [← ValueType.laneBits_scalar u, hscalar, ValueType.laneBits_scalar]
  have htwice : (l ++ m).length = 2 * u.lanes := by
    rw [List.length_append, hlen, hlen', Nat.two_mul]
  by_cases hall : ∀ k, some k ∈ mask → k < 2 * u.lanes
  · refine .inl ⟨fun u' mask' k hu' hmask' hk => ?_, _,
      meaning_shuffle ht (fun k hk => htwice ▸ hall k hk) _, ?_⟩
    · cases hu'
      cases hmask'
      exact hall k hk
    · refine Datum.fits_vector.2 ⟨ht, by rw [List.length_map, hlanes], fun y hy => ?_⟩
      obtain ⟨lane, hlane, rfl⟩ := List.mem_map.1 hy
      cases lane with
      | none => exact Nat.two_pow_pos _
      | some k =>
        have hk : k < (l ++ m).length := htwice ▸ hall k hlane
        rw [selected, List.getElem?_eq_getElem hk, Option.getD_some, ← hbits]
        rcases List.mem_append.1 (List.getElem_mem hk) with hmem | hmem
        · exact hlt _ hmem
        · exact hlt' _ hmem
  · refine .inr ⟨fun h => hall fun k hk => h u mask k rfl rfl hk, ?_⟩
    obtain ⟨k, hk⟩ := shuffled_eq_error (t := t) (htwice.symm ▸ hall)
    exact ⟨_, hk, .inr (.inr rfl)⟩

/-! ### Every operation -/

theorem scalars_of_fits {ts : List ValueType} {data : List Datum}
    (hdata : List.Forall₂ Datum.Fits data ts) (hts : ∀ t ∈ ts, t.isVector = false) :
    ∃ xs : List Nat, data = xs.map .scalar := by
  induction hdata with
  | nil => exact ⟨[], rfl⟩
  | @cons d t data ts hd _ ih =>
    obtain ⟨x, rfl, _⟩ := hd.eq_scalar (hts t List.mem_cons_self)
    obtain ⟨xs, rfl⟩ := ih fun u hu => hts u (List.mem_cons_of_mem t hu)
    exact ⟨x :: xs, rfl⟩

theorem settles_buildVector {es : List ValueType} {data : List Datum} (ht : t.isVector = true)
    (hlanes : es.length = t.lanes) (hes : ∀ e ∈ es, e.isVector = false)
    (hlen : ops.length = es.length) (hdata : List.Forall₂ Datum.Fits data es) :
    Settles .buildVector t True (meaning args ⟨.buildVector, ops, [t], attr⟩ data es) := by
  obtain ⟨xs, rfl⟩ := scalars_of_fits hdata hes
  have hxs : xs.length = es.length := by
    rw [← List.length_map (f := Datum.scalar), hdata.length_eq]
  refine .of_ok (meaning_buildVector (hlen.trans hxs.symm) es)
    (Datum.fits_vector.2 ⟨ht, by rw [List.length_map, hxs, hlanes], fun y hy => ?_⟩)
  obtain ⟨x, _, rfl⟩ := List.mem_map.1 hy
  exact Nat.mod_lt _ (Nat.two_pow_pos _)

/-- A well-typed node has a datum of the type of its result where it is defined, and is reported
elsewhere. -/
theorem meaning_settles {n : Node} {ts : List ValueType} {data : List Datum} (args : Array BitString)
    (hsig : Signature wide n.opcode ts t) (hres : n.results = [t]) (heq : n.Equipped)
    (hlen : n.operands.length = ts.length) (hdata : List.Forall₂ Datum.Fits data ts) :
    Settles n.opcode t (n.Defined args data ts) (n.meaning args data ts) := by
  obtain ⟨op, ops, results, attr⟩ := n
  dsimp only at hsig hres hlen
  subst hres
  cases hsig with
  | argument =>
    cases hdata
    exact settles_argument heq
  | constant | constantFp =>
    cases hdata
    obtain ⟨bits, rfl⟩ := heq
    obtain ⟨e, he, hfits⟩ := ofLanes_fits (t := t)
      (l := List.replicate t.laneCount (Word.low t.laneBits bits)) List.length_replicate
      fun x hx => by
        rw [List.eq_of_mem_replicate hx, Word.low_eq t.laneBits_le]
        exact Nat.mod_lt _ (Nat.two_pow_pos _)
    refine .of_ok (d := e) ?_ hfits
    show (liftM (Datum.ofLanes t _) : Except EvalError Datum) = _
    rw [he]
    rfl
  | undef =>
    cases hdata
    exact .of_ok meaning_undef (Datum.fits_ofNumber t 0)
  | int ht =>
    obtain _ | ⟨h₀, _ | ⟨h₁, ⟨⟩⟩⟩ := hdata
    exact settles_lanes₂ (show Signature wide _ _ t from .int ht) (.inl rfl) h₀ h₁
  | float ht =>
    obtain _ | ⟨h₀, _ | ⟨h₁, ⟨⟩⟩⟩ := hdata
    exact settles_lanes₂ (show Signature wide _ _ t from .float ht) (.inr rfl) h₀ h₁
  | fcopysign ht =>
    obtain _ | ⟨h₀, _ | ⟨h₁, ⟨⟩⟩⟩ := hdata
    exact settles_lanes₂ (show Signature wide _ _ t from .fcopysign ht) (.inr rfl) h₀ h₁
  | count ht | fneg ht | fabs ht =>
    obtain _ | ⟨h₀, ⟨⟩⟩ := hdata
    exact settles_lanes₁ rfl h₀
  | setcc hu ht =>
    obtain _ | ⟨h₀, _ | ⟨h₁, ⟨⟩⟩⟩ := hdata
    obtain ⟨c, rfl⟩ := heq
    obtain ⟨x, rfl, _⟩ := h₀.eq_scalar hu.2
    obtain ⟨y, rfl, _⟩ := h₁.eq_scalar hu.2
    refine .of_ok (meaning_setcc ht c x y) (Datum.fits_scalar.2 ⟨ht.2, ?_⟩)
    exact Nat.lt_of_le_of_lt (Bool.toNat_le _) (Nat.one_lt_two_pow t.bits_pos.ne')
  | select hc =>
    obtain _ | ⟨h₀, _ | ⟨h₁, _ | ⟨h₂, ⟨⟩⟩⟩⟩ := hdata
    obtain ⟨k, rfl, _⟩ := h₀.eq_scalar hc.2
    refine .of_ok (meaning_select _ _ _) ?_
    split <;> assumption
  | zeroExtend hu ht | anyExtend hu ht | truncate hu ht =>
    obtain _ | ⟨h₀, ⟨⟩⟩ := hdata
    obtain ⟨x, rfl, _⟩ := h₀.eq_scalar hu.2
    exact .of_ok (meaning_cut (by simp) ht x _)
      (Datum.fits_scalar.2 ⟨ht.2, Nat.mod_lt _ (Nat.two_pow_pos _)⟩)
  | signExtend hu ht hlt =>
    obtain _ | ⟨h₀, ⟨⟩⟩ := hdata
    obtain ⟨x, rfl, hx⟩ := h₀.eq_scalar hu.2
    exact .of_ok (meaning_signExtend ht hu hlt hx)
      (Datum.fits_scalar.2 ⟨ht.2, Word.extend_lt (Nat.le_of_lt hlt) hx⟩)
  | bitcast hbits =>
    obtain _ | ⟨h₀, ⟨⟩⟩ := hdata
    exact .of_ok (meaning_bitcast h₀ hbits) (Datum.fits_ofNumber t _)
  | buildPair hu hbits =>
    obtain _ | ⟨h₀, _ | ⟨h₁, ⟨⟩⟩⟩ := hdata
    exact .of_ok (meaning_buildPair h₀ h₁ hbits) (Datum.fits_ofNumber t _)
  | roundDoubleDouble =>
    obtain _ | ⟨h₀, ⟨⟩⟩ := hdata
    obtain ⟨x, rfl, _⟩ := h₀.eq_scalar rfl
    exact .of_ok rfl (Datum.fits_scalar.2 ⟨rfl, UInt64.toNat_lt _⟩)
  | roundDouble =>
    obtain _ | ⟨h₀, ⟨⟩⟩ := hdata
    obtain ⟨x, rfl, _⟩ := h₀.eq_scalar rfl
    exact .of_ok rfl (Datum.fits_scalar.2 ⟨rfl, UInt32.toNat_lt _⟩)
  | buildVector ht hlanes hes =>
    exact settles_buildVector ht hlanes (fun e he => (hes e he).isVector) hlen hdata
  | extractElement hu hcarries hi =>
    obtain _ | ⟨h₀, _ | ⟨h₁, ⟨⟩⟩⟩ := hdata
    exact settles_extract hu hcarries.isVector hcarries.laneBits_le hi h₀ h₁
  | insertElement ht hcarries hi =>
    obtain _ | ⟨h₀, _ | ⟨h₁, _ | ⟨h₂, ⟨⟩⟩⟩⟩ := hdata
    exact settles_insert ht hcarries.isVector hi h₀ h₁ h₂
  | vectorShuffle hu ht hscalar =>
    obtain _ | ⟨h₀, _ | ⟨h₁, ⟨⟩⟩⟩ := hdata
    exact settles_shuffle hu ht hscalar heq h₀ h₁
  | concatVectors hhalf =>
    obtain _ | ⟨h₀, _ | ⟨h₁, ⟨⟩⟩⟩ := hdata
    obtain ⟨ht, hu, _, hlanes⟩ := ValueType.half?_eq_some hhalf
    obtain ⟨l, rfl, hl, hlt⟩ := h₀.eq_vector hu
    obtain ⟨m, rfl, hm, hlt'⟩ := h₁.eq_vector hu
    refine .of_ok (meaning_concat _) (Datum.fits_vector.2 ⟨ht, ?_, fun x hx => ?_⟩)
    · rw [List.length_append, hl, hm, hlanes, Nat.two_mul]
    · rw [(ValueType.bits_half hhalf).1]
      exact (List.mem_append.1 hx).elim (hlt x) (hlt' x)

theorem settles_of_liberty {n : Node} {ts : List ValueType} {data : List Datum}
    (args : Array BitString) (h : Liberty n.opcode ts t) (hres : n.results = [t])
    (hlen : n.operands.length = ts.length) (hdata : List.Forall₂ Datum.Fits data ts) :
    Settles n.opcode t (n.Defined args data ts) (n.meaning args data ts) := by
  obtain ⟨op, ops, results, attr⟩ := n
  dsimp only at h hres hlen
  subst hres
  cases h with
  | elements ht hlanes hes =>
    refine settles_buildVector ht hlanes (fun e he => ?_) hlen hdata
    rcases hes e he with rfl | ⟨hword, _⟩
    · exact t.isVector_scalar
    · exact hword.2
  | element ht hword _ hi =>
    obtain _ | ⟨h₀, _ | ⟨h₁, _ | ⟨h₂, ⟨⟩⟩⟩⟩ := hdata
    exact settles_insert ht hword.2 hi h₀ h₁ h₂
  | lane hu _ ht hlt hi =>
    obtain _ | ⟨h₀, _ | ⟨h₁, ⟨⟩⟩⟩ := hdata
    exact settles_extract hu ht.2 (Nat.le_of_lt hlt) hi h₀ h₁
  | pair hbits =>
    obtain _ | ⟨h₀, _ | ⟨h₁, ⟨⟩⟩⟩ := hdata
    exact .of_ok (meaning_buildPair h₀ h₁ hbits) (Datum.fits_ofNumber t _)
  | zeroExtend hlane _ ht | anyExtend hlane _ ht =>
    obtain _ | ⟨h₀, ⟨⟩⟩ := hdata
    obtain ⟨x, hx⟩ := List.length_eq_one_iff.1 (h₀.length.trans hlane)
    exact .of_ok (meaning_cutLane (by simp) ht hx _)
      (Datum.fits_scalar.2 ⟨ht.2, Nat.mod_lt _ (Nat.two_pow_pos _)⟩)

theorem settles_of_roomy {n : Node} {ts : List ValueType} {data : List Datum}
    (args : Array BitString) (h : Roomy n.opcode ts t) (hres : n.results = [t])
    (hlen : n.operands.length = ts.length) (hdata : List.Forall₂ Datum.Fits data ts) :
    Settles n.opcode t (n.Defined args data ts) (n.meaning args data ts) := by
  obtain ⟨op, ops, results, attr⟩ := n
  dsimp only at h hres hlen
  subst hres
  cases h with
  | buildVector ht hlanes hes =>
    exact settles_buildVector ht hlanes (fun e he => (hes e he).1) hlen hdata
  | extractElement hu ht hle hi =>
    obtain _ | ⟨h₀, _ | ⟨h₁, ⟨⟩⟩⟩ := hdata
    exact settles_extract hu ht hle hi h₀ h₁
  | insertElement ht he _ hi =>
    obtain _ | ⟨h₀, _ | ⟨h₁, _ | ⟨h₂, ⟨⟩⟩⟩⟩ := hdata
    exact settles_insert ht he hi h₀ h₁ h₂

/-- So does a node at any types at which it makes sense. -/
theorem settles {n : Node} {ts : List ValueType} {data : List Datum} (args : Array BitString)
    (h : Sensible n.opcode ts t) (hres : n.results = [t]) (heq : n.Equipped)
    (hlen : n.operands.length = ts.length) (hdata : List.Forall₂ Datum.Fits data ts) :
    Settles n.opcode t (n.Defined args data ts) (n.meaning args data ts) := by
  rcases h with hsig | hlib | hroomy
  · exact meaning_settles args hsig hres heq hlen hdata
  · exact settles_of_liberty args hlib hres hlen hdata
  · exact settles_of_roomy args hroomy hres hlen hdata

end

end Node

end Dataflow
