import Dataflow.Proofs.Rules.Leaves

/-!
# Outputs of converted values

An output that observes the parts of a value in place of the value observes the same bits, as long
as it observes no more bits than the value has.
-/

namespace Dataflow

namespace BitString

/-- The bits of data, one after the other. -/
def ofData (ps : List (ValueType × Datum)) : BitString :=
  .join (ps.map fun p => .ofDatum p.2 p.1)

/-- Data at the given widths, one after the other. -/
def ofCuts (ps : List (ValueType × Datum)) (widths : List Nat) : BitString :=
  .join (List.zipWith (fun p width => .ofNumber width (p.2.number p.1)) ps widths)

theorem ofCuts_append {ps qs : List (ValueType × Datum)} {ws us : List Nat}
    (h : ps.length = ws.length) : ofCuts (ps ++ qs) (ws ++ us) = ofCuts ps ws ++ ofCuts qs us := by
  rw [ofCuts, List.zipWith_append h, join_append]
  rfl

theorem ofCuts_cons (p : ValueType × Datum) (ps : List (ValueType × Datum)) (w : Nat)
    (ws : List Nat) : ofCuts (p :: ps) (w :: ws) = .ofNumber w (p.2.number p.1) ++ ofCuts ps ws :=
  rfl

theorem bits_append (s t : BitString) : (s ++ t).bits = s.bits ++ t.bits := rfl

/-- Bits that start with those of a number go on like it as far as they are clear. -/
theorem take_eq_ofNumber_iff {l : List Bool} {m n a : Nat} (ha : a < 2 ^ m)
    (hl : l.take m = (ofNumber m a).bits) :
    l.take n = (ofNumber n a).bits ↔ ∀ j, m ≤ j → j < n → l[j]? = some false := by
  have hhigh (j : Nat) (hj : m ≤ j) : a.testBit j = false :=
    Nat.testBit_lt_two_pow (Nat.lt_of_lt_of_le ha (Nat.pow_le_pow_right (by decide) hj))
  constructor
  · intro h j hmj hjn
    have hget := congrArg (·[j]?) h
    simpa only [List.getElem?_take, getElem?_ofNumber, if_pos hjn, hhigh j hmj] using hget
  · intro h
    refine List.ext_getElem? fun j => ?_
    rw [List.getElem?_take, getElem?_ofNumber]
    by_cases hjn : j < n
    · rw [if_pos hjn, if_pos hjn]
      by_cases hmj : m ≤ j
      · rw [h j hmj hjn, hhigh j hmj]
      · have hget := congrArg (·[j]?) hl
        simpa only [List.getElem?_take, getElem?_ofNumber, if_pos (Nat.lt_of_not_le hmj)] using hget
    · rw [if_neg hjn, if_neg hjn]

section
variable {t u : ValueType} {x y : Datum}

/-- One part that has the bits of the value and maybe more. -/
theorem take_part (hx : x.Fits u) (h : t.bits ≤ u.bits) :
    (ofData [(u, x)]).bits.take t.bits = (ofDatum (.ofNumber t (x.number u)) t).bits := by
  show (ofDatum x u ++ empty).bits.take t.bits = _
  rw [append_empty, ofDatum_eq hx, take_ofNumber h, ofDatum_eq (Datum.fits_ofNumber t _),
    Datum.number_ofNumber]
  exact congrArg _ (ofNumber_congr (Nat.mod_mod _ _).symm)

/-- Two parts that make up the value. -/
theorem take_parts (hx : x.Fits u) (hy : y.Fits u) (h : t.bits = 2 * u.bits) :
    (ofData [(u, x), (u, y)]).bits.take t.bits =
      (ofDatum (.ofNumber t (x.number u + 2 ^ u.bits * y.number u)) t).bits := by
  show (ofDatum x u ++ (ofDatum y u ++ empty)).bits.take t.bits = _
  rw [append_empty, ofDatum_eq hx, ofDatum_eq hy, ofNumber_append, ← Nat.two_mul, ← h,
    take_ofNumber (Nat.le_refl _), Nat.mod_eq_of_lt hx.number_lt,
    ofDatum_eq (Datum.fits_ofNumber t _), Datum.number_ofNumber]
  exact congrArg _ (ofNumber_congr (Nat.mod_mod _ _).symm)

end

end BitString

/-- The widths at which an output observes operands of the given types. -/
def Node.widthsAt (n : Node) (ts : List ValueType) : List Nat :=
  ts.mapIdx fun j t => (n.widths?.getD [])[j]?.getD t.bits

namespace Node

variable {n : Node} {ts : List ValueType}

@[simp] theorem length_widthsAt : (n.widthsAt ts).length = ts.length := by
  simp [widthsAt]

theorem getElem?_widthsAt (j : Nat) :
    (n.widthsAt ts)[j]? = ts[j]?.map fun t => (n.widths?.getD [])[j]?.getD t.bits :=
  List.getElem?_mapIdx

/-- Widths for all operands. -/
theorem widthsAt_eq {ws : List Nat} (hn : n.widths? = some ws) (hlen : ws.length = ts.length) :
    n.widthsAt ts = ws := by
  refine List.ext_getElem? fun j => ?_
  rw [getElem?_widthsAt, hn, Option.getD_some]
  by_cases hj : j < ts.length
  · rw [List.getElem?_eq_getElem hj, List.getElem?_eq_getElem (hlen ▸ hj)]
    rfl
  · rw [List.getElem?_eq_none (by omega), List.getElem?_eq_none (by omega)]
    rfl

theorem observation_eq_ofCuts (n : Node) (data : List Datum) (ts : List ValueType) :
    n.observation data ts = .ofCuts (ts.zip data) (n.widthsAt ts) := by
  unfold observation BitString.ofCuts
  congr 1
  refine List.ext_getElem? fun j => ?_
  rw [List.getElem?_mapIdx, List.getElem?_zipWith, getElem?_widthsAt]
  cases hp : (ts.zip data)[j]? with
  | none => rfl
  | some p =>
    rw [(List.getElem?_zip_eq_some.1 hp).1]
    rfl

end Node

namespace Legal

variable {t : ValueType} {e : Datum} {i : Nat} {parts : List Value}
  {ps pieces : List (ValueType × Datum)}

/-! ### Shares -/

theorem flatten_mapIdx {α : Type} {f : Nat → α → List α} {l : List α} (h : ∀ k < l.length, ∀ a, f k a = [a]) :
    (l.mapIdx f).flatten = l := by
  induction l generalizing f with
  | nil => rfl
  | cons a l ih =>
    rw [List.mapIdx_cons, List.flatten_cons, h 0 (by simp) a,
      ih fun k hk => h (k + 1) (by simpa using hk)]
    rfl

/-- Operand `i` makes way for its parts. -/
theorem observeParts_eq {parts before after : List (Value × Nat)} {v : Value} {width : Nat}
    (h : before.length = i) : observeParts i parts (before ++ (v, width) :: after) =
      before ++ ((parts.map (·.1)).zip (shares width (parts.map (·.2))) ++ after) := by
  unfold observeParts
  rw [List.mapIdx_append, List.flatten_append, List.mapIdx_cons, List.flatten_cons]
  congr 1
  · exact flatten_mapIdx fun k hk p => if_neg (by omega)
  congr 1
  · exact if_pos (by omega)
  · exact flatten_mapIdx fun k hk p => if_neg (by omega)

theorem eq_take_cons_drop {α : Type} {l : List α} {i : Nat} {a : α} (h : l[i]? = some a) :
    l = l.take i ++ a :: l.drop (i + 1) := by
  obtain ⟨hlt, rfl⟩ := List.getElem?_eq_some_iff.1 h
  rw [List.getElem_cons_drop, List.take_append_drop]

@[simp] theorem length_shares (width : Nat) (sizes : List Nat) :
    (shares width sizes).length = sizes.length := by
  induction sizes generalizing width with
  | nil => rfl
  | cons size sizes ih => rw [shares, List.length_cons, List.length_cons, ih]

/-- The shares of a width cut the bits of the parts, taken as a whole, at this width. -/
theorem bits_ofCuts_shares (h : ∀ p ∈ pieces, p.2.Fits p.1) (width : Nat) :
    (BitString.ofCuts pieces (shares width (pieces.map (·.1.bits)))).bits =
      (BitString.ofData pieces).bits.take width := by
  induction pieces generalizing width with
  | nil => exact List.take_nil.symm
  | cons p pieces ih =>
    have hp := BitString.ofDatum_eq (h p List.mem_cons_self)
    have hdata : (BitString.ofData (p :: pieces)).bits =
        (BitString.ofNumber p.1.bits (p.2.number p.1)).bits ++ (BitString.ofData pieces).bits := by
      rw [← hp]
      rfl
    have hrest : width - min width p.1.bits = width - p.1.bits := by omega
    rw [List.map_cons, shares, BitString.ofCuts_cons, BitString.bits_append,
      ih fun q hq => h q (List.mem_cons_of_mem p hq), hdata, List.take_append,
      BitString.length_ofNumber, hrest, ← BitString.take_ofNumber (Nat.min_le_right width p.1.bits)]
    congr 1
    exact List.take_eq_take_iff.2 (by rw [BitString.length_ofNumber]; omega)

/-- A list with `m` in the place of element `i`. -/
def splice {α : Type} (l : List α) (i : Nat) (m : List α) : List α :=
  l.take i ++ (m ++ l.drop (i + 1))

section
variable {α β : Type} {l m : List α} {l' m' : List β}

theorem splice_self {a : α} (h : l[i]? = some a) : splice l i [a] = l :=
  (eq_take_cons_drop h).symm

theorem map_splice (f : α → β) : (splice l i m).map f = splice (l.map f) i (m.map f) := by
  simp [splice]

theorem length_splice (hl : l.length = l'.length) (hm : m.length = m'.length) :
    (splice l i m).length = (splice l' i m').length := by
  simp [splice, hl, hm]

theorem zip_splice (hl : l.length = l'.length) (hm : m.length = m'.length) :
    (splice l i m).zip (splice l' i m') = splice (l.zip l') i (m.zip m') := by
  rw [splice, splice, List.zip_append (by simp [hl]), List.zip_append hm]
  simp [splice, List.zip, List.take_zipWith, List.drop_zipWith]

theorem forall₂_splice {R : α → β → Prop} (hl : List.Forall₂ R l l') (hm : List.Forall₂ R m m') :
    List.Forall₂ R (splice l i m) (splice l' i m') :=
  List.rel_append (List.forall₂_take i hl) (List.rel_append hm (List.forall₂_drop (i + 1) hl))

end

/-- Parts and their shares in the place of operand `i` and its width. -/
theorem observeParts_zip {vs : List Value} {ws sizes : List Nat} {width : Nat}
    (hlen : vs.length = ws.length) (hparts : parts.length = sizes.length)
    (hw : ws[i]? = some width) :
    observeParts i (parts.zip sizes) (vs.zip ws) =
      (splice vs i parts).zip (splice ws i (shares width sizes)) := by
  have hi : i < ws.length := (List.getElem?_eq_some_iff.1 hw).1
  have hv := List.getElem?_eq_getElem (hlen ▸ hi : i < vs.length)
  have hat : (vs.zip ws)[i]? = some (vs[i], width) := List.getElem?_zip_eq_some.2 ⟨hv, hw⟩
  conv_lhs => rw [eq_take_cons_drop hat]
  rw [observeParts_eq (by simp; omega), List.map_fst_zip (Nat.le_of_eq hparts),
    List.map_snd_zip (Nat.le_of_eq hparts.symm), zip_splice hlen (by simp [hparts])]
  rfl

/-- The bits at one place decide whether the whole is the same. -/
theorem ofCuts_splice_eq_iff {ps qs qs' : List (ValueType × Datum)} {ws us us' : List Nat}
    (hlen : ps.length = ws.length) (hq : qs.length = us.length) (hq' : qs'.length = us'.length) :
    BitString.ofCuts (splice ps i qs) (splice ws i us) =
        BitString.ofCuts (splice ps i qs') (splice ws i us') ↔
      (BitString.ofCuts qs us).bits = (BitString.ofCuts qs' us').bits := by
  have htake : (ps.take i).length = (ws.take i).length := by simp [hlen]
  unfold splice
  rw [BitString.ofCuts_append htake, BitString.ofCuts_append htake, BitString.ofCuts_append hq,
    BitString.ofCuts_append hq']
  constructor
  · intro h
    have h := congrArg BitString.bits h
    simp only [BitString.bits_append] at h
    exact List.append_cancel_right (List.append_cancel_left h)
  · intro h
    rw [show BitString.ofCuts qs us = _ from congrArg BitString.mk h]

/-- Parts at their shares in the place of a datum at its width. -/
theorem ofCuts_shares_eq_iff {ws : List Nat} {width : Nat} (hlen : ps.length = ws.length)
    (hi : ps[i]? = some (t, e)) (hw : ws[i]? = some width) (he : e.Fits t)
    (hfits : ∀ p ∈ pieces, p.2.Fits p.1)
    (hbits : (BitString.ofData pieces).bits.take t.bits = (BitString.ofDatum e t).bits) :
    BitString.ofCuts (splice ps i pieces) (splice ws i (shares width (pieces.map (·.1.bits)))) =
        .ofCuts ps ws ↔
      ∀ j, t.bits ≤ j → j < width → (BitString.ofData pieces).bits[j]? = some false := by
  have hself : BitString.ofCuts ps ws = .ofCuts (splice ps i [(t, e)]) (splice ws i [width]) := by
    rw [splice_self hi, splice_self hw]
  have hone : (BitString.ofCuts [(t, e)] [width]).bits =
      (BitString.ofNumber width (e.number t)).bits := List.append_nil _
  rw [BitString.ofDatum_eq he] at hbits
  rw [hself, ofCuts_splice_eq_iff hlen (by simp) rfl, bits_ofCuts_shares hfits, hone,
    BitString.take_eq_ofNumber_iff he.number_lt hbits]

/-! ### The new output -/

namespace EditSpec.Meets

variable {C : EditSpec} {id : NodeId} {n : Node} {ts us : List ValueType} {vs : List Value}

theorem observedWidths
    (hvs : List.Forall₂ (fun v t => C.final.typeOf? v = some t) vs ts) :
    C.Meets (vs.zipIdx.mapM fun (v, k) => do
      match (n.widths?.getD [])[k]? with
      | some width => return (v, width)
      | none => return (v, (← Edit.typeOf v).bits)) (· = vs.zip (n.widthsAt ts)) := by
  have hlen := hvs.length_eq
  have hzip : vs.zip (n.widthsAt ts) = vs.zipIdx.map fun p =>
      (p.1, (n.widths?.getD [])[p.2]?.getD (ts[p.2]?.getD .i1).bits) := by
    refine List.ext_getElem? fun j => ?_
    rw [List.getElem?_map, List.getElem?_zipIdx]
    by_cases hj : j < vs.length
    · have ht := List.getElem?_eq_getElem (hlen ▸ hj : j < ts.length)
      rw [List.getElem?_eq_getElem hj, Option.map_some, Option.map_some,
        List.getElem?_zip_eq_some, Node.getElem?_widthsAt, Nat.zero_add, ht]
      exact ⟨List.getElem?_eq_getElem hj, rfl⟩
    · rw [List.getElem?_eq_none (l := vs.zip _) (by simp; omega),
        List.getElem?_eq_none (l := vs) (by omega)]
      rfl
  rw [hzip]
  refine mapM fun p hp => ?_
  obtain ⟨v, k⟩ := p
  have hv : vs[k]? = some v := List.mem_zipIdx_iff_getElem?.1 hp
  obtain ⟨hk, rfl⟩ := List.getElem?_eq_some_iff.1 hv
  have ht : C.final.typeOf? vs[k] = some ts[k] := List.Forall₂.get hvs hk (hlen ▸ hk)
  dsimp only
  split
  · next width hwidth => exact .pure (by rw [hwidth]; rfl)
  · next hwidth =>
    refine .typeOf_bind ht (.pure ?_)
    rw [hwidth, List.getElem?_eq_getElem (hlen ▸ hk)]
    rfl

theorem partSizes
    (hparts : List.Forall₂ (fun v u => C.final.typeOf? v = some u) parts us) :
    C.Meets (parts.mapM fun v => do return (v, (← Edit.typeOf v).bits))
      (· = parts.zip (us.map (·.bits))) := by
  induction hparts with
  | nil => exact .pure rfl
  | @cons v u parts us hv _ ih =>
    rw [List.mapM_cons]
    refine .bind (P := (· = (v, u.bits))) (.typeOf_bind hv (.pure rfl)) ?_
    rintro _ rfl
    refine .bind ih ?_
    rintro _ rfl
    exact .pure rfl

/-- The output is written anew, with the parts in the place of operand `i`. -/
theorem outputOf {width : Nat} (hn : C.final.nodes[id]? = some n)
    (hops : List.Forall₂ (fun v t => C.final.typeOf? v = some t)
      (n.operands.map C.base.replaced.canon) ts)
    (hparts : List.Forall₂ (fun v u => C.final.typeOf? v = some u) parts us)
    (hcanon : ∀ v ∈ parts, C.base.replaced.canon v = v) (hw : (n.widthsAt ts)[i]? = some width)
    (hgood : ∀ j, C.Good j ⟨.output, splice (n.operands.map C.base.replaced.canon) i parts, [],
      .widths (splice (n.widthsAt ts) i (shares width (us.map (·.bits))))⟩) :
    C.Meets (Edit.outputOf id i parts) fun s => ∃ id', s = .node id' ∧ C.final.nodes[id']? =
      some ⟨.output, splice (n.operands.map C.base.replaced.canon) i parts, [],
        .widths (splice (n.widthsAt ts) i (shares width (us.map (·.bits))))⟩ := by
  obtain ⟨rank, hdesc⟩ := C.descends
  have hlen : (n.operands.map C.base.replaced.canon).length = (n.widthsAt ts).length :=
    hops.length_eq.trans Node.length_widthsAt.symm
  have hsizes : parts.length = (us.map (·.bits)).length := by simp [hparts.length_eq]
  have hnew := length_splice (i := i) hlen
    (hsizes.trans (length_shares width (us.map (·.bits))).symm)
  have htypes := forall₂_splice (i := i) hops hparts
  -- what the new output reads is canonical already
  have hself (v : Value) (hv : v ∈ splice (n.operands.map C.base.replaced.canon) i parts) :
      C.base.replaced.canon v = v := by
    rcases List.mem_append.1 hv with hv | hv
    · obtain ⟨u, _, rfl⟩ := List.mem_map.1 (List.mem_of_mem_take hv)
      exact hdesc.canon_canon u
    rcases List.mem_append.1 hv with hv | hv
    · exact hcanon v hv
    · obtain ⟨u, _, rfl⟩ := List.mem_map.1 (List.mem_of_mem_drop hv)
      exact hdesc.canon_canon u
  refine .bind (.node hn) ?_
  rintro _ rfl
  refine .bind (.bind (.node hn) (by rintro _ rfl; exact .canonicals _)) ?_
  rintro _ rfl
  refine .bind (.observedWidths hops) ?_
  rintro _ rfl
  refine .bind (.partSizes hparts) ?_
  rintro _ rfl
  rw [observeParts_zip hlen hsizes hw]
  dsimp only
  rw [List.map_fst_zip (Nat.le_of_eq hnew), List.map_snd_zip (Nat.le_of_eq hnew.symm)]
  generalize hops' : splice (List.map C.base.replaced.canon _) i parts = ops at hself htypes hgood ⊢
  have hupdate (attr : Attr) : C.base.replaced.update ⟨.output, ops, [], attr⟩ =
      ⟨.output, ops, [], attr⟩ := by
    rw [Replacements.update, List.map_congr_left (g := fun v => v) hself, List.map_id']
  refine .bind (.add (fun v hv => ?_) fun j _ _ => by rw [hupdate]; exact hgood j) ?_
  · rw [hself v hv]
    obtain ⟨j, hj, rfl⟩ := List.getElem_of_mem hv
    exact Option.isSome_of_eq_some (List.Forall₂.get htypes hj (htypes.length_eq ▸ hj))
  · rintro id' ⟨_, hat⟩
    rw [hupdate] at hat
    exact .pure ⟨id', rfl, hat⟩

end EditSpec.Meets

namespace RewriteSpec

open RuleSpec

variable {V : RewriteSpec} {us : List ValueType}

/-- A successor of an output that observes the same bits. -/
def Observes (V : RewriteSpec) (s : Successor) : Prop :=
  ∃ id n ts, s = .node id ∧ V.final.nodes[id]? = some n ∧ n.opcode = .output ∧
    n.operands.map V.final.typeOf? = ts.map some ∧
    (V.sem → n.observation (n.operands.map (V.val ·.node)) ts =
      V.node.observation (V.node.operands.map (V.val ·.node)) V.types)

theorem reads_canon (V : RewriteSpec) :
    V.Reads (V.node.operands.map V.base.replaced.canon) V.types := by
  refine List.forall₂_map_left_iff.2 (List.forall₂_iff_get.2 ⟨V.length_operands, fun j hj hj' => ?_⟩)
  obtain ⟨v, hv, his⟩ := V.operand_at (List.getElem?_eq_getElem hj')
  obtain ⟨_, rfl⟩ := List.getElem?_eq_some_iff.1 hv
  exact his.self

theorem val_canon (hs : V.sem) :
    (V.node.operands.map V.base.replaced.canon).map (V.val ·.node) =
      V.node.operands.map (V.val ·.node) := by
  rw [List.map_map]
  refine List.map_congr_left fun v hv => ?_
  obtain ⟨j, hj, rfl⟩ := List.getElem_of_mem hv
  have ht := List.getElem?_eq_getElem (V.length_operands ▸ hj : j < V.types.length)
  obtain ⟨v, hv, his⟩ := V.operand_at ht
  obtain ⟨_, rfl⟩ := List.getElem?_eq_some_iff.1 hv
  rw [Function.comp_apply, his.val hs, data, hv]
  rfl

theorem widths_le (hop : V.node.opcode = .output) (hs : V.strict) :
    List.Forall₂ (fun (w : Nat) t => w ≤ t.bits) (V.node.widthsAt V.types) V.types := by
  have hattr := V.attributed hs fun h => by simp [Node.Indexes, hop] at h
  unfold Node.Attributed at hattr
  rw [hop] at hattr
  refine List.forall₂_iff_get.2 ⟨Node.length_widthsAt, fun j hj hj' => ?_⟩
  simp only [Node.widthsAt, List.get_eq_getElem, List.getElem_mapIdx]
  cases hw : (V.node.widths?.getD [])[j]? with
  | none => exact Nat.le_refl _
  | some w => exact hattr j _ w (List.getElem?_eq_getElem hj') hw

/-- An output with lighter parts in the place of an operand may be added. -/
theorem admits_output {ts ts' : List ValueType} (hop : V.node.opcode = .output)
    (hresults : V.node.results = []) (htypes : V.types = ts ++ t :: ts')
    (hlight : V.T.load us < V.T.weight t) (hwords : V.total → ∀ u ∈ us, u.IsWord) :
    V.Admits .output (ts ++ (us ++ ts')) where
  lighter _ := by
    rw [V.ceiling_eq, hop, hresults, htypes, List.nil_append]
    refine Target.burden_lt_of_load (Target.height_le_iff.2 ⟨Nat.zero_le _, fun u hu => ?_⟩) ?_
    · have hle {w : ValueType} (hw : w ∈ ts ++ t :: ts') :
          charge Opcode.output.stage (V.T.weight w) ≤ V.T.height .output (ts ++ t :: ts') :=
        Target.charge_le_height hw
      rcases List.mem_append.1 hu with hu | hu
      · exact hle (List.mem_append_left _ hu)
      rcases List.mem_append.1 hu with hu | hu
      · refine Nat.le_trans (charge_mono (Nat.le_refl _) ?_) (hle (w := t) (by simp))
        exact Nat.le_of_lt (Nat.lt_of_le_of_lt (Target.weight_le_load hu) hlight)
      · exact hle (by simp [hu])
    · simp only [Target.load_append, Target.load_cons]
      omega
  plain htotal := by
    have hplain := V.plain htotal
    rw [hop, hresults, htypes, List.nil_append] at hplain
    refine ⟨rfl, fun u hu => ?_, by simp, by simp⟩
    rcases List.mem_append.1 hu with hu | hu
    · exact hplain.words u (List.mem_append_left _ hu)
    rcases List.mem_append.1 hu with hu | hu
    · exact hwords htotal u hu
    · exact hplain.words u (by simp [hu])

theorem shares_le (us : List ValueType) (width : Nat) :
    List.Forall₂ (fun w u => w ≤ u.bits) (shares width (us.map (·.bits))) us := by
  induction us generalizing width with
  | nil => exact .nil
  | cons u us ih => exact .cons (Nat.min_le_right ..) (ih _)

/-- The output with `parts` of types `us` in the place of operand `i`, which has type `t`. -/
def anew (V : RewriteSpec) (i : Nat) (t : ValueType) (parts : List Value) (us : List ValueType) :
    Node :=
  ⟨.output, splice (V.node.operands.map V.base.replaced.canon) i parts, [],
    .widths (splice (V.node.widthsAt V.types) i
      (shares (((V.node.widths?.getD [])[i]?).getD t.bits) (us.map (·.bits))))⟩

section
variable (hop : V.node.opcode = .output) (hi : V.types[i]? = some t) (hparts : V.Reads parts us)
include hop hi hparts

theorem good_anew (hresults : V.node.results = []) (hlight : V.T.load us < V.T.weight t)
    (hwords : V.total → ∀ u ∈ us, u.IsWord) :
    V.Good (V.anew i t parts us) (splice V.types i us) := by
  have hadmits : V.Admits .output (splice V.types i us) :=
    admits_output hop hresults (eq_take_cons_drop hi) hlight hwords
  refine ⟨forall₂_splice V.reads_canon hparts, .inl ⟨rfl, rfl⟩, hadmits, fun hs _ => ?_,
    fun _ => Target.moderate_of_ne (by simp [anew]), fun _ => V.outputs_of_output hop,
    fun _ h => absurd rfl h⟩
  intro j u w hu hw
  obtain ⟨hj, rfl⟩ := List.getElem?_eq_some_iff.1 hu
  obtain ⟨hj', rfl⟩ := List.getElem?_eq_some_iff.1 hw
  exact List.Forall₂.get (forall₂_splice (widths_le hop hs) (shares_le us _)) hj' hj

/-- An output observes no more bits of an operand than it has, and so as many bits of its parts. -/
theorem observation_anew (hs : V.sem)
    (hbits : (BitString.ofData (us.zip (parts.map (V.val ·.node)))).bits.take t.bits =
      (BitString.ofDatum (V.data i) t).bits) :
    (V.anew i t parts us).observation ((V.anew i t parts us).operands.map (V.val ·.node))
        (splice V.types i us) =
      V.node.observation (V.node.operands.map (V.val ·.node)) V.types := by
  let width := ((V.node.widths?.getD [])[i]?).getD t.bits
  let data := V.node.operands.map (V.val ·.node)
  let pieces := us.zip (parts.map (V.val ·.node))
  have hlen : V.types.length = data.length := by simp [data, V.length_operands]
  have hlen' : us.length = (parts.map (V.val ·.node)).length := by simp [hparts.length_eq]
  have hw : (V.node.widthsAt V.types)[i]? = some width := by
    rw [Node.getElem?_widthsAt, hi]
    rfl
  have hwle : width ≤ t.bits := by
    obtain ⟨hj, hget⟩ := List.getElem?_eq_some_iff.1 hw
    obtain ⟨hj', hget'⟩ := List.getElem?_eq_some_iff.1 hi
    rw [← hget, ← hget']
    exact List.Forall₂.get (widths_le hop (V.strict_of_sem hs)) hj hj'
  have hwidths : (V.anew i t parts us).widthsAt (splice V.types i us) =
      splice (V.node.widthsAt V.types) i (shares width (us.map (·.bits))) :=
    Node.widthsAt_eq rfl (length_splice (by simp) (by simp))
  have hsizes : us.map (·.bits) = pieces.map (·.1.bits) := by
    rw [← List.map_fst_zip (Nat.le_of_eq hlen'), List.map_map]
    rfl
  obtain ⟨v, hv, his⟩ := V.operand_at hi
  have hdatum : data[i]? = some (V.data i) := by
    rw [List.getElem?_map, RewriteSpec.data, hv]
    rfl
  have hfits (p : ValueType × Datum) (hp : p ∈ pieces) : p.2.Fits p.1 :=
    (List.forall₂_iff_zip.1 (hparts.fits hs).flip).2 hp
  calc (V.anew i t parts us).observation ((V.anew i t parts us).operands.map (V.val ·.node))
        (splice V.types i us)
      = .ofCuts (splice (V.types.zip data) i pieces) (splice (V.node.widthsAt V.types) i
          (shares width (pieces.map (·.1.bits)))) := by
        rw [Node.observation_eq_ofCuts, hwidths, anew, map_splice, V.val_canon hs,
          zip_splice hlen hlen', hsizes]
    _ = .ofCuts (V.types.zip data) (V.node.widthsAt V.types) :=
        (ofCuts_shares_eq_iff (by simp [← hlen]) (List.getElem?_zip_eq_some.2 ⟨hi, hdatum⟩) hw
          (his.fits hs) hfits hbits).2 fun j hj hlt => by omega
    _ = V.node.observation data V.types := (Node.observation_eq_ofCuts ..).symm

end

end RewriteSpec

namespace RuleSpec.Meets

open RewriteSpec

variable {V : RewriteSpec} {us : List ValueType} (hop : V.node.opcode = .output)
  (hresults : V.node.results = []) (hi : V.types[i]? = some t)
include hop hresults hi

/-- The new output observes parts that are lighter than the value, and no more than their bits. -/
theorem outputOf (us : List ValueType) (hparts : V.Reads parts us)
    (hlight : V.T.load us < V.T.weight t) (hwords : V.total → ∀ u ∈ us, u.IsWord)
    (hbits : V.sem → (BitString.ofData (us.zip (parts.map (V.val ·.node)))).bits.take t.bits =
      (BitString.ofDatum (V.data i) t).bits) :
    V.Meets (Edit.outputOf V.id i parts) V.Observes := by
  have hgood := good_anew hop hi hparts hresults hlight hwords
  refine (EditSpec.Meets.outputOf (C := V.editSpec) V.node_final
    (V.reads_canon.imp fun _ _ h => h.type) (hparts.imp fun _ _ h => h.type)
    (fun v hv => (hparts.of_mem hv).choose_spec.canonical)
    (by rw [Node.getElem?_widthsAt, hi]; rfl) fun _ => ⟨_, hgood⟩).mono ?_
  rintro s ⟨id', rfl, hat⟩
  exact ⟨id', V.anew i t parts us, _, rfl, hat, rfl, hgood.reads, fun hs =>
    observation_anew hop hi hparts hs (hbits hs)⟩

/-- One part that holds the bits of the value. -/
theorem outputOfOne {w : Value} {u : ValueType} {d : Datum} (hlight : V.T.weight u < V.T.weight t)
    (hword : V.total → u.IsWord) (hle : t.bits ≤ u.bits) (hw : V.Is w u d)
    (hd : V.sem → V.data i = .ofNumber t (d.number u)) :
    V.Meets (Edit.outputOf V.id i [w]) V.Observes := by
  refine outputOf hop hresults hi [u] (.cons hw.self .nil) (by simpa using hlight)
    (by simpa using hword) fun hs => ?_
  rw [hd hs, ← hw.val hs]
  exact BitString.take_part (hw.self.fits hs) hle

/-- Two parts that make up the value. -/
theorem outputOfTwo {lo hi' : Value} {u : ValueType} {d e : Datum} (hc : V.T.classify t ≠ .legal)
    (hword : V.total → u.IsWord) (heq : t.bits = 2 * u.bits) (hlo : V.Is lo u d)
    (hhi : V.Is hi' u e)
    (hd : V.sem → V.data i = .ofNumber t (d.number u + 2 ^ u.bits * e.number u)) :
    V.Meets (Edit.outputOf V.id i [lo, hi']) V.Observes := by
  have hlight := Target.double_weight_lt hc heq
  refine outputOf hop hresults hi [u, u] (.cons hlo.self (.cons hhi.self .nil))
    (by simp; omega) (by simpa using hword) fun hs => ?_
  rw [hd hs, ← hlo.val hs, ← hhi.val hs]
  exact BitString.take_parts (hlo.self.fits hs) (hhi.self.fits hs) heq

end RuleSpec.Meets

open RuleSpec RewriteSpec

section
variable {V : RewriteSpec} {t : ValueType} (hop : V.node.opcode = .output)
  (hresults : V.node.results = []) (hi : V.types[i]? = some t)
include hop hresults hi

theorem Widen.meets_inOutput (hc : V.T.classify t = .promoteInteger) :
    V.Meets (Widen.inOutput V.id i) V.Observes := by
  obtain ⟨hword, hwide, hlt, _⟩ := V.regular.promoted hc
  refine .bind (.operandWord hi hword.2) fun v hv => ?_
  refine .bind (.promoted hv.1 hv.2 hc) ?_
  rintro w ⟨y, hw, hy⟩
  refine Meets.outputOfOne hop hresults hi
    (Target.weight_transform_lt V.regular (by rw [hc]; simp)) (fun _ => hwide) (Nat.le_of_lt hlt) hw
    fun hs => ?_
  rw [V.data_scalar hs hi hword.2, Datum.number_scalar, Datum.ofNumber_word hword.2, hy hs]

theorem Halve.meets_inOutput (hc : V.T.classify t = .expandInteger) :
    V.Meets (Halve.inOutput V.id i) V.Observes := by
  obtain ⟨hword, hhalf, hbits, _⟩ := V.regular.expanded hc
  refine .bind (.operandWord hi hword.2) fun v hv => ?_
  refine .bind (.halves hv.1 hv.2 hc) ?_
  rintro ⟨lo, hi'⟩ ⟨x, y, hlo, hhi, hx⟩
  refine Meets.outputOfTwo hop hresults hi (by rw [hc]; simp) (fun _ => hhalf) hbits hlo hhi
    fun hs => ?_
  rw [V.data_scalar hs hi hword.2, Datum.number_scalar, Datum.number_scalar,
    Datum.ofNumber_word hword.2, ← hx hs, Nat.mod_eq_of_lt (hv.2.lt hs)]

theorem Soften.meets_inOutput (hc : V.T.classify t = .promoteFloat) :
    V.Meets (Soften.inOutput V.id i) V.Observes := by
  obtain ⟨_, hvector, hword, hbits, _⟩ := V.regular.softened hc
  refine .bind (.operandWord hi hvector) fun v hv => ?_
  refine .bind (.softened hv.1 hv.2 hc) fun w hw => ?_
  refine Meets.outputOfOne hop hresults hi
    (Target.weight_transform_lt V.regular (by rw [hc]; simp)) (fun _ => hword) (by omega) hw
    fun hs => ?_
  rw [V.data_scalar hs hi hvector, Datum.number_scalar, Datum.ofNumber_word hvector,
    Nat.mod_eq_of_lt (hv.2.lt hs)]

theorem DoubleDouble.meets_inOutput (hc : V.T.classify t = .expandFloat) :
    V.Meets (DoubleDouble.inOutput V.id i) V.Observes := by
  obtain ⟨rfl, _⟩ := V.regular.paired hc
  refine .bind (.operandWord hi rfl) fun v hv => ?_
  refine .bind (.floatParts hv.1 hv.2 hc) ?_
  rintro ⟨lo, hi'⟩ ⟨x, y, hlo, hhi, hx⟩
  refine Meets.outputOfTwo hop hresults hi (by rw [hc]; simp) (fun htotal => ?_) rfl hlo hhi
    fun hs => ?_
  · exact absurd ((V.plain htotal).words _ (V.mem_types hi)) (by decide)
  · rw [V.data_scalar hs hi rfl, Datum.number_scalar, Datum.number_scalar, Datum.ofNumber_word rfl,
      show ValueType.f64.bits = 64 from rfl, ← hx hs, Nat.mod_eq_of_lt (hv.2.lt hs)]

theorem Scalarize.meets_inOutput (hc : V.T.classify t = .scalarize) :
    V.Meets (Scalarize.inOutput V.id i) V.Observes := by
  obtain ⟨hlanes, hpart⟩ := V.regular.scalarized hc
  have hvector : t.isVector = true := by simp [ValueType.isVector, hlanes]
  refine .bind (.operandLanes hi hvector) fun v hv => ?_
  refine .bind (.soleLane hv.1 hv.2 hc) ?_
  rintro w ⟨y, hw, hy⟩
  refine Meets.outputOfOne hop hresults hi
    (Target.weight_scalar_lt hvector (by rw [hc]; simp)) (fun htotal => ?_)
    (Nat.le_of_eq (ValueType.bits_scalar hlanes).symm) hw fun hs => ?_
  · have := ((V.plain htotal).words _ (V.mem_types hi)).2
    rw [hvector] at this
    cases this
  · have hfits := hv.2.fits hs
    have hnumber : Datum.number t (.vector [y]) = y := Nat.ofDigits_singleton ..
    rw [hy hs] at hfits
    rw [V.data_vector hs hi hvector, hy hs, Datum.number_scalar]
    nth_rewrite 2 [← hnumber]
    rw [hfits.ofNumber_number]

theorem Split.meets_inOutput (hc : V.T.classify t = .split) :
    V.Meets (Split.inOutput V.id i) V.Observes := by
  have hhalf := V.regular.halved hc
  obtain ⟨hvector, _, _, _⟩ := ValueType.half?_eq_some hhalf
  refine .bind (.operandLanes hi hvector) fun v hv => ?_
  refine .bind (.vectorHalves hv.1 hv.2 hc) ?_
  rintro ⟨lo, hi'⟩ ⟨m, m', hlo, hhi, hm⟩
  refine Meets.outputOfTwo hop hresults hi (by rw [hc]; simp) (fun htotal => ?_)
    (ValueType.bits_half hhalf).2 hlo hhi fun hs => ?_
  · have := ((V.plain htotal).words _ (V.mem_types hi)).2
    rw [hvector] at this
    cases this
  · have hfits := hv.2.fits hs
    rw [V.data_vector hs hi hvector, ← Datum.number_append hhalf
      (Datum.fits_vector.1 (hlo.fits hs)).2.1, ← hm hs, hfits.ofNumber_number]

end

end Legal

end Dataflow
