import Dataflow.Proofs.Literals
import Dataflow.Proofs.Determination

/-!
# Every draft has a model

Data of a draft are found from the lowest rank up: redirected values take the datum of their
successor, converted values are put together from their parts, and all other nodes take the datum
that they mean. Data of nodes that are in place may be given beforehand, if the meanings allow them.
-/

namespace Dataflow.Legal

variable {T : Target} {limit : Limit} {strict total : Prop} {g : Graph} {n : Node}
  {ts : List ValueType} {t u : ValueType} {id bits : Nat} {args : Array BitString}
  {val val₀ : Nat → Datum} {rank : Nat → Nat} {p : Nat → Prop}

/-- A demand on data that looks at data of lower rank only can be met. -/
theorem exists_fixedPoint (rank : Nat → Nat) {F : (Nat → Datum) → Nat → Datum}
    (hF : ∀ val val' id, (∀ j, rank j < rank id → val j = val' j) → F val id = F val' id) :
    ∃ val, ∀ id, val id = F val id := by
  let step (id : Nat) (below : ∀ j, rank j < rank id → Datum) : Datum :=
    F (fun j => if h : rank j < rank id then below j h else .scalar 0) id
  let val := (measure rank).wf.fix step
  refine ⟨val, fun id => ?_⟩
  have heq : val id = step id fun j _ => val j := (measure rank).wf.fix_eq step id
  rw [heq]
  exact hF _ _ id fun j hj => dif_pos hj

/-- The parts of a scalar are scalars that are wide enough. -/
theorem Conversion.Suits.scalar {c : Conversion} {τ : Value → Option ValueType} (h : c.Suits T τ t)
    (hT : T.Regular) (ht : t.isVector = false) : (T.transform t).isVector = false ∧
      (c.parts.isPair = false → t.bits ≤ (T.transform t).bits) ∧
      (c.parts.isPair = true → t.bits = 2 * (T.transform t).bits) := by
  have hsuits := hT.suits t
  obtain ⟨hkind, hpair, _⟩ := h
  obtain ⟨kind, parts⟩ := c
  dsimp only at hkind hpair ⊢
  rw [hpair]
  cases hc : T.classify t <;> rw [hc] at hsuits hkind <;> cases hkind
  case promoteInteger => exact ⟨hsuits.2.1.2, fun _ => Nat.le_of_lt hsuits.2.2.1, nofun⟩
  case promoteFloat => exact ⟨hsuits.2.2.1.2, fun _ => Nat.le_of_eq hsuits.2.2.2.1.symm, nofun⟩
  case expandInteger => exact ⟨hsuits.2.1.2, nofun, fun _ => hsuits.2.2.1⟩
  case expandFloat =>
    obtain ⟨rfl, hpart⟩ := hsuits
    rw [hpart]
    exact ⟨rfl, nofun, fun _ => rfl⟩
  case scalarize =>
    rw [ValueType.isVector, hsuits.1] at ht
    cases ht
  case split =>
    rw [(ValueType.half?_eq_some hsuits).1] at ht
    cases ht

/-- An integer constant that suits its type. -/
theorem Suited.literal (h : Suited T limit True total g n ts) (hop : n.opcode = .constant)
    (hattr : n.attr = .imm bits) (hres : n.results = [t]) (ht : t.isVector = false) :
    n = literal t bits ∧ ts = [] ∧ bits < 2 ^ t.bits := by
  have hsig := h.typed.sig_of_results hres
  rw [hop] at hsig
  obtain rfl : ts = [] := by
    rcases hsig with hsig | ⟨_, hlib, _⟩
    · cases hsig
      rfl
    · cases hlib
  have hoperands : n.operands = [] := by simpa using h.reads
  have hattributed := h.attributed trivial
  unfold Node.Attributed at hattributed
  rw [hop, hres] at hattributed
  obtain ⟨bits', hattr', hlt⟩ := hattributed
  rw [hattr] at hattr'
  cases hattr'
  refine ⟨?_, rfl, by rwa [ValueType.bits_eq_laneBits ht]⟩
  obtain ⟨op, ops, results, attr⟩ := n
  simp only at hop hattr hres hoperands
  rw [hop, hoperands, hres, hattr]
  rfl

theorem meaning_literal_eq (args : Array BitString) (ht : t.isVector = false) (hbits : bits < 2 ^ t.bits) :
    (literal t bits).meaning args [] [] = .ok (.scalar bits) := by
  rw [literal, Node.meaning_literal (.inl rfl) ht, Nat.mod_eq_of_lt hbits]

namespace Draft

variable {d : Draft}

/-- Data `val₀` of nodes in `p` that are in place and read nodes in `p`, each of its type and allowed
by the meaning of its node. -/
structure Admits (d : Draft) (loose : ValueType → Prop) (args : Array BitString) (p : Nat → Prop)
    (val₀ : Nat → Datum) : Prop where
  plain : ∀ id, p id → d.replaced.next? ⟨id, 0⟩ = none
  free : ∀ id, p id → d.conversions.get? ⟨id, 0⟩ = none
  closed : ∀ (id : Nat) n v, p id → d.graph.nodes[id]? = some n → v ∈ n.operands →
    p (d.replaced.canon v).node
  fits : ∀ v t, p v.node → d.graph.typeOf? v = some t → (val₀ v.node).Fits t
  obeys : ∀ (id : Nat) n ts e, p id → d.graph.nodes[id]? = some n →
    n.operands.map d.graph.typeOf? = ts.map some →
    n.meaning args (n.operands.map fun v => val₀ (d.replaced.canon v).node) ts = .ok e →
    n.Allows loose ts e (val₀ id)

theorem admits_none (d : Draft) (loose : ValueType → Prop) (args : Array BitString)
    (val₀ : Nat → Datum) : d.Admits loose args (fun _ => False) val₀ :=
  ⟨nofun, nofun, nofun, nofun, nofun⟩

/-- The datum that a node means, or zero. -/
def meaningAt (d : Draft) (args : Array BitString) (val : Nat → Datum) (n : Node) : Datum :=
  (n.meaning args (n.operands.map (val ·.node))
    (n.operands.map fun v => (d.graph.typeOf? v).getD .i1)).toOption.getD
      (.ofNumber (n.results.head?.getD .i1) 0)

open Classical in
/-- The datum that node `id` has to have for given data of the nodes below it. -/
noncomputable def dictate (d : Draft) (T : Target) (args : Array BitString) (p : Nat → Prop)
    (val₀ val : Nat → Datum) (id : Nat) : Datum :=
  if p id then val₀ id
  else (d.graph.nodes[id]?).elim (.scalar 0) fun n =>
    (d.replaced.next? ⟨id, 0⟩).elim
      ((d.conversions.get? ⟨id, 0⟩).elim (d.meaningAt args val n) fun c =>
        c.parts.assemble T val (n.results.head?.getD .i1))
      (val ·.node)

theorem dictate_congr (hd : d.Ordered rank) {val' : Nat → Datum}
    (h : ∀ j, rank j < rank id → val j = val' j) :
    d.dictate T args p val₀ val id = d.dictate T args p val₀ val' id := by
  unfold dictate
  split
  · rfl
  · cases hn : d.graph.nodes[id]? with
    | none => rfl
    | some n =>
      cases hw : d.replaced.next? ⟨id, 0⟩ with
      | some w => exact h _ (hd.next _ w hw).2.2
      | none =>
        cases hc : d.conversions.get? ⟨id, 0⟩ with
        | some c =>
          have hparts := (hd.parts _ c hc).2
          obtain ⟨kind, parts⟩ := c
          cases parts with
          | one w => simp only [Option.elim_some, Option.elim_none, Parts.assemble, h _ hparts.2]
          | two lo hi =>
            simp only [Option.elim_some, Option.elim_none, Parts.assemble, h _ hparts.1.2,
              h _ hparts.2.2]
        | none =>
          have hdata : n.operands.map (val ·.node) = n.operands.map (val' ·.node) :=
            List.map_congr_left fun v hv => h _ (hd.operands id n v hn hv).2
          simp only [Option.elim_some, Option.elim_none, meaningAt, hdata]

/-- Data that are found from the lowest rank up, beyond the data `val₀` of the nodes in `p`. -/
structure Finds (d : Draft) (T : Target) (limit : Limit) (args : Array BitString) (p : Nat → Prop)
    (val₀ : Nat → Datum) (rank : Nat → Nat) (val : Nat → Datum) : Prop where
  regular : T.Regular
  ordered : d.Ordered rank
  typed : d.Typed T limit True False
  tidy : d.Tidy T
  admits : d.Admits (T.Loose limit) args p val₀
  dictated : ∀ id, val id = d.dictate T args p val₀ val id

namespace Finds

theorem given (h : d.Finds T limit args p val₀ rank val) (hid : p id) : val id = val₀ id := by
  rw [h.dictated, dictate, if_pos hid]

theorem next (h : d.Finds T limit args p val₀ rank val) {v w : Value}
    (hw : d.replaced.next? v = some w) : val v.node = val w.node := by
  obtain ⟨t, hv, _⟩ := h.typed.redirected v (by rw [hw]; simp)
  obtain ⟨n, ts, hn, _, _, hslot⟩ := h.typed.node_of_typeOf? hv
  have hnot : ¬ p v.node := fun hpv => by
    have := h.admits.plain _ hpv
    rw [← hslot, hw] at this
    cases this
  rw [h.dictated, dictate, if_neg hnot, hn, Option.elim_some, ← hslot, hw, Option.elim_some]

theorem canon (h : d.Finds T limit args p val₀ rank val) (v : Value) :
    val (d.replaced.canon v).node = val v.node := by
  have hr := h.ordered.descends.reaches_canon v
  generalize d.replaced.canon v = w at hr
  induction hr with
  | refl => rfl
  | step hw _ ih => rw [ih, h.next hw]

theorem entry (h : d.Finds T limit args p val₀ rank val) {v : Value} {c : Conversion}
    (hc : d.conversions.get? v = some c) (hv : d.graph.typeOf? v = some t) :
    val v.node = c.parts.assemble T val t := by
  obtain ⟨n, ts, hn, _, hres, hslot⟩ := h.typed.node_of_typeOf? hv
  have hnot : ¬ p v.node := fun hpv => by
    have := h.admits.free _ hpv
    rw [← hslot, hc] at this
    cases this
  have hnone : d.replaced.next? v = none := by
    by_contra hne
    rw [h.tidy.apart v hne] at hc
    cases hc
  rw [h.dictated, dictate, if_neg hnot, hn, Option.elim_some, ← hslot, hnone, Option.elim_none, hc,
    hres]
  rfl

/-- Nodes in place have the datum that they mean. -/
theorem meant (h : d.Finds T limit args p val₀ rank val) (hnot : ¬ p id)
    (hn : d.graph.nodes[id]? = some n) (hnext : d.replaced.next? ⟨id, 0⟩ = none)
    (hget : d.conversions.get? ⟨id, 0⟩ = none)
    (hreads : n.operands.map d.graph.typeOf? = ts.map some) :
    val id = (n.meaning args (n.operands.map (val ·.node)) ts).toOption.getD
      (.ofNumber (n.results.head?.getD .i1) 0) := by
  have hts : n.operands.map (fun v => (d.graph.typeOf? v).getD .i1) = ts := by
    have := congrArg (List.map (Option.getD · .i1)) hreads
    simpa only [List.map_map, Function.comp_def, Option.getD_some, List.map_id'] using this
  rw [h.dictated, dictate, if_neg hnot, hn, Option.elim_some, hnext, Option.elim_none, hget,
    Option.elim_none, meaningAt, hts]

/-- The data are of the types. -/
theorem fits (h : d.Finds T limit args p val₀ rank val) {v : Value}
    (hv : d.graph.typeOf? v = some t) : (val v.node).Fits t := by
  induction hr : rank v.node using Nat.strong_induction_on generalizing v t with
  | _ r ih =>
  subst hr
  obtain ⟨n, ts, hn, hsuited, hres, hslot⟩ := h.typed.node_of_typeOf? hv
  by_cases hpv : p v.node
  · rw [h.given hpv]
    exact h.admits.fits v t hpv hv
  cases hw : d.replaced.next? v with
  | some w =>
    rw [h.next hw]
    refine ih _ (h.ordered.next v w hw).2.2 ?_ rfl
    rw [h.typed.typeOf?_reaches h.ordered.descends (.step hw (.refl w)), hv]
  | none =>
    cases hc : d.conversions.get? v with
    | some c =>
      rw [h.entry hc hv]
      cases c.parts <;> exact Datum.fits_ofNumber t _
    | none =>
      rw [h.meant hpv hn (hslot ▸ hw) (hslot ▸ hc) hsuited.reads]
      cases he : n.meaning args (n.operands.map (val ·.node)) ts with
      | error e =>
        rw [hres]
        exact Datum.fits_ofNumber t 0
      | ok e =>
        have hfits : List.Forall₂ Datum.Fits (n.operands.map (val ·.node)) ts :=
          Graph.forall₂_fits hsuited.reads fun w hw u hu =>
            ih _ (h.ordered.operands _ n w hn hw).2 hu rfl
        exact Node.fits_of_meaning (fun _ => hsuited.attributed trivial)
          (fun offset t hwithin => Nat.le_trans hwithin.le limit.bound_le)
          (hsuited.typed.sig_of_results hres).sensible hres
          (by simpa only [List.length_map] using congrArg List.length hsuited.reads) hfits he

/-- Constants have their bits. -/
theorem constant (h : d.Finds T limit args p val₀ rank val) {v : Value}
    (hn : d.graph.nodes[v.node]? = some n) (hop : n.opcode = .constant) (hattr : n.attr = .imm bits)
    (hv : d.graph.typeOf? v = some t) (ht : t.isVector = false) : val v.node = .scalar bits := by
  induction hr : rank v.node using Nat.strong_induction_on generalizing v n t bits with
  | _ r ih =>
  subst hr
  obtain ⟨m, ts, hm, hsuited, hres, hslot⟩ := h.typed.node_of_typeOf? hv
  cases hn.symm.trans hm
  obtain ⟨rfl, rfl, hlt⟩ := hsuited.literal hop hattr hres ht
  have hmeaning := meaning_literal_eq args ht hlt
  by_cases hpv : p v.node
  · have hallows := h.admits.obeys _ _ [] _ hpv hn rfl hmeaning
    rw [Node.Allows, if_neg (by simp [literal])] at hallows
    rw [h.given hpv, hallows]
  have hnext := h.tidy.plain v _ hn rfl
  cases hc : d.conversions.get? v with
  | none =>
    have hmeant := h.meant hpv hn (hslot ▸ hnext) (hslot ▸ hc) hsuited.reads
    rw [show (literal t bits).operands.map (val ·.node) = [] from rfl, hmeaning] at hmeant
    exact hmeant
  | some c =>
    obtain ⟨t', ht', hsuits⟩ := h.typed.converted v c hc
    cases hv.symm.trans ht'
    obtain ⟨hscalar, hone, htwo⟩ := hsuits.scalar h.regular ht
    have hspell := h.tidy.spelled v _ t bits c hn rfl rfl hv hc
    have hparts := (h.ordered.parts v c hc).2
    have htypes := hsuits.parts
    rw [h.entry hc hv]
    obtain ⟨kind, parts⟩ := c
    cases parts with
    | one w =>
      have hw := ih _ hparts.2 hspell rfl rfl htypes hscalar rfl
      rw [Parts.assemble, hw, Datum.number_scalar, Datum.ofNumber_word ht,
        Nat.mod_mod_of_dvd _ (Nat.pow_dvd_pow 2 (hone rfl)), Nat.mod_eq_of_lt hlt]
    | two lo hi =>
      have hlo := ih _ hparts.1.2 hspell.1 rfl rfl htypes.1 hscalar rfl
      have hhi := ih _ hparts.2.2 hspell.2 rfl rfl htypes.2 hscalar rfl
      rw [Parts.assemble, hlo, hhi, Datum.number_scalar, Datum.number_scalar, ← Word.mod_double,
        ← htwo rfl, Datum.ofNumber_word ht, Nat.mod_mod, Nat.mod_eq_of_lt hlt]

/-- What is found is a model. -/
theorem models (h : d.Finds T limit args p val₀ rank val) :
    d.Models T limit args (fun _ => True) val where
  fits v t hv := h.fits hv
  canon := h.canon
  entry v c t hc hv := h.entry hc hv
  obeys j n ts e _ hn hnext hget hreads he := by
    obtain ⟨ts', hsuited⟩ := h.typed.nodes j n hn
    cases List.eq_of_map_some (hreads.symm.trans hsuited.reads)
    by_cases hpj : p j
    · rw [h.given hpj]
      refine h.admits.obeys j n ts e hpj hn hreads ?_
      rw [← he]
      congr 1
      refine List.map_congr_left fun v hv => ?_
      rw [← h.given (h.admits.closed j n v hpj hn hv), h.canon]
    · have hmeant := h.meant hpj hn hnext hget hreads
      rw [he] at hmeant
      obtain ⟨t, hres⟩ : ∃ t, n.results = [t] := by
        rcases hsuited.typed with ⟨_, hres⟩ | ⟨t, hres, _⟩
        · rw [Node.meaning, hres] at he
          cases he
        · exact ⟨t, hres⟩
      have htype : d.graph.typeOf? ⟨j, 0⟩ = some t := by simp [Graph.typeOf?, hn, hres]
      have hfits := h.fits htype
      have heq : val j = e := hmeant
      rw [heq] at hfits ⊢
      exact Node.allows_self (hsuited.typed.sig_of_results hres).sensible hfits
  constants v n t bits hn hop hattr hv ht := h.constant hn hop hattr hv ht

end Finds

/-- Data of nodes in place can be extended to a model. Other nodes in place have exactly the data
that they mean. -/
theorem exists_finds (hT : T.Regular) (hd : d.Ordered rank) (ht : d.Typed T limit True False)
    (htidy : d.Tidy T) (hp : d.Admits (T.Loose limit) args p val₀) :
    ∃ val, d.Finds T limit args p val₀ rank val := by
  obtain ⟨val, hval⟩ := exists_fixedPoint rank (F := d.dictate T args p val₀)
    fun val val' id h => dictate_congr hd h
  exact ⟨val, hT, hd, ht, htidy, hp, hval⟩

end Draft

end Dataflow.Legal
