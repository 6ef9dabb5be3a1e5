import Dataflow.Proofs.ReadyDraft

/-!
# Reinterpretation

A bitcast keeps the bits of its operand, whichever rules convert it: the parts of a converted
result, the low one first, have the bits of the source, and so has what takes the place of a legal
result.
-/

namespace Dataflow

/-- A single part has room for the value, and two parts have no more than that. -/
theorem Target.Regular.bits_parts {T : Target} {t : ValueType} {kind : Legal.ConversionKind}
    (hT : T.Regular) (hk : (T.classify t).kind? = some kind) :
    if kind.isPair then t.bits = 2 * (T.transform t).bits else t.bits ≤ (T.transform t).bits := by
  have hsuits := hT.suits t
  cases hc : T.classify t with
  | legal =>
    rw [hc] at hk
    cases hk
  | promoteInteger =>
    rw [hc] at hk hsuits
    cases hk
    exact Nat.le_of_lt hsuits.2.2.1
  | expandInteger =>
    rw [hc] at hk hsuits
    cases hk
    exact hsuits.2.2.1
  | promoteFloat =>
    rw [hc] at hk hsuits
    cases hk
    exact Nat.le_of_eq hsuits.2.2.2.1.symm
  | expandFloat =>
    rw [hc] at hk hsuits
    cases hk
    obtain ⟨rfl, hpart⟩ := hsuits
    rw [hpart]
    rfl
  | scalarize =>
    rw [hc] at hk hsuits
    cases hk
    exact Nat.le_of_eq (by rw [hsuits.2, ValueType.bits_scalar hsuits.1])
  | split =>
    rw [hc] at hk hsuits
    cases hk
    exact (ValueType.bits_half hsuits).2

namespace Legal

open Draft

variable {T : Target} {d d' : Draft} {args : Array BitString} {values : Values} {id : NodeId}
  {n : Node} {t u : ValueType} {v : Value} {e : Datum} {a : Nat}

/-- The bits of parts of type `s` that are at hand, the low part first. -/
inductive Draft.HasBits (d : Draft) (values : Values) (s : ValueType) : Parts → BitString → Prop
  | one {w : Value} {x : Datum} : d.Has values w s x →
    HasBits d values s (.one w) (BitString.ofDatum x s)
  | two {lo hi : Value} {x y : Datum} : d.Has values lo s x → d.Has values hi s y →
    HasBits d values s (.two lo hi) (BitString.ofDatum x s ++ BitString.ofDatum y s)

/-- Parts that make up the datum with the bits of `a` start with these bits. -/
theorem RewriteSpec.Represents.hasBits {V : RewriteSpec} {p : Parts} (h : V.Represents t p)
    (hends : V.Ends d values) (ha : p.assemble V.T V.val t = .ofNumber t a) :
    ∃ bits, d.HasBits values (V.T.transform t) p bits ∧
      bits.bits.take t.bits = (BitString.ofNumber t.bits a).bits := by
  obtain ⟨kind, hkind, hpair, _⟩ := h.suits
  have hbits := V.regular.bits_parts hkind
  have hparts := h.parts
  cases p with
  | one w =>
    rw [← hpair] at hbits
    have hbits : t.bits ≤ (V.T.transform t).bits := hbits
    have hw : V.Is w (V.T.transform t) (V.val w.node) := hparts
    refine ⟨_, .one (hends.has hw), ?_⟩
    rw [BitString.ofDatum_eq (hw.fits hends.sem), BitString.take_ofNumber hbits]
    exact congrArg _ (BitString.ofNumber_congr (Datum.ofNumber_eq_iff.1 ha))
  | two lo hi =>
    rw [← hpair] at hbits
    have hbits : t.bits = 2 * (V.T.transform t).bits := hbits
    obtain ⟨hlo, hhi⟩ : V.Is lo (V.T.transform t) (V.val lo.node) ∧
      V.Is hi (V.T.transform t) (V.val hi.node) := hparts
    refine ⟨_, .two (hends.has hlo) (hends.has hhi), ?_⟩
    rw [BitString.ofDatum_eq (hlo.fits hends.sem), BitString.ofDatum_eq (hhi.fits hends.sem),
      BitString.ofNumber_append, ← Nat.two_mul, ← hbits, BitString.take_ofNumber (Nat.le_refl _),
      Nat.mod_eq_of_lt (hlo.fits hends.sem).number_lt]
    exact congrArg _ (BitString.ofNumber_congr (Datum.ofNumber_eq_iff.1 ha))

theorem bits_of_bitcast (h : d.Ready T values id n [u] t) (hop : n.opcode = .bitcast) : u.bits = t.bits := by
  have hsig := h.signature
  rw [hop] at hsig
  cases hsig with
  | bitcast hbits => exact hbits

theorem evaluates_bitcast (h : d.Ready T values id n [u] t) (hop : n.opcode = .bitcast)
    (args : Array BitString) : ∃ x, Eval.node ⟨d.graph, args, values⟩ id = .ok x := by
  have hequipped : n.Equipped := by
    unfold Node.Equipped
    rw [hop]
    trivial
  have hdefined (data : List Datum) : n.Defined args data [u] := by
    unfold Node.Defined
    rw [hop]
    trivial
  obtain ⟨x, hx, _⟩ := h.evaluates args hequipped hdefined
  exact ⟨x, hx⟩

/-- The source of a bitcast is of its type. -/
theorem fits_source (h : d.Ready T values id n [u] t) (hv : n.operands = [v])
    (he : values[v.node]? = some (some e)) : e.Fits u := by
  have hall := h.operands
  rw [hv] at hall
  cases hall with
  | cons hsource _ =>
    obtain ⟨x, hsource⟩ := hsource
    cases Option.some.inj (Option.some.inj (he.symm.trans hsource.read))
    exact hsource.fits

/-- Bitcasts keep the bits, for every target: where a rule converts the result, its parts start with
the bits of the source, and where a rule converts the source, the new value has these bits. -/
theorem bitcast_exact {D : Description} (hT : D.target = .ok T) (h : d.Ready T values id n [u] t)
    (hop : n.opcode = .bitcast) (hv : n.operands = [v]) (he : values[v.node]? = some (some e)) :
    (∀ rule p d', resultRule? (T.classify t) .bitcast = some rule →
      (rule T id 0).run d = .ok p d' →
      ∃ bits values', d'.graph.evaluateFrom args values = .ok values' ∧
        d'.HasBits values' (T.transform t) p bits ∧
        bits.bits.take t.bits = (BitString.ofDatum e u).bits) ∧
    ∀ rule s d', T.classify t = .legal → operandRule? (T.classify u) .bitcast = some rule →
      (rule T id 0).run d = .ok s d' →
      ∃ w x values', s = .value w ∧ d'.graph.evaluateFrom args values = .ok values' ∧
        d'.Has values' w t x ∧ BitString.ofDatum x t = BitString.ofDatum e u := by
  have hregular := Description.target_regular hT
  have hbits := bits_of_bitcast h hop
  have hfits := fits_source h hv he
  have hsig : Signature T.Wide .bitcast [u] t := .bitcast hbits
  obtain ⟨y, hy⟩ := evaluates_bitcast h hop args
  have hattr (hindexes : ¬ n.Indexes) : n.Attributed (T.Within (.top False)) [u] :=
    h.attributed hy (by simp [hop]) hindexes _
  let V {g : Graph} (hg : d.graph.Extends g) : RewriteSpec := h.rewriteSpec hregular hg args
    (fun _ => trivial : False → True) False.elim (fun _ => hattr) fun _ => hy
  have hn {g : Graph} (hg : d.graph.Extends g) : (V hg).Shows .bitcast [u] t :=
    ⟨hop, rfl, h.results⟩
  have hdatum {g : Graph} (hg : d.graph.Extends g) {x : Datum} (hx : (V hg).Accepts x) :
      x = .ofNumber t (e.number u) := by
    rw [((hn hg).accepts_iff (by simp)).1 hx, (hn hg).datum_bitcast trivial hbits,
      Draft.Ready.data_rewriteSpec (by rw [hv]; rfl) he]
  constructor
  · intro rule p d' hrule hrun
    obtain ⟨hrepresents, values', heval, hends⟩ := h.of_ok hrun
      (.resultRule (V := V (Edit.grows_of_ok hrun).graph) (hn _) (.inl hsig)
        (fun hreads => by cases hreads) hrule)
    obtain ⟨bits, hparts, htake⟩ :=
      hrepresents.hasBits hends (hdatum _ (hrepresents.datum trivial))
    refine ⟨bits, values', heval, hparts, ?_⟩
    rw [htake, BitString.ofDatum_eq hfits, hbits]
  · intro rule s d' hlegal hrule hrun
    obtain ⟨⟨w, hw, hstands⟩, values', heval, hends⟩ := h.of_ok hrun
      (.operandRule (V := V (Edit.grows_of_ok hrun).graph) (hn _) (.inl hsig) hlegal (i := 0) rfl
        (fun hreads => by cases hreads) hrule)
    have hx := hdatum _ (hstands.datum trivial)
    refine ⟨w, _, values', hw, heval, hends.has (hstands.is.congr fun _ => hx), ?_⟩
    rw [BitString.ofDatum_eq (Datum.fits_ofNumber t _), BitString.ofDatum_eq hfits,
      Datum.number_ofNumber, hbits]
    exact BitString.ofNumber_congr (Nat.mod_mod _ _)

/-- Four bytes in two halves, seen as two words of 16 bits and as one of 32. -/
def bytesDraft : Draft where
  graph := ((((Graph.empty.push { opcode := .argument, results := [.v2i8], attr := .arg 0 0 }).push
    { opcode := .argument, results := [.v2i8], attr := .arg 0 16 }).push
    { opcode := .concatVectors, operands := [⟨0, 0⟩, ⟨1, 0⟩], results := [.v4i8] }).push
    { opcode := .bitcast, operands := [⟨2, 0⟩], results := [.v2i16] }).push
    { opcode := .bitcast, operands := [⟨2, 0⟩], results := [.i32] }
  conversions := .ofList [(⟨2, 0⟩, ⟨.split, .two ⟨0, 0⟩ ⟨1, 0⟩⟩)]

def bytesValues : Values :=
  #[some (.vector [1, 2]), some (.vector [3, 4]), some (.vector [1, 2, 3, 4]), none, none]

theorem ready_bytesDraft (hkind : (T.classify .v4i8).kind? = some .split)
    (hhalf : T.transform .v4i8 = .v2i8) (hn : bytesDraft.graph.nodes[id]? = some n)
    (hops : n.operands = [⟨2, 0⟩]) (hres : n.results = [t])
    (hsig : Signature T.Wide n.opcode [.v4i8] t) : bytesDraft.Ready T bytesValues id n [.v4i8] t := by
  have hlow : (Datum.vector [1, 2]).Fits .v2i8 := Datum.fits_vector.2 (by decide)
  have hhigh : (Datum.vector [3, 4]).Fits .v2i8 := Datum.fits_vector.2 (by decide)
  have hparts : bytesDraft.HasParts T bytesValues .v4i8 ⟨.split, .two ⟨0, 0⟩ ⟨1, 0⟩⟩
      (.vector ([1, 2] ++ [3, 4])) := by
    rw [← Datum.ofNumber_halves (t := .v4i8) rfl hlow hhigh, ← hhalf]
    rw [← hhalf] at hlow hhigh
    exact .two hkind rfl ⟨by rw [hhalf]; rfl, rfl, hlow⟩ ⟨by rw [hhalf]; rfl, rfl, hhigh⟩
  refine ⟨Draft.traceable_of_replaced_eq rfl, rfl, hn, hres, hsig, ?_⟩
  rw [hops]
  have hfits : (Datum.vector [1, 2, 3, 4]).Fits .v4i8 := Datum.fits_vector.2 (by decide)
  exact .cons ⟨_, ⟨rfl, rfl, hfits⟩, rfl, rfl, fun _ => ⟨_, rfl, hparts⟩⟩ .nil

theorem bitcast_exact_bytes : ∃ T, Target.int32.target = .ok T ∧
    (∃ rule p d' bits values', resultRule? (T.classify .v2i16) .bitcast = some rule ∧
      (rule T 3 0).run bytesDraft = .ok p d' ∧
      d'.graph.evaluateFrom #[] bytesValues = .ok values' ∧
      d'.HasBits values' (T.transform .v2i16) p bits ∧
      bits.bits.take 32 = (BitString.ofDatum (.vector [1, 2, 3, 4]) .v4i8).bits) ∧
    ∃ rule w x d' values', operandRule? (T.classify .v4i8) .bitcast = some rule ∧
      (rule T 4 0).run bytesDraft = .ok (.value w) d' ∧
      d'.graph.evaluateFrom #[] bytesValues = .ok values' ∧ d'.Has values' w .i32 x ∧
      BitString.ofDatum x .i32 = BitString.ofDatum (.vector [1, 2, 3, 4]) .v4i8 := by
  have hfacts : (Target.int32.target.toOption.map fun T =>
      decide (T.classify .v4i8 = .split ∧ T.transform .v4i8 = .v2i8 ∧ T.classify .v2i16 = .split ∧
        T.classify .i32 = .legal) &&
        (((ResultRule.ofTwo Split.ofBitcast T 3 0).run bytesDraft).succeeds &&
          ((Successor.value <$> Split.inBitcast T 4).run bytesDraft).succeeds)) = some true := rfl
  obtain ⟨T, hT, hfacts⟩ := Description.exists_target hfacts
  obtain ⟨hclass, hsucceeds⟩ := Bool.and_eq_true_iff.1 hfacts
  obtain ⟨hsucceeds, hsucceeds'⟩ := Bool.and_eq_true_iff.1 hsucceeds
  obtain ⟨hsplit, hhalf, hresult, hlegal⟩ := of_decide_eq_true hclass
  obtain ⟨p, d₁, hrun₁⟩ := Edited.exists_ok hsucceeds
  obtain ⟨s, d₂, hrun₂⟩ := Edited.exists_ok hsucceeds'
  have hready {id : NodeId} {n : Node} {t : ValueType}
      (hn : bytesDraft.graph.nodes[id]? = some n) (hops : n.operands = [⟨2, 0⟩])
      (hres : n.results = [t]) (hsig : Signature T.Wide n.opcode [.v4i8] t) :=
    ready_bytesDraft (by rw [hsplit]; rfl) hhalf hn hops hres hsig
  have hrule : resultRule? (T.classify .v2i16) .bitcast = some (ResultRule.ofTwo Split.ofBitcast) := by
    rw [hresult]
    rfl
  have hrule' : operandRule? (T.classify .v4i8) .bitcast =
      some fun T id _ => Successor.value <$> Split.inBitcast T id := by
    rw [hsplit]
    rfl
  obtain ⟨bits, values₁, heval₁, hbits, htake⟩ := (@bitcast_exact T bytesDraft #[] bytesValues 3 _ _ _
    _ _ _ hT (hready rfl rfl rfl (.bitcast rfl)) rfl rfl rfl).1 _ p d₁ hrule hrun₁
  obtain ⟨w, x, values₂, rfl, heval₂, hw, hx⟩ := (@bitcast_exact T bytesDraft #[] bytesValues 4 _ _ _
    _ _ _ hT (hready rfl rfl rfl (.bitcast rfl)) rfl rfl rfl).2 _ s d₂ hlegal hrule' hrun₂
  exact ⟨T, hT, ⟨_, p, d₁, bits, values₁, hrule, hrun₁, heval₁, hbits, htake⟩,
    _, w, x, d₂, values₂, hrule', hrun₂, heval₂, hw, hx⟩

end Legal

end Dataflow
