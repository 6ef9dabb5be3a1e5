import Dataflow.Proofs.ReadyDraft

/-!
# Promoted integers

Nothing is known of the bits of a carrier above the integer that it carries. The rules for promoted
integers never let them through: on any carriers of the operands of a node, the low bits of the
carrier that a result rule makes are those of the node, and the value that an operand rule puts in
the place of the node has the very datum of the node.
-/

namespace Dataflow.Legal

namespace Edit

variable {α β : Type}

/-- No obstacle stops the edit, whatever draft it is run on. -/
def Unhindered (x : Edit α) : Prop :=
  ∀ d e d', x.run d = .error e d' → ¬ e.IsObstacle

namespace Unhindered

theorem pure (a : α) : (Pure.pure a : Edit α).Unhindered := by
  intro d e d' h
  cases h

theorem bind {x : Edit α} {f : α → Edit β} (hx : x.Unhindered) (hf : ∀ a, (f a).Unhindered) :
    (x >>= f).Unhindered := by
  intro d e d' h
  rw [run_bind] at h
  cases hr : x.run d with
  | ok a d₁ =>
    rw [hr] at h
    exact hf a d₁ e d' h
  | error e₁ d₁ =>
    rw [hr] at h
    cases h
    exact hx d e d' hr

theorem map {x : Edit α} (f : α → β) (hx : x.Unhindered) : (f <$> x).Unhindered :=
  bind hx fun a => pure (f a)

theorem fault (f : Fault) : (throw (.fault f) : Edit α).Unhindered := by
  intro d e d' h
  cases h
  exact id

theorem lift (y : Except Fault α) : (liftM y : Edit α).Unhindered := by
  cases y with
  | ok a => exact pure a
  | error f => exact fault f

theorem draft : Edit.draft.Unhindered := by
  intro d e d' h
  cases h

theorem mapM {f : α → Edit β} (hf : ∀ a, (f a).Unhindered) (as : List α) :
    (as.mapM f).Unhindered := by
  induction as with
  | nil => exact pure []
  | cons a as ih =>
    rw [List.mapM_cons]
    exact bind (hf a) fun b => bind ih fun bs => pure (b :: bs)

theorem node (id : NodeId) : (Edit.node id).Unhindered :=
  bind draft fun _ => lift _

theorem typeOf (v : Value) : (Edit.typeOf v).Unhindered :=
  bind draft fun _ => lift _

theorem resultType (id : NodeId) (slot : Nat) : (Edit.resultType id slot).Unhindered := by
  apply bind (node id)
  intro n
  split
  · exact pure _
  · exact fault _

theorem canonical (v : Value) : (Edit.canonical v).Unhindered := by
  intro d e d' h
  unfold Edit.canonical at h
  dsimp only at h
  split at h
  · cases h
  · cases h
    exact id

theorem operand (id : NodeId) (i : Nat) : (Edit.operand id i).Unhindered :=
  bind draft fun _ => bind (lift _) canonical

theorem operands (id : NodeId) : (Edit.operands id).Unhindered :=
  bind (node id) fun _ => mapM canonical _

theorem append (n : Node) : (Edit.append n).Unhindered := by
  intro d e d' h
  unfold Edit.append at h
  dsimp only at h
  split at h
  · cases h
  · cases h
    exact id

theorem build (i : Instr) : (Edit.build i).Unhindered := by
  apply bind draft
  intro d
  apply bind (lift _)
  intro n
  apply bind (bind (mapM canonical _) fun _ => append _)
  intro id
  exact pure _

theorem promoted (v : Value) : (Edit.promoted v).Unhindered := by
  apply bind (canonical v)
  intro key d e d' h
  unfold Edit.currentOne at h
  dsimp only at h
  split at h
  · cases h
    exact id
  · split at h
    · cases h
      exact id
    · split at h <;> cases h

/-! ### Widths -/

theorem zeroExtended (v : Value) : (Edit.zeroExtended v).Unhindered := by
  apply bind (typeOf v)
  intro t
  apply bind (promoted v)
  intro w
  apply bind (typeOf w)
  intro s
  split
  · exact pure w
  · exact bind (build _) fun _ => build _

theorem resize (fill : Fill) (v : Value) (t : ValueType) : (Edit.resize fill v t).Unhindered := by
  apply bind (typeOf v)
  intro s
  split
  · exact pure v
  · split <;> exact build _

theorem bitcast (v : Value) (t : ValueType) : (Edit.bitcast v t).Unhindered := by
  apply bind (typeOf v)
  intro s
  split
  · exact pure v
  · exact build _

theorem joinAt (width : Nat) (lo hi : Value) (t : ValueType) :
    (Edit.joinAt width lo hi t).Unhindered := by
  apply bind (resize _ _ _)
  intro lo'
  apply bind (resize _ _ _)
  intro hi'
  exact bind (build _) fun _ => bind (build _) fun _ => build _

end Unhindered

end Edit

variable {T : Target} {d d' : Draft} {args : Array BitString} {values : Values} {id : NodeId}
  {n : Node} {ts : List ValueType} {t u : ValueType} {e : Datum} {i : Nat}

namespace Widen

open Edit RuleSpec RewriteSpec

/-- Operations that compute promoted integers from their operands. -/
def resultOps : List Opcode :=
  [.int .add, .int .sub, .int .mul, .int .and, .int .or, .int .xor, .int .shl, .int .srl, .int .sra,
    .int .udiv, .int .sdiv, .count .ones, .count .leadingZeros, .count .trailingZeros, .setcc,
    .select, .truncate, .zeroExtend, .signExtend, .buildPair]

/-- Operations that compute legal values from operands some of which are promoted integers. -/
def operandOps : List Opcode :=
  [.setcc, .select, .zeroExtend, .signExtend, .buildPair, .buildVector, .insertElement,
    .extractElement]

/-! ### Operand rules that no obstacle stops -/

theorem unhindered_inSelect (id : NodeId) : (inSelect id 0).Unhindered := by
  apply Unhindered.bind (.operand id 0)
  intro c
  apply Unhindered.bind (.zeroExtended c)
  intro c'
  exact .bind (.operand id 1) fun a => .bind (.operand id 2) fun b => .build _

theorem unhindered_joinPair (T : Target) (id : NodeId) (t : ValueType) :
    (joinPair T id t).Unhindered := by
  apply Unhindered.bind (.operand id 0)
  intro lo
  apply Unhindered.bind (.operand id 1)
  intro hi
  apply Unhindered.bind (.typeOf lo)
  intro s
  apply Unhindered.bind (.typeOf lo)
  intro s₀
  have hjoin (lo' : Value) : Unhindered (typeOf hi >>= fun s₁ =>
      if T.classify s₁ = .promoteInteger then promoted hi >>= (joinAt s.bits lo' · t)
      else pure hi >>= (joinAt s.bits lo' · t)) := by
    apply Unhindered.bind (.typeOf hi)
    intro s₁
    split
    · exact .bind (.promoted hi) fun _ => .joinAt _ _ _ _
    · exact .bind (.pure hi) fun _ => .joinAt _ _ _ _
  split
  · exact .bind (.zeroExtended lo) hjoin
  · exact .bind (.pure lo) hjoin

theorem unhindered_inBuildVector (T : Target) (id : NodeId) : (inBuildVector T id).Unhindered := by
  apply Unhindered.bind (.resultType id 0)
  intro t
  apply Unhindered.bind (.operands id)
  intro vs
  apply Unhindered.bind (.mapM _ vs)
  · intro elements
    exact .build _
  · intro v
    apply Unhindered.bind (.typeOf v)
    intro s
    split
    · exact .promoted v
    · exact .pure v

theorem unhindered_laneIndex (T : Target) (index : Value) : (laneIndex T index).Unhindered :=
  .bind (.zeroExtended index) fun _ => .resize _ _ _

theorem unhindered_inInsert (T : Target) (id : NodeId) (hi : i = 1 ∨ i = 2) :
    (inInsert T id i).Unhindered := by
  apply Unhindered.bind (.operand id 0)
  intro vector
  apply Unhindered.bind (.operand id 1)
  intro element
  apply Unhindered.bind (.operand id 2)
  intro index
  rcases hi with rfl | rfl
  · exact .bind (.promoted element) fun _ => .build _
  · exact .bind (unhindered_laneIndex T index) fun _ => .build _

theorem unhindered_inExtract (T : Target) (id : NodeId) : (inExtract T id 1).Unhindered := by
  apply Unhindered.bind (.resultType id 0)
  intro t
  apply Unhindered.bind (.operand id 0)
  intro vector
  apply Unhindered.bind (.operand id 1)
  intro index
  exact .bind (unhindered_laneIndex T index) fun _ => .build _

/-- A pair has an integer of its width, where its halves are promoted. -/
theorem int?_pair (hT : T.Regular) (hc : T.classify u = .promoteInteger) (ht : t.bits = 2 * u.bits) :
    (ValueType.int? t.bits).isSome := by
  obtain ⟨hword, hwide, hlt, _⟩ := hT.promoted hc
  have hle := hwide.bits_le
  -- no type has two bits, so the halves are not single bits
  have htwo : t.bits ≠ 2 := by cases t <;> decide
  rcases hword.bits_cases with h | hbits | hbits | hbits | hbits | h
  · omega
  · rw [ht, hbits]
    rfl
  · rw [ht, hbits]
    rfl
  · rw [ht, hbits]
    rfl
  · rw [ht, hbits]
    rfl
  · omega

theorem inPair_run (hn : d.graph.nodes[id]? = some n) (hres : n.results = [t]) {wide : ValueType}
    (hwide : ValueType.int? t.bits = some wide) :
    (inPair T id).run d = (joinPair T id wide >>= fun v => bitcast v t).run d := by
  have hnode : (Edit.node id).run d = .ok n d := by
    show (liftM (d.graph.node id) : Edit Node).run d = _
    rw [Graph.node_of_getElem? hn]
    rfl
  have htype : (resultType id 0).run d = .ok t d := by
    unfold resultType
    rw [run_bind, hnode]
    simp only [hres]
    rfl
  unfold inPair
  rw [run_bind, htype]
  simp only [hwide]

/-- No obstacle stops the rules for promoted operands of a legal result. Comparisons and extensions
always succeed, as they are plain. -/
theorem not_obstacle (hT : T.Regular) (h : d.Ready T values id n ts t)
    (hlegal : T.classify t = .legal) (hi : ts[i]? = some u) (hc : T.classify u = .promoteInteger)
    (hop : n.opcode ∈ operandOps) (hplain : ¬(n.opcode.isPlain = true ∧ t.IsWord))
    {rule : OperandRule} (hrule : operand? n.opcode = some rule) {er : Error}
    (hrun : (rule T id i).run d = .error er d') : ¬ er.IsObstacle := by
  have hsig := h.signature
  have hillegal : T.classify u ≠ .legal := by rw [hc]; simp
  generalize n.opcode = op at hsig hop hplain hrule
  cases hsig with
  | setcc _ ht | zeroExtend _ ht | signExtend _ ht => exact absurd ⟨rfl, ht⟩ hplain
  | select =>
    cases hrule
    obtain ⟨rfl, _⟩ := condition_of_illegal (V := h.outline hT .refl) hlegal hi hillegal
    exact (unhindered_inSelect id).map _ d er d' hrun
  | buildPair _ hbits =>
    cases hrule
    obtain rfl : u = _ := by simpa using List.mem_of_getElem? hi
    obtain ⟨wide, hwide⟩ := Option.isSome_iff_exists.1 (int?_pair hT hc hbits)
    have hrun : (Successor.value <$> inPair T id).run d = .error er d' := hrun
    rw [map_eq_pure_bind, run_bind, inPair_run h.node_at h.results hwide, ← run_bind] at hrun
    have hjoin := (unhindered_joinPair T id wide).bind fun v => .bitcast v t
    exact hjoin.bind (fun _ => .pure _) d er d' hrun
  | buildVector =>
    cases hrule
    exact (unhindered_inBuildVector T id).map _ d er d' hrun
  | insertElement =>
    cases hrule
    rcases i with _ | _ | _ | i
    · -- the vector has the type of the result
      cases hi
      exact absurd hlegal hillegal
    · exact (unhindered_inInsert T id (.inl rfl)).map _ d er d' hrun
    · exact (unhindered_inInsert T id (.inr rfl)).map _ d er d' hrun
    · cases hi
  | extractElement hu =>
    cases hrule
    rcases i with _ | _ | i
    · -- a vector is never promoted
      cases hi
      rw [(hT.promoted hc).1.2] at hu
      cases hu
    · exact (unhindered_inExtract T id).map _ d er d' hrun
    · cases hi
  | _ => simp [operandOps] at hop

/-! ### Exactness -/

/-- Integer operations whose types are words can be converted without fail. -/
theorem plain_of_isWord {op : Opcode} (hsig : Signature T.Wide op ts t) (hop : op.isPlain = true)
    (hmulhu : op ≠ .int .mulhu) (ht : t.IsWord) (hc : T.classify t ≠ .expandInteger) :
    T.Plain op (t :: ts) := by
  refine ⟨hop, fun s hs => ?_, fun h => absurd h hmulhu, fun _ s hs => ?_⟩
  · rcases List.mem_cons.1 hs with rfl | hs
    · exact ht
    cases hsig with
    | argument | constant | undef => cases hs
    | int | count =>
      obtain rfl : s = t := by simpa using hs
      exact ht
    | setcc hu | zeroExtend hu | signExtend hu | anyExtend hu | truncate hu | buildPair hu =>
      obtain rfl : s = _ := by simpa using hs
      exact hu
    | @select c _ hcond =>
      have hs : s = c ∨ s = t := by simpa using hs
      rcases hs with rfl | rfl
      · exact hcond
      · exact ht
    | _ => cases hop
  · cases hs
    exact hc

theorem of_mem_resultOps : ∀ op ∈ resultOps, (result? op).isSome ∧ op.isPlain = true ∧
    op ∉ [.argument, .constant, .constantFp, .vectorShuffle] ∧ op ≠ .int .mulhu ∧
    ¬(op = .anyExtend ∨ op = .extractElement) := by
  decide

theorem of_mem_operandOps : ∀ op ∈ operandOps, (operand? op).isSome ∧
    op ∉ [.argument, .constant, .constantFp, .vectorShuffle] ∧ op ≠ .int .mulhu ∧
    op ≠ .anyExtend := by
  decide

theorem result_exact (hT : T.Regular) (h : d.Ready T values id n ts t)
    (heval : Eval.node ⟨d.graph, args, values⟩ id = .ok e) (hop : n.opcode ∈ resultOps)
    (hc : T.classify t = .promoteInteger) :
    ∃ rule w d' values' x, result? n.opcode = some rule ∧ (rule T id 0).run d = .ok w d' ∧
      d'.graph.evaluateFrom args values = .ok values' ∧
      d'.Has values' w (T.transform t) (.scalar x) ∧ e = .scalar (x % 2 ^ t.bits) := by
  obtain ⟨hsome, hisPlain, hliteral, hmulhu, hlow⟩ := of_mem_resultOps _ hop
  obtain ⟨rule, hrule⟩ := Option.isSome_iff_exists.1 hsome
  obtain ⟨hword, hwide, _, _⟩ := hT.promoted hc
  have hplain : T.Plain n.opcode (t :: ts) :=
    plain_of_isWord h.signature hisPlain hmulhu hword (by rw [hc]; simp)
  have hattr (hindexes : ¬ n.Indexes) : n.Attributed (T.Within (.top False)) ts :=
    h.attributed heval hliteral hindexes _
  let V {g : Graph} (hg : d.graph.Extends g) : RewriteSpec := h.rewriteSpec hT hg args
    (fun _ => trivial : True → True) (fun _ => hplain) (fun _ => hattr) fun _ => heval
  have hn {g : Graph} (hg : d.graph.Extends g) : (V hg).Shows n.opcode ts t := ⟨rfl, rfl, h.results⟩
  have hmeets (g : Graph) (hg : d.graph.Extends g) :
      (V hg).Meets (rule T id 0) ((V hg).Carried t) :=
    meets_result (hn hg) (.inl h.signature) hc hrule
  obtain ⟨w, d', values', hrun, hvalues, hg, hcarried, hends⟩ :=
    h.exists_ok hmeets fun hpartial => absurd trivial hpartial
  obtain ⟨x, hx, hval⟩ := Is.scalar hcarried.is hwide.2
  have hdatum := ((hn hg).accepts_iff hlow).1 (hcarried.datum trivial)
  refine ⟨rule, w, d', values', x, hrule, hrun, hvalues, hends.has hx, ?_⟩
  have hassemble : e = .ofNumber t (((V hg).val w.node).number (T.transform t)) := hdatum.symm
  rw [hassemble, hval trivial, Datum.number_scalar, Datum.ofNumber_word hword.2]

/-- Operand rules put a value with the very datum of the node in its place, lanes read from vectors
included. -/
theorem meets_operand_exact {V : RewriteSpec} {op : Opcode} (hn : V.Shows op ts t)
    (hsig : Signature V.T.Wide op ts t) (hlegal : V.T.classify t = .legal) (hi : ts[i]? = some u)
    (hc : V.T.classify u = .promoteInteger) {rule : OperandRule} (hrule : operand? op = some rule)
    (hop : op ≠ .anyExtend) (hexact : V.exact) :
    V.Meets (rule V.T V.id i) fun s => ∃ w, s = .value w ∧ V.Is w t V.datum := by
  by_cases hextract : op = .extractElement
  · subst hextract
    have hat (s : ValueType) (hs : ts[i]? = some s) : V.T.classify s = .promoteInteger := by
      rw [hi] at hs
      exact Option.some.inj hs ▸ hc
    cases hsig with
    | extractElement hu hcarries hindex =>
      cases hrule
      apply (meets_inExtract hn hu (.inl hcarries) hindex i hat).map
      intro w ⟨hstands, hdatum⟩
      exact ⟨w, rfl, hstands.is.congr fun hs => hdatum hs hexact⟩
  · apply (meets_operand hn (.inl hsig) hlegal hi hc hrule).mono
    rintro s ⟨w, rfl, hstands⟩
    refine ⟨w, rfl, hstands.is.congr fun hs => ?_⟩
    exact (hn.accepts_iff (by simp [hop, hextract])).1 (hstands.datum hs)

theorem operand_exact (hT : T.Regular) (h : d.Ready T values id n ts t)
    (heval : Eval.node ⟨d.graph, args, values⟩ id = .ok e) (hop : n.opcode ∈ operandOps)
    (hlegal : T.classify t = .legal) (hi : ts[i]? = some u) (hc : T.classify u = .promoteInteger) :
    ∃ rule w d' values', operand? n.opcode = some rule ∧
      (rule T id i).run d = .ok (.value w) d' ∧
      d'.graph.evaluateFrom args values = .ok values' ∧ d'.Has values' w t e := by
  obtain ⟨hsome, hliteral, hmulhu, hany⟩ := of_mem_operandOps _ hop
  obtain ⟨rule, hrule⟩ := Option.isSome_iff_exists.1 hsome
  have hplain (hp : n.opcode.isPlain = true ∧ t.IsWord) : T.Plain n.opcode (t :: ts) :=
    plain_of_isWord h.signature hp.1 hmulhu hp.2 (by rw [hlegal]; simp)
  have hattr (hindexes : ¬ n.Indexes) : n.Attributed (T.Within (.top False)) ts :=
    h.attributed heval hliteral hindexes _
  let V {g : Graph} (hg : d.graph.Extends g) : RewriteSpec :=
    h.rewriteSpec hT hg args (fun _ => trivial) hplain (fun _ => hattr) fun _ => heval
  have hmeets (g : Graph) (hg : d.graph.Extends g) : (V hg).Meets (rule T id i) fun s =>
      ∃ w, s = .value w ∧ (V hg).Is w t e :=
    meets_operand_exact ⟨rfl, rfl, h.results⟩ h.signature hlegal hi hc hrule hany trivial
  obtain ⟨s, d', values', hrun, hvalues, hg, ⟨w, rfl, hw⟩, hends⟩ := h.exists_ok hmeets
    fun hpartial => ⟨hlegal, fun _ _ hfail =>
      not_obstacle hT h hlegal hi hc hop hpartial hrule hfail⟩
  exact ⟨rule, w, d', values', hrule, hrun, hvalues, hends.has hw⟩

/-- Unspecified bits of carriers never leak, for every target. Where a node with operands at hand can
be evaluated, the carrier that a rule makes for its promoted result has the bits of its datum at the
bottom, and the value that a rule for a promoted operand puts in the place of a legal result has its
datum. -/
theorem promotion_exact {D : Description} (hT : D.target = .ok T) (h : d.Ready T values id n ts t)
    (heval : Eval.node ⟨d.graph, args, values⟩ id = .ok e) :
    (n.opcode ∈ resultOps → T.classify t = .promoteInteger →
      ∃ rule w d' values' x, result? n.opcode = some rule ∧ (rule T id 0).run d = .ok w d' ∧
        d'.graph.evaluateFrom args values = .ok values' ∧
        d'.Has values' w (T.transform t) (.scalar x) ∧ e = .scalar (x % 2 ^ t.bits)) ∧
    ∀ i u, n.opcode ∈ operandOps → T.classify t = .legal → ts[i]? = some u →
      T.classify u = .promoteInteger →
      ∃ rule w d' values', operand? n.opcode = some rule ∧
        (rule T id i).run d = .ok (.value w) d' ∧
        d'.graph.evaluateFrom args values = .ok values' ∧ d'.Has values' w t e := by
  have hregular := Description.target_regular hT
  constructor
  · intro hop hc
    exact result_exact hregular h heval hop hc
  · intro i u hop hlegal hi hc
    exact operand_exact hregular h heval hop hlegal hi hc

/-- A quotient of bytes and a lane that a byte names, with the bytes in words of 32 bits. -/
def bytesInWords : Draft where
  graph := ((((((((Graph.empty.push { opcode := .argument, results := [.i32], attr := .arg 0 0 }).push
    { opcode := .argument, results := [.i32], attr := .arg 0 32 }).push
    { opcode := .argument, results := [.i32], attr := .arg 0 64 }).push
    { opcode := .argument, results := [.i8], attr := .arg 1 0 }).push
    { opcode := .argument, results := [.i8], attr := .arg 1 8 }).push
    { opcode := .argument, results := [.i8], attr := .arg 1 16 }).push
    { opcode := .argument, results := [.v4i32], attr := .arg 2 0 }).push
    { opcode := .int .sdiv, operands := [⟨3, 0⟩, ⟨4, 0⟩], results := [.i8] }).push
    { opcode := .extractElement, operands := [⟨6, 0⟩, ⟨5, 0⟩], results := [.i32] }
  conversions := .ofList [(⟨3, 0⟩, ⟨.promoted, .one ⟨0, 0⟩⟩), (⟨4, 0⟩, ⟨.promoted, .one ⟨1, 0⟩⟩),
    (⟨5, 0⟩, ⟨.promoted, .one ⟨2, 0⟩⟩)]

/-- The least byte, minus one and an index of two, each below bits of no meaning. -/
def bytesInWordsValues : Values :=
  #[some (.scalar 0x7fffff80), some (.scalar 0x1ff), some (.scalar 0xf02), some (.scalar 0x80),
    some (.scalar 0xff), some (.scalar 2), some (.vector [10, 20, 30, 40]), none, none]

theorem supplies_bytesInWords (hkind : (T.classify .i8).kind? = some .promoted)
    (hwide : T.transform .i8 = .i32) {v p : Value} {x : Nat} (hx : x < 2 ^ 32)
    (htype : bytesInWords.graph.typeOf? v = some .i8)
    (hvalue : bytesInWordsValues[v.node]? = some (some (.scalar (x % 2 ^ 8))))
    (hget : bytesInWords.conversions.get? v = some ⟨.promoted, .one p⟩)
    (hpart : bytesInWords.graph.typeOf? p = some .i32)
    (hcarrier : bytesInWordsValues[p.node]? = some (some (.scalar x))) :
    bytesInWords.Supplies T bytesInWordsValues v .i8 (.scalar (x % 2 ^ 8)) := by
  have hhas : bytesInWords.Has bytesInWordsValues p (T.transform .i8) (.scalar x) := by
    rw [hwide]
    exact ⟨hpart, hcarrier, Datum.fits_scalar.2 ⟨rfl, hx⟩⟩
  have hfits : (Datum.scalar (x % 2 ^ 8)).Fits .i8 :=
    Datum.fits_scalar.2 ⟨rfl, Nat.mod_lt _ (by decide)⟩
  have hparts := Draft.HasParts.one hkind rfl hhas
  rw [Datum.number_scalar, Datum.ofNumber_word rfl] at hparts
  exact ⟨⟨htype, hvalue, hfits⟩, htype, hvalue, fun _ => ⟨_, hget, hparts⟩⟩

/-- The quotient of the least byte by minus one, which is no byte, and the third lane. -/
theorem promotion_exact_bytesInWords : ∃ T, Target.simd128.target = .ok T ∧
    (∃ w d' values' x, (ofFilled .sdiv .sign .sign 7).run bytesInWords = .ok w d' ∧
      d'.graph.evaluateFrom #[] bytesInWordsValues = .ok values' ∧
      d'.Has values' w .i32 (.scalar x) ∧ x % 2 ^ 8 = 0x80) ∧
    ∃ w d' values', (Successor.value <$> inExtract T 8 1).run bytesInWords = .ok (.value w) d' ∧
      d'.graph.evaluateFrom #[] bytesInWordsValues = .ok values' ∧
      d'.Has values' w .i32 (.scalar 30) := by
  have hfacts : (Target.simd128.target.toOption.map fun T =>
      decide (T.classify .i8 = .promoteInteger ∧ T.transform .i8 = .i32 ∧
        T.classify .i32 = .legal ∧ T.classify .v4i32 = .legal)) = some true := rfl
  obtain ⟨T, hT, hfacts⟩ := Description.exists_target hfacts
  obtain ⟨hc, hwide, hlegal, hvector⟩ := of_decide_eq_true hfacts
  have hkind : (T.classify .i8).kind? = some .promoted := by rw [hc]; rfl
  have htraceable : bytesInWords.Traceable := Draft.traceable_of_replaced_eq rfl
  have hdividend := supplies_bytesInWords (v := ⟨3, 0⟩) (x := 0x7fffff80) hkind hwide (by decide)
    rfl rfl rfl rfl rfl
  have hdivisor := supplies_bytesInWords (v := ⟨4, 0⟩) (x := 0x1ff) hkind hwide (by decide) rfl rfl
    rfl rfl rfl
  have hindex := supplies_bytesInWords (v := ⟨5, 0⟩) (x := 0xf02) hkind hwide (by decide) rfl rfl
    rfl rfl rfl
  have hlanes : bytesInWords.Supplies T bytesInWordsValues ⟨6, 0⟩ .v4i32
      (.vector [10, 20, 30, 40]) :=
    ⟨⟨rfl, rfl, Datum.fits_vector.2 (by decide)⟩, rfl, rfl, fun hillegal => absurd hvector hillegal⟩
  have hquotient : bytesInWords.Ready T bytesInWordsValues 7 _ [.i8, .i8] .i8 :=
    ⟨htraceable, rfl, rfl, rfl, .int rfl, .cons ⟨_, hdividend⟩ (.cons ⟨_, hdivisor⟩ .nil)⟩
  have hlane : bytesInWords.Ready T bytesInWordsValues 8 _ [.v4i32, .i8] .i32 :=
    ⟨htraceable, rfl, rfl, rfl, .extractElement rfl (.inl rfl) (by decide),
      .cons ⟨_, hlanes⟩ (.cons ⟨_, hindex⟩ .nil)⟩
  have hleast : Eval.node ⟨bytesInWords.graph, #[], bytesInWordsValues⟩ 7 = .ok (.scalar 0x80) := rfl
  have hthird : Eval.node ⟨bytesInWords.graph, #[], bytesInWordsValues⟩ 8 = .ok (.scalar 30) := rfl
  refine ⟨T, hT, ?_, ?_⟩
  · obtain ⟨rule, w, d', values', x, hrule, hrun, hvalues, hw, hx⟩ :=
      (promotion_exact hT hquotient hleast).1 (by decide) hc
    cases hrule
    rw [hwide] at hw
    exact ⟨w, d', values', x, hrun, hvalues, hw, (Datum.scalar.inj hx).symm⟩
  · obtain ⟨rule, w, d', values', hrule, hrun, hvalues, hw⟩ :=
      (promotion_exact hT hlane hthird).2 1 .i8 (by decide) hlegal rfl hc
    cases hrule
    exact ⟨w, d', values', hrun, hvalues, hw⟩

end Widen

end Dataflow.Legal
