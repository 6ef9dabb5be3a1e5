import Dataflow.Proofs.Typing

/-!
# Liberties with types

Some operations make sense at more types than their signatures say. The elements of a vector may be
words wider than its lanes, which cut them. A lane may be read into a wider word, and a pair may be
made of any two values of one type. Whether such an operation outlives its conversion depends on the
target: vectors that come apart into their lanes do not cut elements any more, and integers that are
joined in wider ones read a single lane of each half.
-/

namespace Dataflow

/-- The types at which operations may be used beyond their signatures. Halves of pairs are extended
at such types too, if they have one lane. -/
inductive Liberty : Opcode → List ValueType → ValueType → Prop
  | elements {es t} : t.isVector = true → es.length = t.lanes →
    (∀ e ∈ es, e = t.scalar ∨ e.IsWord ∧ t.laneBits < e.bits) → Liberty .buildVector es t
  | element {e i t} : t.isVector = true → e.IsWord → t.laneBits < e.bits → i.IsWord →
    Liberty .insertElement [t, e, i] t
  | lane {u i t} : u.isVector = true → u.isInt = true → t.IsWord → u.laneBits < t.bits →
    i.IsWord → Liberty .extractElement [u, i] t
  | pair {u t} : t.bits = 2 * u.bits → Liberty .buildPair [u, u] t
  | zeroExtend {u t} : u.laneCount = 1 → ¬ u.IsWord → t.IsWord → u.bits < t.bits →
    Liberty .zeroExtend [u] t
  | anyExtend {u t} : u.laneCount = 1 → ¬ u.IsWord → t.IsWord → u.bits < t.bits →
    Liberty .anyExtend [u] t

/-- Lanes may go through scalars of any kind that have room for them: an element is cut to its lane,
and a lane that is read has zeros above it. -/
inductive Roomy : Opcode → List ValueType → ValueType → Prop
  | buildVector {es t} : t.isVector = true → es.length = t.lanes →
    (∀ e ∈ es, e.isVector = false ∧ t.laneBits ≤ e.bits) → Roomy .buildVector es t
  | extractElement {u i t} : u.isVector = true → t.isVector = false → u.laneBits ≤ t.bits →
    i.IsWord → Roomy .extractElement [u, i] t
  | insertElement {e i t} : t.isVector = true → e.isVector = false → t.laneBits ≤ e.bits →
    i.IsWord → Roomy .insertElement [t, e, i] t

/-- The types at which an operation makes sense. -/
def Sensible (op : Opcode) (ts : List ValueType) (t : ValueType) : Prop :=
  Signature (fun _ _ => True) op ts t ∨ Liberty op ts t ∨ Roomy op ts t

theorem Signature.sensible {wide : ValueType → ValueType → Prop} {op : Opcode} {ts : List ValueType}
    {t : ValueType} (h : Signature wide op ts t) : Sensible op ts t :=
  .inl (h.mono fun _ _ _ => trivial)

theorem Sensible.ne_output {op : Opcode} {ts : List ValueType} {t : ValueType}
    (h : Sensible op ts t) : op ≠ .output := by
  rintro rfl
  rcases h with hsig | hlib | hroomy
  · exact hsig.ne_output rfl
  · cases hlib
  · cases hroomy

/-- The number of operands of an operation. A vector has an element for each lane, and an output
observes any number of values. -/
def Opcode.arity? : Opcode → Option Nat
  | argument | constant | constantFp | undef => some 0
  | count _ | fneg | fabs | zeroExtend | signExtend | anyExtend | truncate | bitcast | fpRound =>
    some 1
  | int _ | float _ | fcopysign | setcc | buildPair | extractElement | vectorShuffle
  | concatVectors => some 2
  | select | insertElement => some 3
  | buildVector | output => none

theorem Sensible.length_eq {op : Opcode} {ts : List ValueType} {t : ValueType} {k : Nat}
    (h : Sensible op ts t) (hk : op.arity? = some k) : ts.length = k := by
  rcases h with hsig | hlib | hroomy
  · cases hsig <;> cases hk <;> rfl
  · cases hlib <;> cases hk <;> rfl
  · cases hroomy <;> cases hk <;> rfl

/-- A node that reads operands of types `ts` is an output or has one result, of a type that `sig`
gives. -/
def Node.Conforms (sig : Opcode → List ValueType → ValueType → Prop) (ts : List ValueType)
    (n : Node) : Prop :=
  n.opcode = .output ∧ n.results = [] ∨ ∃ t, n.results = [t] ∧ sig n.opcode ts t

namespace Node.Conforms

variable {sig sig' : Opcode → List ValueType → ValueType → Prop} {ts : List ValueType} {n : Node}
  {t : ValueType}

theorem imp (h : n.Conforms sig ts) (hsig : ∀ op t, sig op ts t → sig' op ts t) :
    n.Conforms sig' ts :=
  h.imp_right fun ⟨t, hres, ht⟩ => ⟨t, hres, hsig _ t ht⟩

theorem sig_of_results (h : n.Conforms sig ts) (hres : n.results = [t]) : sig n.opcode ts t := by
  rcases h with ⟨_, hres'⟩ | ⟨u, hres', hsig⟩ <;> rw [hres] at hres' <;> cases hres'
  exact hsig

theorem results_of_output (h : n.Conforms Sensible ts) (hop : n.opcode = .output) :
    n.results = [] := by
  rcases h with ⟨_, hres⟩ | ⟨t, _, hsig⟩
  · exact hres
  · exact absurd hop hsig.ne_output

end Node.Conforms

namespace Target

/-- Vectors that are legal, or come apart into vectors that are. -/
inductive Keeps (T : Target) : ValueType → Prop
  | legal {t} : T.classify t = .legal → Keeps T t
  | split {t} : T.classify t = .split → Keeps T (T.transform t) → Keeps T t

variable {T : Target} {limit : Limit} {op : Opcode} {ts : List ValueType} {t u e i : ValueType}

theorem not_keeps_of_scalarize (h : T.classify t = .scalarize) : ¬ T.Keeps t := fun hkeeps => by
  cases hkeeps with
  | legal hc | split hc =>
    rw [h] at hc
    cases hc

theorem Keeps.half (h : T.Keeps t) (hc : T.classify t = .split) : T.Keeps (T.transform t) := by
  cases h with
  | legal hlegal =>
    rw [hc] at hlegal
    cases hlegal
  | split _ hhalf => exact hhalf

/-- Lanes of the vector that are read into wider words have no bits above their own. -/
def Clear (T : Target) (t : ValueType) : Prop :=
  T.Keeps t ∨ T.classify t.scalar = .legal

theorem Clear.half (hT : T.Regular) (h : T.Clear t) (hc : T.classify t = .split) :
    T.Clear (T.transform t) := by
  rcases h with h | h
  · exact .inl (h.half hc)
  · right
    rwa [(ValueType.half?_eq_some (hT.halved hc)).2.2.1]

/-- The lane of a clear vector that comes apart into it is legal. -/
theorem Clear.scalar (h : T.Clear t) (hc : T.classify t = .scalarize) :
    T.classify t.scalar = .legal :=
  h.resolve_left (not_keeps_of_scalarize hc)

/-- Pairs of this type are joined in a wider integer. -/
def Widens (T : Target) (t : ValueType) : Prop :=
  T.classify t = .promoteInteger ∨
    T.classify t = .promoteFloat ∧ T.classify (T.transform t) = .promoteInteger

/-- The target carries out an operation that takes a liberty: it cuts elements that are too wide, it
reads lanes into wider words that it does not split and leaves the bits above them clear, and it
joins halves that have one lane or else by their bits. -/
def Takes (T : Target) (op : Opcode) (ts : List ValueType) (t : ValueType) : Prop :=
  match op, ts with
  | .buildVector, es => (∀ e ∈ es, e = t.scalar) ∨ T.Keeps t
  | .insertElement, [_, e, _] => e = t.scalar ∨ T.Keeps t
  | .extractElement, [u, _] => t = u.scalar ∨ T.classify t ≠ .expandInteger ∧ T.Clear u
  | .buildPair, [u, _] => u.laneCount = 1 ∨ ¬ T.Widens t
  | .zeroExtend, _ | .anyExtend, _ => T.classify t = .legal
  | _, _ => True

/-- The types of operations in a run: those of signatures and, where the limit says so, those of
liberties that the target carries out. -/
def Signs (T : Target) (limit : Limit) (op : Opcode) (ts : List ValueType) (t : ValueType) : Prop :=
  Signature T.Wide op ts t ∨ limit.liberal ∧ Liberty op ts t ∧ T.Takes op ts t

/-- The bits above a value of this type, or above a lane of it, may be any. -/
def Loose (T : Target) (limit : Limit) (t : ValueType) : Prop :=
  limit.liberal → ¬ T.Clear t

theorem loose_eq (hl : ¬ limit.liberal) : T.Loose limit = fun _ => True :=
  funext fun _ => eq_true fun h => absurd h hl

theorem not_loose_iff : ¬ T.Loose limit t ↔ limit.liberal ∧ T.Clear t := by
  simp [Loose]

/-- Promoted integers have any bits above their own. -/
theorem loose_of_promoted (hT : T.Regular) (hc : T.classify t = .promoteInteger) :
    T.Loose limit t := by
  rintro _ ((hc' | hc') | hc')
  · rw [hc] at hc'
    cases hc'
  · rw [hc] at hc'
    cases hc'
  · rw [(hT.promoted hc).1.scalar_eq, hc] at hc'
    cases hc'

theorem not_loose_half (hT : T.Regular) (h : ¬ T.Loose limit t) (hc : T.classify t = .split) :
    ¬ T.Loose limit (T.transform t) := by
  rw [not_loose_iff] at h ⊢
  exact h.imp_right fun hclear => hclear.half hT hc

theorem not_loose_scalar (h : ¬ T.Loose limit t) (hc : T.classify t = .scalarize) :
    ¬ T.Loose limit t.scalar := by
  rw [not_loose_iff] at h ⊢
  exact h.imp_right fun hclear => .inl (.legal (hclear.scalar hc))

/-- An element of type `e` may become a lane of the vector. -/
def Writes (T : Target) (limit : Limit) (t e : ValueType) : Prop :=
  t.Carries (T.Wide t t.scalar) e ∨
    limit.liberal ∧ T.Keeps t ∧ e.IsWord ∧ t.laneBits < e.bits

/-- A lane of the vector `u` may be read at type `t`. -/
def Reads (T : Target) (limit : Limit) (u t : ValueType) : Prop :=
  u.Carries (T.Wide t u.scalar) t ∨
    limit.liberal ∧ u.isInt = true ∧ t.IsWord ∧ u.laneBits < t.bits ∧
      T.classify t ≠ .expandInteger ∧ T.Clear u

/-! ### Signatures -/

namespace Signs

theorem sensible (h : T.Signs limit op ts t) : Sensible op ts t :=
  h.elim (·.sensible) fun hl => .inr (.inl hl.2.1)

theorem ne_output (h : T.Signs limit op ts t) : op ≠ .output :=
  h.sensible.ne_output

theorem signature (h : T.Signs limit op ts t) (hstrict : ¬ limit.liberal) :
    Signature T.Wide op ts t :=
  h.resolve_right fun hl => hstrict hl.1

/-- Scalar integer code takes no liberties. -/
theorem signature_of_plain (h : T.Signs limit op ts t) (hp : T.Plain op (t :: ts)) :
    Signature T.Wide op ts t := by
  rcases h with hsig | ⟨_, hlib, _⟩
  · exact hsig
  · have hop := hp.opcode
    have hwords := hp.words
    cases hlib with
    | elements | element | lane => cases hop
    | pair hbits => exact .buildPair (hwords _ (by simp)) hbits
    | zeroExtend _ hu | anyExtend _ hu => exact absurd (hwords _ (by simp)) hu

/-- Pairs that are softened are pairs of the carrier. -/
theorem softened (hT : T.Regular) (h : T.Signs limit .buildPair [u, u] t)
    (hc : T.classify t = .promoteFloat) : T.Signs limit .buildPair [u, u] (T.transform t) := by
  obtain ⟨_, _, hword, hbits, _⟩ := hT.softened hc
  rcases h with hsig | ⟨hl, hlib, htakes⟩
  · cases hsig with
    | buildPair hu h => exact .inl (.buildPair hu (hbits.trans h))
  · cases hlib with
    | pair h =>
      refine .inr ⟨hl, .pair (hbits.trans h), htakes.imp_right fun hwide => ?_⟩
      rintro (hc' | ⟨hc', _⟩)
      · exact hwide (.inr ⟨hc, hc'⟩)
      · rcases hT.word_cases hword with h | h | h <;> rw [h] at hc' <;> cases hc'

/-- The lengths of lists of operands and the types of elements. -/
theorem writes (h : T.Signs limit .buildVector ts t) :
    t.isVector = true ∧ ts.length = t.lanes ∧ ∀ e ∈ ts, T.Writes limit t e := by
  rcases h with hsig | ⟨hl, hlib, htakes⟩
  · cases hsig with
    | buildVector ht hlen hes => exact ⟨ht, hlen, fun e he => .inl (hes e he)⟩
  · cases hlib with
    | elements ht hlen hes =>
      refine ⟨ht, hlen, fun e he => ?_⟩
      rcases hes e he with hscalar | ⟨hword, hlt⟩
      · exact .inl (.inl hscalar)
      · rcases htakes with hall | hkeeps
        · exact .inl (.inl (hall e he))
        · exact .inr ⟨hl, hkeeps, hword, hlt⟩

theorem writes_element (h : T.Signs limit .insertElement [t, e, i] t) : T.Writes limit t e := by
  rcases h with hsig | ⟨hl, hlib, htakes⟩
  · cases hsig with
    | insertElement _ hcarries => exact .inl hcarries
  · cases hlib with
    | element _ hword hlt =>
      rcases htakes with hscalar | hkeeps
      · exact .inl (.inl hscalar)
      · exact .inr ⟨hl, hkeeps, hword, hlt⟩

theorem lane (h : T.Signs limit .extractElement ts t) : ∃ u i, ts = [u, i] ∧ i.IsWord := by
  rcases h with hsig | ⟨_, hlib, _⟩
  · cases hsig with
    | extractElement _ _ hi => exact ⟨_, _, rfl, hi⟩
  · cases hlib with
    | lane _ _ _ _ hi => exact ⟨_, _, rfl, hi⟩

theorem reads (h : T.Signs limit .extractElement [u, i] t) : T.Reads limit u t := by
  rcases h with hsig | ⟨hl, hlib, htakes⟩
  · cases hsig with
    | extractElement _ hcarries => exact .inl hcarries
  · cases hlib with
    | lane _ hint hword hlt =>
      rcases htakes with hscalar | ⟨hne, hclear⟩
      · exact .inl (.inl hscalar)
      · exact .inr ⟨hl, hint, hword, hlt, hne, hclear⟩

end Signs

namespace Writes

theorem isVector (h : T.Writes limit t e) : e.isVector = false := by
  rcases h with hcarries | ⟨_, _, hword, _⟩
  · exact hcarries.isVector
  · exact hword.2

theorem laneBits_le (h : T.Writes limit t e) : t.laneBits ≤ e.bits := by
  rcases h with hcarries | ⟨_, _, _, hlt⟩
  · exact hcarries.laneBits_le
  · exact Nat.le_of_lt hlt

/-- Elements of other types than that of the lanes are words, and the vector is kept. -/
theorem eq_or (h : T.Writes limit t e) :
    e = t.scalar ∨ T.Keeps t ∧ e.IsWord ∧ t.laneBits < e.bits := by
  rcases h with (hscalar | ⟨⟨hlegal, _⟩, _, hword, hlt⟩) | ⟨_, hkeeps, hword, hlt⟩
  · exact .inl hscalar
  · exact .inr ⟨.legal hlegal, hword, hlt⟩
  · exact .inr ⟨hkeeps, hword, hlt⟩

theorem scalar_of_illegal (h : T.Writes limit t e) (hl : ¬ limit.liberal)
    (hc : T.classify t ≠ .legal) : e = t.scalar := by
  rcases h with (hscalar | ⟨⟨hlegal, _⟩, _⟩) | ⟨hl', _⟩
  · exact hscalar
  · exact absurd hlegal hc
  · exact absurd hl' hl

/-- Vectors that come apart into their lanes have elements of the lane type. -/
theorem scalar (h : T.Writes limit t e) (hc : T.classify t = .scalarize) : e = t.scalar :=
  h.eq_or.resolve_right fun hwide => not_keeps_of_scalarize hc hwide.1

/-- What may become a lane of a vector may become a lane of its half. -/
theorem half (hT : T.Regular) (h : T.Writes limit t e) (hc : T.classify t = .split) :
    T.Writes limit (T.transform t) e := by
  have hhalf := hT.halved hc
  rcases h with (hscalar | ⟨⟨hlegal, _⟩, _⟩) | ⟨hl, hkeeps, hword, hlt⟩
  · exact .inl (.inl (hscalar.trans (ValueType.half?_eq_some hhalf).2.2.1.symm))
  · rw [hc] at hlegal
    cases hlegal
  · exact .inr ⟨hl, hkeeps.half hc, hword, (ValueType.bits_half hhalf).1 ▸ hlt⟩

theorem signs_insert (h : T.Writes limit t e) (ht : t.isVector = true) (hi : i.IsWord) :
    T.Signs limit .insertElement [t, e, i] t := by
  rcases h with hcarries | ⟨hl, hkeeps, hword, hlt⟩
  · exact .inl (.insertElement ht hcarries hi)
  · exact .inr ⟨hl, .element ht hword hlt hi, .inr hkeeps⟩

end Writes

theorem signs_buildVector (ht : t.isVector = true) (hlen : ts.length = t.lanes)
    (h : ∀ e ∈ ts, T.Writes limit t e) : T.Signs limit .buildVector ts t := by
  by_cases hl : limit.liberal
  · refine .inr ⟨hl, .elements ht hlen fun e he => (h e he).eq_or.imp_right (·.2), ?_⟩
    by_cases hall : ∀ e ∈ ts, e = t.scalar
    · exact .inl hall
    · simp only [not_forall] at hall
      obtain ⟨e, he, hne⟩ := hall
      exact .inr ((h e he).eq_or.resolve_left hne).1
  · exact .inl (.buildVector ht hlen fun e he => (h e he).resolve_right fun hwide => hl hwide.1)

namespace Reads

theorem isVector (h : T.Reads limit u t) : t.isVector = false := by
  rcases h with hcarries | ⟨_, _, hword, _⟩
  · exact hcarries.isVector
  · exact hword.2

theorem laneBits_le (h : T.Reads limit u t) : u.laneBits ≤ t.bits := by
  rcases h with hcarries | ⟨_, _, _, hlt, _⟩
  · exact hcarries.laneBits_le
  · exact Nat.le_of_lt hlt

/-- Other types than that of the lane are words. -/
theorem eq_or (h : T.Reads limit u t) :
    t = u.scalar ∨ u.scalar.IsWord ∧ t.IsWord ∧ u.laneBits < t.bits := by
  rcases h with (hscalar | ⟨_, hint, hword, hlt⟩) | ⟨_, hint, hword, hlt, _⟩
  · exact .inl hscalar
  · exact .inr ⟨u.isWord_scalar.2 hint, hword, hlt⟩
  · exact .inr ⟨u.isWord_scalar.2 hint, hword, hlt⟩

theorem scalar_of_expanded (h : T.Reads limit u t) (hc : T.classify t = .expandInteger) :
    t = u.scalar := by
  rcases h with (hscalar | ⟨⟨hlegal, _⟩, _⟩) | ⟨_, _, _, _, hne, _⟩
  · exact hscalar
  · rw [hc] at hlegal
    cases hlegal
  · exact absurd hc hne

/-- A lane that is read at a promoted type can be read at its carrier. -/
theorem carrier (hT : T.Regular) (h : T.Reads limit u t) (hc : T.classify t = .promoteInteger) :
    T.Reads limit u (T.transform t) := by
  obtain ⟨hword, hwide, hlt, hlegal⟩ := hT.promoted hc
  rcases h with (rfl | ⟨⟨hlegal', _⟩, _⟩) | ⟨hl, hint, _, hlt', _, hclear⟩
  · refine .inl (.inr ⟨⟨hlegal, hc⟩, u.isWord_scalar.1 hword, hwide, ?_⟩)
    rwa [← u.laneBits_scalar, hword.laneBits_eq]
  · rw [hc] at hlegal'
    cases hlegal'
  · exact .inr ⟨hl, hint, hwide, by omega, by rw [hlegal]; simp, hclear⟩

/-- What can be read from a vector can be read from its half. -/
theorem half (hT : T.Regular) (h : T.Reads limit u t) (hc : T.classify u = .split) :
    T.Reads limit (T.transform u) t := by
  have hhalf := hT.halved hc
  have hscalar := (ValueType.half?_eq_some hhalf).2.2.1
  have hint : (T.transform u).isInt = u.isInt := by
    rw [← ValueType.isInt_scalar, hscalar, ValueType.isInt_scalar]
  have hbits := (ValueType.bits_half hhalf).1
  rcases h with (h | ⟨hwide, h⟩) | ⟨hl, hint', hword, hlt, hne, hclear⟩
  · exact .inl (.inl (h.trans hscalar.symm))
  · exact .inl (.inr ⟨hscalar ▸ hwide, by rwa [hint, ← hbits]⟩)
  · exact .inr ⟨hl, hint.trans hint', hword, hbits ▸ hlt, hne, hclear.half hT hc⟩

theorem signs (h : T.Reads limit u t) (hu : u.isVector = true) (hi : i.IsWord) :
    T.Signs limit .extractElement [u, i] t := by
  rcases h with hcarries | ⟨hl, hint, hword, hlt, hc, hclear⟩
  · exact .inl (.extractElement hu hcarries hi)
  · exact .inr ⟨hl, .lane hu hint hword hlt hi, .inr ⟨hc, hclear⟩⟩

end Reads

end Target

theorem Node.Conforms.sensible {T : Target} {limit : Limit} {ts : List ValueType} {n : Node}
    (h : n.Conforms (T.Signs limit) ts) : n.Conforms Sensible ts :=
  h.imp fun _ _ => Target.Signs.sensible

end Dataflow
