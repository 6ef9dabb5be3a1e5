import Dataflow.Legal.Conversion.Tables

/-!
# Conversions

What stands for each value of an illegal type: one value, or a low and a high one. A value has at
most one conversion, of one kind, and the kind fixes the number of parts.
-/

namespace Dataflow.Legal

/-- Tables of conversions of which no two have the same value. -/
structure Conversions where
  tables : Tables
  exclusive : tables.Exclusive

namespace Conversions

instance : EmptyCollection Conversions := ⟨{}, Tables.exclusive_empty⟩

instance : Inhabited Conversions := ⟨∅⟩

def size (c : Conversions) : Nat :=
  c.tables.size

def get? (c : Conversions) (key : Value) : Option Conversion :=
  c.tables.get? key

def kindOf? (c : Conversions) (key : Value) : Option ConversionKind :=
  c.tables.kindOf? key

/-- The conversions after the parts of a value that has none are recorded. -/
def insert (c : Conversions) (kind : ConversionKind) (key : Value) (parts : Parts) :
    Except ConversionError Conversions :=
  match h : (Tables.insert kind key parts).run c.tables with
  | .ok () tables => .ok ⟨tables, c.exclusive.insert h⟩
  | .error e _ => .error e

/-- Conversions of the given values; those after the first of a value are left out. -/
def ofList (l : List (Value × Conversion)) : Conversions :=
  l.foldl (fun c (key, x) => (c.insert x.kind key x.parts).toOption.getD c) ∅

/-- The value that stands for `key`. -/
def one (c : Conversions) (kind : ConversionKind) (key : Value) : Except ConversionError Value :=
  c.tables.one kind key

/-- The low and high values that stand for `key`. -/
def two (c : Conversions) (kind : ConversionKind) (key : Value) :
    Except ConversionError (Value × Value) :=
  c.tables.two kind key

/-- Overwrites the parts of a value that has some of this kind. -/
def refresh (c : Conversions) (kind : ConversionKind) (key : Value) (parts : Parts) : Conversions :=
  ⟨c.tables.refresh kind key parts, c.exclusive.refresh⟩

/-- Drops the conversion of a value, and counts what was dropped. -/
def erase (c : Conversions) (key : Value) : Nat × Conversions :=
  ((c.tables.erase key).1, ⟨(c.tables.erase key).2, c.exclusive.erase⟩)

section
variable {c c' : Conversions} {kind : ConversionKind} {key u v lo hi : Value} {parts : Parts}
  {e : ConversionError}

theorem get?_empty (key : Value) : (∅ : Conversions).get? key = none :=
  Tables.get?_eq_none.2 fun kind => Tables.parts?_empty kind key

theorem get?_eq_some : c.get? key = some ⟨kind, parts⟩ ↔ c.tables.parts? kind key = some parts :=
  c.exclusive.get?_eq_some

theorem get?_eq_none : c.get? key = none ↔ ∀ kind, c.tables.parts? kind key = none :=
  Tables.get?_eq_none

theorem one_eq_ok : c.one kind key = .ok v ↔ c.get? key = some ⟨kind, .one v⟩ :=
  Tables.one_eq_ok.trans get?_eq_some.symm

theorem one_eq_error (h : c.one kind key = .error e) : e = .missing kind key :=
  (Tables.one_eq_error.1 h).1

theorem two_eq_ok : c.two kind key = .ok (lo, hi) ↔ c.get? key = some ⟨kind, .two lo hi⟩ :=
  Tables.two_eq_ok.trans get?_eq_some.symm

theorem two_eq_error (h : c.two kind key = .error e) : e = .missing kind key :=
  (Tables.two_eq_error.1 h).1

theorem insert_eq_ok (h : c.insert kind key parts = .ok c') :
    c.get? key = none ∧ parts.isPair = kind.isPair ∧
      ∀ u, c'.get? u = if u = key then some ⟨kind, parts⟩ else c.get? u := by
  unfold insert at h
  split at h <;> cases h
  next tables hins =>
  obtain ⟨hfree, hput⟩ := Tables.insert_eq_ok.1 hins
  have hparts := Tables.parts?_put? hput
  refine ⟨get?_eq_none.2 (Tables.kindOf?_eq_none.1 hfree), Tables.exists_put?_iff.1 ⟨_, hput⟩,
    fun u => ?_⟩
  split
  · next hu => exact get?_eq_some.2 (by rw [hparts, if_pos ⟨rfl, hu⟩])
  · next hu => exact Tables.get?_congr fun k => by rw [hparts, if_neg fun h => hu h.2]

/-- A value without a conversion can get one of any kind, with the parts that the kind has. -/
theorem exists_insert_eq_ok (h : c.get? key = none) (hp : parts.isPair = kind.isPair) :
    ∃ c', c.insert kind key parts = .ok c' := by
  obtain ⟨tables, hput⟩ := Tables.exists_put?_iff.2 hp
  have hins := Tables.insert_eq_ok.2 ⟨Tables.kindOf?_eq_none.2 (get?_eq_none.1 h), hput⟩
  unfold insert
  split
  · exact ⟨_, rfl⟩
  · next herror =>
    rw [hins] at herror
    cases herror

theorem get?_erase (c : Conversions) (key u : Value) :
    (c.erase key).2.get? u = if u = key then none else c.get? u := by
  split
  · next hu => exact get?_eq_none.2 fun kind => by rw [erase, Tables.parts?_erase, if_pos hu]
  · next hu => exact Tables.get?_congr fun kind => by rw [erase, Tables.parts?_erase, if_neg hu]

end

/-! ### Refreshed parts -/

/-- The same values have conversions of the same kinds, and their parts moved along `R`. -/
def Refreshes (R : Value → Value → Prop) (c c' : Conversions) : Prop :=
  ∀ key, c.get? key = none ∧ c'.get? key = none ∨
    ∃ kind p q, c.get? key = some ⟨kind, p⟩ ∧ c'.get? key = some ⟨kind, q⟩ ∧ p.Rel R q

theorem Refreshes.refl {R : Value → Value → Prop} (hR : ∀ v, R v v) (c : Conversions) :
    c.Refreshes R c := by
  intro key
  cases h : c.get? key with
  | none => exact .inl ⟨rfl, rfl⟩
  | some entry => exact .inr ⟨entry.kind, entry.parts, entry.parts, rfl, rfl, .refl hR _⟩

theorem Refreshes.trans {R S : Value → Value → Prop} (hR : ∀ u v w, R u v → S v w → R u w)
    {c c' c'' : Conversions} (h : c.Refreshes R c') (h' : c'.Refreshes S c'') :
    c.Refreshes R c'' := by
  intro key
  rcases h key with ⟨h₁, h₂⟩ | ⟨kind, p, q, h₁, h₂, hpq⟩
  · rcases h' key with ⟨_, h₃⟩ | ⟨_, _, _, h₃, _⟩
    · exact .inl ⟨h₁, h₃⟩
    · rw [h₂] at h₃; cases h₃
  · rcases h' key with ⟨h₃, _⟩ | ⟨kind', p', q', h₃, h₄, hpq'⟩
    · rw [h₂] at h₃; cases h₃
    · rw [h₂] at h₃
      cases h₃
      exact .inr ⟨kind, p, q', h₁, h₄, hpq.trans hR hpq'⟩

theorem refresh_refreshes {R : Value → Value → Prop} (hR : ∀ v, R v v) {c : Conversions}
    {kind : ConversionKind} {key : Value} {p q : Parts} (h : c.get? key = some ⟨kind, p⟩)
    (hpq : p.Rel R q) : c.Refreshes R (c.refresh kind key q) := by
  have hparts := Tables.parts?_refresh (get?_eq_some.1 h) hpq.isPair
  intro u
  by_cases hu : u = key
  · subst hu
    exact .inr ⟨kind, p, q, h, get?_eq_some.2 ((hparts kind u).trans (if_pos ⟨rfl, rfl⟩)), hpq⟩
  · have hsame : (c.refresh kind key q).get? u = c.get? u :=
      Tables.get?_congr fun k => (hparts k u).trans (if_neg fun h => hu h.2)
    rw [hsame]
    exact Refreshes.refl hR c u

end Conversions

end Dataflow.Legal
