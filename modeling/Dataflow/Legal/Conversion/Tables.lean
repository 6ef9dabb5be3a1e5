import Dataflow.Node
import Std.Data.TreeMap

/-!
# Tables of conversions

What stands for the values of illegal types, in a table for each kind of conversion. The kind fixes
the number of parts: a table holds single values, or low and high ones. A value is recorded only when
no table has it, so that it stays in one table.
-/

namespace Dataflow.Legal

inductive ConversionKind where
  /-- One integer that carries the value. -/
  | promoted
  /-- Low and high integer halves. -/
  | expandedInteger
  /-- Low and high float parts. -/
  | expandedFloat
  /-- The element of a vector of one lane. -/
  | scalarized
  /-- Low and high vector halves. -/
  | split
  deriving DecidableEq, Repr, Inhabited

namespace ConversionKind

def all : List ConversionKind :=
  [promoted, expandedInteger, expandedFloat, scalarized, split]

theorem mem_all (kind : ConversionKind) : kind ∈ all := by cases kind <;> decide

def name : ConversionKind → String
  | promoted => "promoted"
  | expandedInteger => "expanded-integer"
  | expandedFloat => "expanded-float"
  | scalarized => "scalarized"
  | split => "split"

instance : ToString ConversionKind := ⟨name⟩

def ofName? (s : String) : Option ConversionKind :=
  all.find? (·.name == s)

def isPair : ConversionKind → Bool
  | expandedInteger | expandedFloat | split => true
  | promoted | scalarized => false

end ConversionKind

/-- The values that stand for another one. -/
inductive Parts where
  | one (v : Value)
  | two (lo hi : Value)
  deriving DecidableEq, Repr, Inhabited

def Parts.ofPair (p : Value × Value) : Parts :=
  .two p.1 p.2

def Parts.isPair : Parts → Bool
  | one _ => false
  | two .. => true

/-- The parts are in relation one by one. -/
def Parts.Rel (R : Value → Value → Prop) : Parts → Parts → Prop
  | one v, one w => R v w
  | two lo hi, two lo' hi' => R lo lo' ∧ R hi hi'
  | _, _ => False

theorem Parts.Rel.refl {R : Value → Value → Prop} (hR : ∀ v, R v v) (p : Parts) : p.Rel R p := by
  cases p with
  | one v => exact hR v
  | two lo hi => exact ⟨hR lo, hR hi⟩

theorem Parts.Rel.trans {R S : Value → Value → Prop} (hR : ∀ u v w, R u v → S v w → R u w)
    {p q o : Parts} (h : p.Rel R q) (h' : q.Rel S o) : p.Rel R o := by
  cases p <;> cases q <;> cases o <;> simp only [Rel] at *
  · exact hR _ _ _ h h'
  · exact ⟨hR _ _ _ h.1 h'.1, hR _ _ _ h.2 h'.2⟩

theorem Parts.Rel.isPair {R : Value → Value → Prop} {p q : Parts} (h : p.Rel R q) :
    p.isPair = q.isPair := by
  cases p <;> cases q <;> first | rfl | cases h

def Parts.map (f : Value → Value) : Parts → Parts
  | one v => one (f v)
  | two lo hi => two (f lo) (f hi)

structure Conversion where
  kind : ConversionKind
  parts : Parts
  deriving DecidableEq, Repr, Inhabited

/-- Why a conversion cannot be read or recorded. -/
inductive ConversionError where
  | missing (kind : ConversionKind) (v : Value)
  | duplicate (kind : ConversionKind) (v : Value)
  | conflicting (kind existing : ConversionKind) (v : Value)
  /-- The kind does not have that many parts. -/
  | shape (kind : ConversionKind) (pair : Bool)
  deriving DecidableEq, Repr, Inhabited

/-- A value that has a conversion cannot get one. -/
def ConversionError.occupied (kind existing : ConversionKind) (v : Value) : ConversionError :=
  if existing = kind then .duplicate kind v else .conflicting kind existing v

def ConversionError.message : ConversionError → String
  | missing kind v => s!"{v} has no {kind} entry"
  | duplicate kind v => s!"{v} already has a {kind} entry"
  | conflicting kind existing v =>
    s!"{v} cannot get a {kind} entry: it already has a {existing} entry"
  | shape kind pair =>
    s!"{kind} is not a " ++ (if pair then "pair" else "single-value") ++ " table"

structure Tables where
  promoted : Std.TreeMap Value Value := ∅
  expandedIntegers : Std.TreeMap Value (Value × Value) := ∅
  expandedFloats : Std.TreeMap Value (Value × Value) := ∅
  scalarized : Std.TreeMap Value Value := ∅
  split : Std.TreeMap Value (Value × Value) := ∅
  deriving Inhabited

namespace Tables

/-- Number of entries of all tables. -/
def size (t : Tables) : Nat :=
  t.promoted.size + t.expandedIntegers.size + t.expandedFloats.size + t.scalarized.size + t.split.size

/-- What the table of `kind` has for `key`. -/
def parts? (t : Tables) (kind : ConversionKind) (key : Value) : Option Parts :=
  match kind with
  | .promoted => t.promoted[key]?.map .one
  | .expandedInteger => t.expandedIntegers[key]?.map .ofPair
  | .expandedFloat => t.expandedFloats[key]?.map .ofPair
  | .scalarized => t.scalarized[key]?.map .one
  | .split => t.split[key]?.map .ofPair

def has (t : Tables) (kind : ConversionKind) (key : Value) : Bool :=
  (t.parts? kind key).isSome

/-- The first kind whose table has `key`. -/
def kindOf? (t : Tables) (key : Value) : Option ConversionKind :=
  ConversionKind.all.find? (t.has · key)

/-- The conversion of `key`. -/
def get? (t : Tables) (key : Value) : Option Conversion := do
  let kind ← t.kindOf? key
  return ⟨kind, ← t.parts? kind key⟩

/-- Writes the parts of `key` into the table of `kind`, if it is a table of so many parts. -/
def put? (t : Tables) (kind : ConversionKind) (key : Value) (parts : Parts) : Option Tables :=
  match kind, parts with
  | .promoted, .one v => some { t with promoted := t.promoted.insert key v }
  | .expandedInteger, .two lo hi =>
    some { t with expandedIntegers := t.expandedIntegers.insert key (lo, hi) }
  | .expandedFloat, .two lo hi =>
    some { t with expandedFloats := t.expandedFloats.insert key (lo, hi) }
  | .scalarized, .one v => some { t with scalarized := t.scalarized.insert key v }
  | .split, .two lo hi => some { t with split := t.split.insert key (lo, hi) }
  | _, _ => none

/-- Refuses a value that some table has. -/
def checkVacant (kind : ConversionKind) (key : Value) : EStateM ConversionError Tables Unit := do
  match (← get).kindOf? key with
  | some existing => throw (.occupied kind existing key)
  | none => pure ()

/-- Records the parts of a value that no table has. Refused or not, it leaves tables behind. -/
def insert (kind : ConversionKind) (key : Value) (parts : Parts) :
    EStateM ConversionError Tables Unit := do
  checkVacant kind key
  match (← get).put? kind key parts with
  | some t => set t
  | none => throw (.shape kind parts.isPair)

/-- The single value that the table of `kind` has for `key`. -/
def one (t : Tables) (kind : ConversionKind) (key : Value) : Except ConversionError Value :=
  match t.parts? kind key with
  | some (.one v) => .ok v
  | _ => .error (.missing kind key)

/-- The low and high values that the table of `kind` has for `key`. -/
def two (t : Tables) (kind : ConversionKind) (key : Value) :
    Except ConversionError (Value × Value) :=
  match t.parts? kind key with
  | some (.two lo hi) => .ok (lo, hi)
  | _ => .error (.missing kind key)

/-- Overwrites the parts of a value that the table of `kind` has. -/
def refresh (t : Tables) (kind : ConversionKind) (key : Value) (parts : Parts) : Tables :=
  if t.has kind key then (t.put? kind key parts).getD t else t

/-- Takes a value out of the table of `kind`. -/
def drop (t : Tables) (key : Value) (kind : ConversionKind) : Tables :=
  match kind with
  | .promoted => { t with promoted := t.promoted.erase key }
  | .expandedInteger => { t with expandedIntegers := t.expandedIntegers.erase key }
  | .expandedFloat => { t with expandedFloats := t.expandedFloats.erase key }
  | .scalarized => { t with scalarized := t.scalarized.erase key }
  | .split => { t with split := t.split.erase key }

/-- Takes a value out of the tables of some kinds, and counts the tables that had it. -/
def eraseFrom (t : Tables) (key : Value) : List ConversionKind → Nat × Tables
  | [] => (0, t)
  | kind :: kinds =>
    let (count, t') := (t.drop key kind).eraseFrom key kinds
    ((t.has kind key).toNat + count, t')

/-- Takes a value out of every table, and counts the tables that had it. -/
def erase (t : Tables) (key : Value) : Nat × Tables :=
  t.eraseFrom key ConversionKind.all

/-! ### Contents -/

section
variable {t t' : Tables} {kind j : ConversionKind} {key u : Value} {parts : Parts}

theorem getElem?_insert {β : Type} (m : Std.TreeMap Value β) (key u : Value) (x : β) :
    (m.insert key x)[u]? = if u = key then some x else m[u]? := by
  rw [Std.TreeMap.getElem?_insert]
  simp only [Value.compare_eq_iff, @eq_comm _ u]

theorem getElem?_erase {β : Type} (m : Std.TreeMap Value β) (key u : Value) :
    (m.erase key)[u]? = if u = key then none else m[u]? := by
  rw [Std.TreeMap.getElem?_erase]
  simp only [Value.compare_eq_iff, @eq_comm _ u]

theorem parts?_empty (kind : ConversionKind) (key : Value) : parts? {} kind key = none := by
  cases kind <;> simp [parts?]

/-- Every table holds parts of the number that its kind has. -/
theorem isPair_of_parts? (h : t.parts? kind key = some parts) : parts.isPair = kind.isPair := by
  cases kind <;>
  · obtain ⟨x, -, rfl⟩ := Option.map_eq_some_iff.1 h
    rfl

theorem exists_put?_iff : (∃ t', t.put? kind key parts = some t') ↔ parts.isPair = kind.isPair := by
  cases kind <;> cases parts <;> simp [put?, Parts.isPair, ConversionKind.isPair]

/-- Writing changes one entry of one table. -/
theorem parts?_put? (h : t.put? kind key parts = some t') (j : ConversionKind) (u : Value) :
    t'.parts? j u = if j = kind ∧ u = key then some parts else t.parts? j u := by
  cases kind <;> cases parts <;> cases h <;> cases j <;>
    simp only [parts?, getElem?_insert, apply_ite (Option.map _), Option.map_some, Parts.ofPair,
      reduceCtorEq, false_and, true_and, if_false]

theorem parts?_refresh {p : Parts} (h : t.parts? kind key = some p) (hp : p.isPair = parts.isPair)
    (j : ConversionKind) (u : Value) : (t.refresh kind key parts).parts? j u =
      if j = kind ∧ u = key then some parts else t.parts? j u := by
  obtain ⟨t', hput⟩ := exists_put?_iff.2 (hp.symm.trans (isPair_of_parts? h))
  rw [refresh, has, h, Option.isSome_some, if_pos rfl, hput, Option.getD_some, parts?_put? hput]

theorem parts?_drop (t : Tables) (key : Value) (kind j : ConversionKind) (u : Value) :
    (t.drop key kind).parts? j u = if j = kind ∧ u = key then none else t.parts? j u := by
  cases kind <;> cases j <;>
    simp only [drop, parts?, getElem?_erase, apply_ite (Option.map _), Option.map_none,
      reduceCtorEq, false_and, true_and, if_false]

theorem parts?_eraseFrom (t : Tables) (key : Value) (kinds : List ConversionKind)
    (j : ConversionKind) (u : Value) :
    (t.eraseFrom key kinds).2.parts? j u =
      if j ∈ kinds ∧ u = key then none else t.parts? j u := by
  induction kinds generalizing t with
  | nil => simp [eraseFrom]
  | cons kind kinds ih =>
    simp only [eraseFrom, ih, parts?_drop, List.mem_cons]
    by_cases hu : u = key <;> by_cases hj : j = kind <;> simp [hu, hj]

theorem parts?_erase (t : Tables) (key : Value) (j : ConversionKind) (u : Value) :
    (t.erase key).2.parts? j u = if u = key then none else t.parts? j u := by
  simp only [erase, parts?_eraseFrom, j.mem_all, true_and]

theorem has_of_kindOf? (h : t.kindOf? key = some kind) : t.has kind key :=
  List.find?_some (p := (t.has · key)) h

theorem kindOf?_eq_none : t.kindOf? key = none ↔ ∀ kind, t.parts? kind key = none := by
  simp only [kindOf?, List.find?_eq_none, has, Option.not_isSome_iff_eq_none, ConversionKind.mem_all,
    true_implies]

theorem map_kind_get? (t : Tables) (key : Value) : (t.get? key).map (·.kind) = t.kindOf? key := by
  cases hkind : t.kindOf? key with
  | none => simp [get?, hkind]
  | some kind =>
    obtain ⟨parts, hparts⟩ := Option.isSome_iff_exists.1 (has_of_kindOf? hkind)
    simp [get?, hkind, hparts]

theorem get?_eq_none : t.get? key = none ↔ ∀ kind, t.parts? kind key = none := by
  rw [← kindOf?_eq_none, ← map_kind_get?, Option.map_eq_none_iff]

/-- The conversion of a value depends on its own entries only. -/
theorem get?_congr (h : ∀ kind, t.parts? kind u = t'.parts? kind u) : t.get? u = t'.get? u := by
  have hhas : (t.has · u) = (t'.has · u) := funext fun kind => by rw [has, h, has]
  simp only [get?, kindOf?, hhas, h]

theorem one_eq_ok {v : Value} : t.one kind key = .ok v ↔ t.parts? kind key = some (.one v) := by
  unfold one
  split
  · next hparts => rw [hparts, Except.ok.injEq, Option.some.injEq, Parts.one.injEq]
  · next hother => exact ⟨nofun, fun h => absurd h (hother v)⟩

theorem one_eq_error {e : ConversionError} : t.one kind key = .error e ↔
    e = .missing kind key ∧ ∀ v, t.parts? kind key ≠ some (.one v) := by
  unfold one
  split
  · next v hparts => exact ⟨nofun, fun h => absurd hparts (h.2 v)⟩
  · next hother => exact ⟨fun h => by cases h; exact ⟨rfl, hother⟩, fun h => by rw [h.1]⟩

theorem two_eq_ok {lo hi : Value} :
    t.two kind key = .ok (lo, hi) ↔ t.parts? kind key = some (.two lo hi) := by
  unfold two
  split
  · next hparts =>
    rw [hparts, Except.ok.injEq, Option.some.injEq, Prod.mk.injEq, Parts.two.injEq]
  · next hother => exact ⟨nofun, fun h => absurd h (hother lo hi)⟩

theorem two_eq_error {e : ConversionError} : t.two kind key = .error e ↔
    e = .missing kind key ∧ ∀ lo hi, t.parts? kind key ≠ some (.two lo hi) := by
  unfold two
  split
  · next lo hi hparts => exact ⟨nofun, fun h => absurd hparts (h.2 lo hi)⟩
  · next hother => exact ⟨fun h => by cases h; exact ⟨rfl, hother⟩, fun h => by rw [h.1]⟩

end

/-! ### Insertions -/

section
variable {t t' : Tables} {kind : ConversionKind} {key : Value} {parts : Parts}

theorem run_checkVacant (t : Tables) (kind : ConversionKind) (key : Value) :
    (checkVacant kind key).run t =
      (t.kindOf? key).elim (.ok () t) fun existing => .error (.occupied kind existing key) t := by
  rw [checkVacant, EStateM.run_bind, EStateM.run_get]
  dsimp only
  cases t.kindOf? key <;> rfl

theorem run_insert_of_some {existing : ConversionKind} (h : t.kindOf? key = some existing) :
    (insert kind key parts).run t = .error (.occupied kind existing key) t := by
  rw [insert, EStateM.run_bind, run_checkVacant, h]
  rfl

theorem run_insert_of_none (h : t.kindOf? key = none) :
    (insert kind key parts).run t =
      (t.put? kind key parts).elim (.error (.shape kind parts.isPair) t) (.ok ()) := by
  rw [insert, EStateM.run_bind, run_checkVacant, h, Option.elim_none]
  dsimp only
  rw [EStateM.run_bind, EStateM.run_get]
  dsimp only
  cases t.put? kind key parts <;> rfl

theorem insert_eq_ok : (insert kind key parts).run t = .ok () t' ↔
    t.kindOf? key = none ∧ t.put? kind key parts = some t' := by
  cases hkind : t.kindOf? key with
  | some existing => simp [run_insert_of_some hkind]
  | none =>
    rw [run_insert_of_none hkind]
    cases t.put? kind key parts <;> simp

end

/-! ### Exclusive tables -/

/-- No value is in two tables. -/
def Exclusive (t : Tables) : Prop :=
  ∀ key j k, t.has j key → t.has k key → j = k

section
variable {t t' : Tables} {kind j : ConversionKind} {key u : Value} {parts : Parts}

theorem exclusive_empty : Exclusive {} := fun key j _ hj => by
  rw [has, parts?_empty] at hj
  cases hj

/-- An insertion finds no other table that has the value. -/
theorem Exclusive.insert (ht : t.Exclusive) (h : (insert kind key parts).run t = .ok () t') :
    t'.Exclusive := by
  obtain ⟨hfree, hput⟩ := insert_eq_ok.1 h
  have hnew (i : ConversionKind) (hi : t'.has i key) : i = kind := by
    rw [has, parts?_put? hput, kindOf?_eq_none.1 hfree] at hi
    split at hi
    · next heq => exact heq.1
    · cases hi
  intro u j k hj hk
  by_cases hu : u = key
  · rw [hu] at hj hk
    rw [hnew j hj, hnew k hk]
  · simp only [has, parts?_put? hput, hu, and_false, if_false] at hj hk
    exact ht u j k hj hk

theorem has_refresh : (t.refresh kind key parts).has j u = t.has j u := by
  unfold refresh
  split
  · next hhas =>
    cases hput : t.put? kind key parts with
    | none => rfl
    | some t' =>
      simp only [Option.getD_some, has, parts?_put? hput]
      split
      · next heq => rw [heq.1, heq.2]; exact hhas.symm
      · rfl
  · rfl

theorem Exclusive.refresh (ht : t.Exclusive) : (t.refresh kind key parts).Exclusive := by
  simpa only [Exclusive, has_refresh] using ht

theorem Exclusive.erase (ht : t.Exclusive) : (t.erase key).2.Exclusive := by
  intro u j k hj hk
  simp only [has, parts?_erase] at hj hk
  by_cases hu : u = key
  · rw [if_pos hu] at hj
    cases hj
  · rw [if_neg hu] at hj hk
    exact ht u j k hj hk

theorem Exclusive.kindOf?_eq_some (ht : t.Exclusive) :
    t.kindOf? key = some kind ↔ t.has kind key := by
  refine ⟨has_of_kindOf?, fun h => ?_⟩
  cases hfound : t.kindOf? key with
  | none =>
    rw [has, kindOf?_eq_none.1 hfound] at h
    cases h
  | some j => rw [ht key j kind (has_of_kindOf? hfound) h]

/-- The conversion of a value is what the one table that has it says. -/
theorem Exclusive.get?_eq_some (ht : t.Exclusive) :
    t.get? key = some ⟨kind, parts⟩ ↔ t.parts? kind key = some parts := by
  simp only [get?, Option.bind_eq_bind, Option.bind_eq_some_iff, Option.pure_def, Option.some.injEq,
    Conversion.mk.injEq]
  constructor
  · rintro ⟨_, _, _, hparts, rfl, rfl⟩
    exact hparts
  · intro h
    exact ⟨kind, ht.kindOf?_eq_some.2 (by rw [has, h]; rfl), parts, h, rfl, rfl⟩

end

end Tables

end Dataflow.Legal
