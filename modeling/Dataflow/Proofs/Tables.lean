import Dataflow.Legal.Conversion.Tables
import Mathlib.Data.Set.Card

/-!
# Calls to the tables of conversions

Five tables act as one. After any calls a value is in the table under whose kind it was last recorded
and in no other, however many insertions were refused before and after. The history of a value are
the calls about it that were not refused, and the last of them tells what every table has for it.
-/

namespace Dataflow.Legal.Tables

/-! ### Calls -/

/-- What is asked of the tables. -/
inductive Call where
  /-- Records the parts of a value. -/
  | insert (kind : ConversionKind) (key : Value) (parts : Parts)
  /-- Drops what is recorded for a value. -/
  | erase (key : Value)
  deriving DecidableEq, Repr

/-- The value that a call is about. -/
def Call.key : Call → Value
  | insert _ key _ => key
  | erase key => key

/-- What a call leaves for its value. -/
def Call.conversion? : Call → Option Conversion
  | insert kind _ parts => some ⟨kind, parts⟩
  | erase _ => none

def Call.perform : Call → EStateM ConversionError Tables Unit
  | insert kind key parts => Tables.insert kind key parts
  | erase key => modify fun t => (t.erase key).2

/-- The tables after calls, each of which starts from those that the call before it has left. -/
def after (t : Tables) : List Call → Tables
  | [] => t
  | call :: calls =>
    match call.perform.run t with
    | .ok () t' => t'.after calls
    | .error _ t' => t'.after calls

/-- The calls that are not refused. -/
def taken (t : Tables) : List Call → List Call
  | [] => []
  | call :: calls =>
    match call.perform.run t with
    | .ok () t' => call :: t'.taken calls
    | .error _ t' => t'.taken calls

/-- What the last of the calls about a value that were taken, from empty tables on, left for it. -/
def recorded? (calls : List Call) (key : Value) : Option Conversion :=
  ((taken {} calls).findRev? (·.key = key)).bind Call.conversion?

variable {t t' : Tables} {kind : ConversionKind} {key u : Value} {parts : Parts}

/-! ### Entries -/

/-- The values in the table of a kind. -/
def keysOf (t : Tables) : ConversionKind → List Value
  | .promoted => t.promoted.keys
  | .expandedInteger => t.expandedIntegers.keys
  | .expandedFloat => t.expandedFloats.keys
  | .scalarized => t.scalarized.keys
  | .split => t.split.keys

theorem mem_keysOf : key ∈ t.keysOf kind ↔ t.has kind key := by
  cases kind <;> simp [keysOf, has, parts?, Std.TreeMap.mem_keys]

theorem nodup_keysOf (t : Tables) (kind : ConversionKind) : (t.keysOf kind).Nodup := by
  cases kind <;> exact Std.TreeMap.nodup_keys

theorem length_keys (t : Tables) : (ConversionKind.all.flatMap t.keysOf).length = t.size := by
  simp [ConversionKind.all, keysOf, size, Nat.add_assoc]

/-- Tables that share no value have as many entries as there are values with a conversion. -/
theorem Exclusive.encard_keys (ht : t.Exclusive) :
    {key | (t.kindOf? key).isSome}.encard = t.size := by
  have hnodup : (ConversionKind.all.flatMap t.keysOf).Nodup := by
    rw [List.nodup_flatMap]
    refine ⟨fun kind _ => t.nodup_keysOf kind, (by decide : ConversionKind.all.Nodup).imp ?_⟩
    exact fun hne key hj hk => hne (ht key _ _ (mem_keysOf.1 hj) (mem_keysOf.1 hk))
  have hkeys : {key | (t.kindOf? key).isSome} = (ConversionKind.all.flatMap t.keysOf).toFinset := by
    ext key
    simp [kindOf?, mem_keysOf]
  rw [hkeys, Set.encard_coe_eq_coe_finsetCard, List.toFinset_card_of_nodup hnodup, length_keys]

theorem eraseFrom_fst (t : Tables) (key : Value) {kinds : List ConversionKind} (h : kinds.Nodup) :
    (t.eraseFrom key kinds).1 = kinds.countP (t.has · key) := by
  induction kinds generalizing t with
  | nil => rfl
  | cons kind kinds ih =>
    obtain ⟨hkind, hkinds⟩ := List.nodup_cons.1 h
    have hrest : kinds.countP ((t.drop key kind).has · key) = kinds.countP (t.has · key) := by
      refine List.countP_congr fun j hj => ?_
      have hne : j ≠ kind := fun heq => hkind (heq ▸ hj)
      rw [has, parts?_drop, if_neg fun h => hne h.1, has]
    simp only [eraseFrom, ih _ hkinds, hrest, List.countP_cons]
    cases t.has kind key <;> simp [Nat.add_comm]

/-- At most one table has the value that is erased. -/
theorem Exclusive.erase_fst (ht : t.Exclusive) (key : Value) :
    (t.erase key).1 = if (t.kindOf? key).isSome then 1 else 0 := by
  rw [Tables.erase, eraseFrom_fst t key (by decide)]
  cases hkind : t.kindOf? key with
  | none =>
    rw [if_neg (by simp), List.countP_eq_zero]
    intro kind _
    rw [has, kindOf?_eq_none.1 hkind]
    simp
  | some kind =>
    have hhas : t.has kind key := has_of_kindOf? hkind
    have hother (j : ConversionKind) : t.has j key = (j == kind) := by
      rw [Bool.eq_iff_iff, beq_iff_eq]
      exact ⟨fun hj => ht key j kind hj hhas, fun heq => heq ▸ hhas⟩
    simp only [hother, Option.isSome_some, if_true]
    exact List.count_eq_one_of_mem (by decide) kind.mem_all

/-! ### Refusals -/

/-- Why an insertion is refused: the value is in that table or in another one, or it is in none and the
table does not take so many parts. -/
inductive Refuses (t : Tables) (kind : ConversionKind) (key : Value) (parts : Parts) :
    ConversionError → Prop
  | duplicate : t.has kind key → Refuses t kind key parts (.duplicate kind key)
  | conflicting {existing : ConversionKind} : t.has existing key → existing ≠ kind →
    Refuses t kind key parts (.conflicting kind existing key)
  | shape : (∀ j, ¬ t.has j key) → parts.isPair ≠ kind.isPair →
    Refuses t kind key parts (.shape kind parts.isPair)

/-- Where a table has the value, the insertion is refused for that. -/
theorem Exclusive.refuses_of_has (ht : t.Exclusive) {existing : ConversionKind}
    {e : ConversionError} (hhas : t.has existing key) :
    t.Refuses kind key parts e ↔ e = .occupied kind existing key := by
  unfold ConversionError.occupied
  constructor
  · rintro (hdup | ⟨hconf, hne⟩ | ⟨hfree, _⟩)
    · rw [if_pos (ht key _ _ hhas hdup)]
    · rw [ht key _ _ hhas hconf, if_neg hne]
    · exact absurd hhas (hfree existing)
  · rintro rfl
    split
    · next heq => exact .duplicate (heq ▸ hhas)
    · next hne => exact .conflicting hhas hne

/-- Where no table has the value, the insertion is refused for the number of parts. -/
theorem refuses_of_vacant {e : ConversionError} (hfree : ∀ j, ¬ t.has j key) :
    t.Refuses kind key parts e ↔
      e = .shape kind parts.isPair ∧ parts.isPair ≠ kind.isPair := by
  constructor
  · rintro (hdup | ⟨hconf, _⟩ | ⟨_, hshape⟩)
    · exact absurd hdup (hfree kind)
    · exact absurd hconf (hfree _)
    · exact ⟨rfl, hshape⟩
  · rintro ⟨rfl, hshape⟩
    exact .shape hfree hshape

/-- A refused insertion has a reason, and it leaves the tables that it found. -/
theorem Exclusive.insert_eq_error (ht : t.Exclusive) {e : ConversionError} :
    (Tables.insert kind key parts).run t = .error e t' ↔ t.Refuses kind key parts e ∧ t' = t := by
  cases hkind : t.kindOf? key with
  | some existing =>
    rw [run_insert_of_some hkind, ht.refuses_of_has (has_of_kindOf? hkind)]
    simp only [EStateM.Result.error.injEq, eq_comm]
  | none =>
    have hfree (j : ConversionKind) : ¬ t.has j key := by
      rw [has, kindOf?_eq_none.1 hkind]
      simp
    rw [run_insert_of_none hkind, refuses_of_vacant hfree, ne_eq, ← exists_put?_iff (t := t)]
    cases t.put? kind key parts with
    | some t₁ => simp
    | none => simp [eq_comm]

/-! ### Histories -/

/-- A call that is refused changes nothing. -/
theorem Exclusive.eq_of_refused (ht : t.Exclusive) {call : Call} {e : ConversionError}
    (h : call.perform.run t = .error e t') : t' = t := by
  cases call with
  | insert kind key parts => exact (ht.insert_eq_error.1 h).2
  | erase key => cases h

/-- A call that is taken changes the conversion of its value only. -/
theorem Exclusive.perform (ht : t.Exclusive) {call : Call} (h : call.perform.run t = .ok () t') :
    t'.Exclusive ∧ ∀ u, t'.get? u = if call.key = u then call.conversion? else t.get? u := by
  cases call with
  | insert kind key parts =>
    have hparts := parts?_put? (insert_eq_ok.1 h).2
    have ht' := ht.insert h
    refine ⟨ht', fun u => ?_⟩
    split
    · next hu =>
      have hu : key = u := hu
      exact ht'.get?_eq_some.2 (by rw [hparts, if_pos ⟨rfl, hu.symm⟩])
    · next hu => exact get?_congr fun j => by rw [hparts, if_neg fun h => hu h.2.symm]
  | erase key =>
    cases h
    refine ⟨ht.erase, fun u => ?_⟩
    split
    · next hu =>
      have hu : key = u := hu
      exact get?_eq_none.2 fun j => by rw [parts?_erase, if_pos hu.symm]
    · next hu => exact get?_congr fun j => by rw [parts?_erase, if_neg fun h => hu h.symm]

/-- The last call about a value tells its conversion; without one it is what it was. -/
theorem Exclusive.after (ht : t.Exclusive) (calls : List Call) :
    (t.after calls).Exclusive ∧ ∀ u, (t.after calls).get? u =
      ((t.taken calls).findRev? (·.key = u)).elim (t.get? u) Call.conversion? := by
  induction calls generalizing t with
  | nil => exact ⟨ht, fun u => rfl⟩
  | cons call calls ih =>
    rw [Tables.after, taken]
    cases hcall : call.perform.run t with
    | error e t' =>
      rw [ht.eq_of_refused hcall]
      exact ih ht
    | ok _ t' =>
      obtain ⟨ht', hget⟩ := ht.perform hcall
      obtain ⟨hexclusive, hafter⟩ := ih ht'
      refine ⟨hexclusive, fun u => ?_⟩
      dsimp only
      rw [hafter, List.findRev?]
      cases (t'.taken calls).findRev? (·.key = u) with
      | some last => rfl
      | none =>
        rw [Option.elim_none, hget]
        by_cases hu : call.key = u <;> simp [hu]

theorem get?_after (calls : List Call) (key : Value) :
    (after {} calls).get? key = recorded? calls key := by
  rw [(exclusive_empty.after calls).2, get?_eq_none.2 fun kind => parts?_empty kind key, recorded?]
  cases (taken {} calls).findRev? (·.key = key) <;> rfl

/-- What the table of a kind has is what was recorded last, if it was recorded under that kind. -/
theorem parts?_after (calls : List Call) :
    (after {} calls).parts? kind key = some parts ↔ recorded? calls key = some ⟨kind, parts⟩ := by
  rw [← get?_after, (exclusive_empty.after calls).1.get?_eq_some]

/-- The tables after any calls, from empty ones on. No value is in two of them; the kind and the parts of
a value are those of its last insertion that was not refused, unless it was erased since; their size is
the number of values with a kind; an insertion is refused exactly for the reasons that there are, and
then leaves the tables that it found; and erasing tells whether the value had a kind, and keeps all
others. -/
theorem calls_exact (calls : List Call) :
    let t := after {} calls
    (∀ key j k, t.has j key → t.has k key → j = k) ∧
    (∀ key, t.kindOf? key = (recorded? calls key).map (·.kind)) ∧
    (∀ kind key v, t.one kind key = .ok v ↔ recorded? calls key = some ⟨kind, .one v⟩) ∧
    (∀ kind key e, t.one kind key = .error e ↔
      e = .missing kind key ∧ ∀ v, recorded? calls key ≠ some ⟨kind, .one v⟩) ∧
    (∀ kind key lo hi, t.two kind key = .ok (lo, hi) ↔
      recorded? calls key = some ⟨kind, .two lo hi⟩) ∧
    (∀ kind key e, t.two kind key = .error e ↔
      e = .missing kind key ∧ ∀ lo hi, recorded? calls key ≠ some ⟨kind, .two lo hi⟩) ∧
    {key | (t.kindOf? key).isSome}.encard = t.size ∧
    (∀ kind key parts e t', (insert kind key parts).run t = .error e t' ↔
      t.Refuses kind key parts e ∧ t' = t) ∧
    (∀ key, (t.erase key).1 = if (t.kindOf? key).isSome then 1 else 0) ∧
    ∀ key kind u, (t.erase key).2.parts? kind u = if u = key then none else t.parts? kind u := by
  intro t
  have ht : t.Exclusive := (exclusive_empty.after calls).1
  refine ⟨ht, fun key => ?_, fun kind key v => ?_, fun kind key e => ?_,
    fun kind key lo hi => ?_, fun kind key e => ?_, ht.encard_keys,
    fun kind key parts e t' => ht.insert_eq_error, ht.erase_fst,
    fun key kind u => parts?_erase t key kind u⟩
  · rw [← map_kind_get?, get?_after]
  · rw [one_eq_ok, parts?_after]
  · simp only [one_eq_error, t, ne_eq, parts?_after]
  · rw [two_eq_ok, parts?_after]
  · simp only [two_eq_error, t, ne_eq, parts?_after]

/-- A value that is promoted, then three insertions that are refused, and the value split instead. -/
def promotedThenSplit : List Call :=
  [.insert .promoted ⟨0, 0⟩ (.one ⟨1, 0⟩), .insert .promoted ⟨0, 0⟩ (.one ⟨2, 0⟩),
    .insert .split ⟨0, 0⟩ (.two ⟨2, 0⟩ ⟨3, 0⟩), .insert .split ⟨4, 0⟩ (.one ⟨5, 0⟩), .erase ⟨0, 0⟩,
    .insert .split ⟨0, 0⟩ (.two ⟨2, 0⟩ ⟨3, 0⟩)]

theorem calls_exact_promotedThenSplit :
    let t := after {} promotedThenSplit
    taken {} promotedThenSplit = [.insert .promoted ⟨0, 0⟩ (.one ⟨1, 0⟩), .erase ⟨0, 0⟩,
      .insert .split ⟨0, 0⟩ (.two ⟨2, 0⟩ ⟨3, 0⟩)] ∧
    t.two .split ⟨0, 0⟩ = .ok (⟨2, 0⟩, ⟨3, 0⟩) ∧
    t.one .promoted ⟨0, 0⟩ = .error (.missing .promoted ⟨0, 0⟩) ∧
    (insert .scalarized ⟨0, 0⟩ (.one ⟨6, 0⟩)).run t =
      .error (.conflicting .scalarized .split ⟨0, 0⟩) t ∧
    (t.erase ⟨0, 0⟩).1 = 1 ∧ (t.erase ⟨4, 0⟩).1 = 0 := by
  obtain ⟨_, hkind, _, hone, htwo, _, _, hinsert, herase, _⟩ := calls_exact promotedThenSplit
  have hrecorded : recorded? promotedThenSplit ⟨0, 0⟩ = some ⟨.split, .two ⟨2, 0⟩ ⟨3, 0⟩⟩ := rfl
  refine ⟨rfl, (htwo _ _ _ _).2 hrecorded, (hone _ _ _).2 ⟨rfl, fun v => ?_⟩,
    (hinsert _ _ _ _ _).2 ⟨.conflicting rfl (by decide), rfl⟩, ?_, ?_⟩
  · rw [hrecorded]
    simp
  · rw [herase, hkind, hrecorded]
    rfl
  · rw [herase, hkind]
    rfl

end Dataflow.Legal.Tables
