import Dataflow.Json
import Dataflow.Target

/-!
# Target descriptions

A target given by its legal types. A description is written as a JSON object of three fields, or
as the array of their values.
-/

namespace Dataflow

structure Description where
  name : String
  legal : List ValueType
  compareType : ValueType
  deriving DecidableEq, Repr, Inhabited

inductive DescriptionError where
  /-- The text is not a description. -/
  | parse
  | noLegalTypes (target : String)
  | illegalCompareType (target : String) (type : ValueType)
  | unlegalizable (target : String) (type : ValueType)
  deriving DecidableEq, Repr, Inhabited

def DescriptionError.message : DescriptionError → String
  | parse => "invalid target description"
  | noLegalTypes target => s!"target `{target}` declares no legal types"
  | illegalCompareType target type =>
    s!"setcc result type {type} is not a legal integer on target `{target}`"
  | unlegalizable target type =>
    s!"type {type} can be neither promoted nor expanded on target `{target}`"

namespace Description

/-! ### Text -/

def string? : Json → Option String
  | .string s => s
  | _ => none

/-- A type is its name, or an object that maps its name to null. -/
def type? : Json → Option ValueType
  | .string (some s) => ValueType.ofName? s
  | .object [(some s, .null)] => ValueType.ofName? s
  | _ => none

def types? : Json → Option (List ValueType)
  | .array items => items.mapM type?
  | _ => none

def ofFields? (name legal compareType : Json) : Option Description := do
  return ⟨← string? name, ← types? legal, ← type? compareType⟩

/-- Fields of other names are ignored, but they need a name. -/
def ofJson? : Json → Option Description
  | .array [name, legal, compareType] => ofFields? name legal compareType
  | .object fields => do
    if fields.all (·.1.isSome) then
      ofFields? (← Json.field? fields "name") (← Json.field? fields "legal_types")
        (← Json.field? fields "setcc_result_type")
    else none
  | _ => none

def parse (s : String) : Except DescriptionError Description :=
  match (Json.parse? s).bind ofJson? with
  | some d => .ok d
  | none => .error .parse

/-- The description as one JSON object without blanks. -/
def text (d : Description) : String :=
  let types := ",".intercalate (d.legal.map (Json.quote ·.name))
  "\x7b\"name\":" ++ Json.quote d.name ++ ",\"legal_types\":[" ++ types ++
    "],\"setcc_result_type\":" ++ Json.quote d.compareType.name ++ "\x7d"

/-! ### Answers -/

def isLegal (d : Description) (t : ValueType) : Bool :=
  d.legal.contains t

/-- The legal scalar integers, narrowest first. -/
def legalInts (d : Description) : List ValueType :=
  [ValueType.i1, .i8, .i16, .i32, .i64, .i128].filter d.isLegal

/-- What becomes of a type: a vector is expanded to its only lane or to its half; an integer is
promoted to the next wider legal integer or else expanded to its half; a double-double is expanded
to its parts, and any other float to the integer of its width. -/
def transform? (d : Description) (t : ValueType) : Option (TypeAction × ValueType) :=
  if d.isLegal t then some (.legal, t)
  else if t.lanes = 1 then some (.expand, t.scalar)
  else if t.isVector then t.half?.map (.expand, ·)
  else if t.isInt then
    match d.legalInts.find? (t.bits < ·.bits) with
    | some wider => some (.promote, wider)
    | none => (ValueType.int? (t.bits / 2)).map (.expand, ·)
  else if t = .ppcf128 then some (.expand, .f64)
  else t.sameWidthInt?.map (.expand, ·)

/-- The first legal integer of at least 32 bits, or else the widest one. -/
def indexType (d : Description) : ValueType :=
  ((d.legalInts.find? (32 ≤ ·.bits)).or d.legalInts.getLast?).getD d.compareType

/-- The target of a description, when every type can be made legal on it. -/
def target (d : Description) : Except DescriptionError Target :=
  if d.legal.isEmpty then .error (.noLegalTypes d.name)
  else if !d.isLegal d.compareType || !d.compareType.isInt || d.compareType.isVector then
    .error (.illegalCompareType d.name d.compareType)
  else match ValueType.all.find? fun t => (d.transform? t).isNone with
    | some t => .error (.unlegalizable d.name t)
    | none => .ok {
        name := d.name
        action := fun t => ((d.transform? t).map (·.1)).getD .legal
        transform := fun t => ((d.transform? t).map (·.2)).getD t
        compareType := fun _ => d.compareType
        indexType := d.indexType }

/-! ### Targets that pass a test -/

theorem eq_ok_of_toOption {ε α : Type} {x : Except ε α} {a : α} (h : x.toOption = some a) :
    x = .ok a := by
  cases x with
  | error e => cases h
  | ok b => exact congrArg Except.ok (Option.some.inj h)

/-- A description gives a target for which a test holds, if evaluating the test says so. -/
theorem exists_target {d : Description} {p : Target → Bool}
    (h : d.target.toOption.map p = some true) : ∃ T, d.target = .ok T ∧ p T = true := by
  obtain ⟨T, hT, hp⟩ := Option.map_eq_some_iff.1 h
  exact ⟨T, eq_ok_of_toOption hT, hp⟩

/-- So it is for a test of all types. -/
theorem exists_target_forall {d : Description} {p : Target → ValueType → Bool}
    (h : ∀ t, d.target.toOption.map (p · t) = some true) :
    ∃ T, d.target = .ok T ∧ ∀ t, p T t = true := by
  obtain ⟨T, hT, _⟩ := exists_target (h default)
  refine ⟨T, hT, fun t => ?_⟩
  have ht := h t
  rw [hT] at ht
  exact Option.some.inj ht

end Description

namespace Target

/-- The target of a written description. -/
def parse (s : String) : Except DescriptionError Target := do
  (← Description.parse s).target

/-- A machine with 32-bit integer registers only. -/
def int32 : Description := ⟨"int32", [.i32], .i32⟩

/-- A machine with integer and float registers of 32 and 64 bits and vectors of 128. -/
def simd128 : Description :=
  ⟨"simd128", [.i32, .i64, .f32, .f64, .v4i32, .v4f32, .v2i64, .v2f64], .i32⟩

end Target

end Dataflow
