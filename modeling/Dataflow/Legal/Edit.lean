import Dataflow.Instr
import Dataflow.Legal.Error
import Dataflow.Legal.Event
import Dataflow.Legal.Replacement

/-!
# Edits

What a rule reads and extends is a draft: the graph, the conversions of illegal values, and the
replacements. Operand edges are never changed in place; a rule sees the canonical form of every
operand, and every node it creates reads canonical values.

An edit carries the proof that it only extends the draft it is given. One that fails keeps the
nodes it created and the events it reported.
-/

namespace Dataflow.Legal

structure Draft where
  graph : Graph
  conversions : Conversions := {}
  replaced : Replacements := {}
  /-- Number of nodes created by rules. -/
  created : Nat := 0
  log : Array Event := #[]
  deriving Inhabited

/-- `d'` has further nodes; every value keeps its canonical form, and its parts up to that. -/
structure Draft.Grows (d d' : Draft) : Prop where
  graph : d.graph.Extends d'.graph
  replaced : d.replaced.Shortens d'.replaced
  conversions : d.conversions.Refreshes d.replaced.Reaches d'.conversions

namespace Draft.Grows

theorem refl (d : Draft) : d.Grows d :=
  ⟨.refl, .refl _, .refl .refl _⟩

theorem trans {d d' d'' : Draft} (h : d.Grows d') (h' : d'.Grows d'') : d.Grows d'' :=
  ⟨h.graph.trans h'.graph, h.replaced.trans h'.replaced,
    h.conversions.trans (fun _ _ _ huv hvw => huv.trans (h.replaced.reaches_of hvw))
      h'.conversions⟩

end Draft.Grows

/-- What an edit ends with, and the draft it leaves. -/
inductive Edited (α : Type) where
  | ok (a : α) (draft : Draft)
  | error (e : Error) (draft : Draft)

def Edited.draft {α : Type} : Edited α → Draft
  | ok _ d | error _ d => d

@[ext]
structure Edit (α : Type) where
  run : Draft → Edited α
  grows : ∀ d : Draft, d.Grows (run d).draft

namespace Edit

@[always_inline, inline]
protected def pure {α : Type} (a : α) : Edit α :=
  ⟨fun d => .ok a d, fun d => .refl d⟩

@[always_inline, inline]
protected def bind {α β : Type} (x : Edit α) (f : α → Edit β) : Edit β where
  run d :=
    match x.run d with
    | .ok a d => (f a).run d
    | .error e d => .error e d
  grows d := by
    have hx := x.grows d
    split <;> (rename_i h; rw [h] at hx)
    · exact hx.trans ((f _).grows _)
    · exact hx

instance : Monad Edit where
  pure := Edit.pure
  bind := Edit.bind

theorem run_pure {α : Type} (a : α) (d : Draft) : (pure a : Edit α).run d = .ok a d := rfl

theorem run_bind {α β : Type} (x : Edit α) (f : α → Edit β) (d : Draft) :
    (x >>= f).run d =
      match x.run d with
      | .ok a d => (f a).run d
      | .error e d => .error e d := rfl

instance : LawfulMonad Edit :=
  LawfulMonad.mk' Edit
    (fun x => by
      ext d
      show (x >>= fun a => pure a).run d = x.run d
      rw [run_bind]
      cases x.run d <;> rfl)
    (fun _ _ => rfl)
    (fun x f g => by
      ext d
      simp only [run_bind]
      cases x.run d <;> rfl)

@[always_inline, inline]
protected def throw {α : Type} (e : Error) : Edit α :=
  ⟨fun d => .error e d, fun d => .refl d⟩

@[always_inline, inline]
protected def tryCatch {α : Type} (x : Edit α) (handle : Error → Edit α) : Edit α where
  run d :=
    match x.run d with
    | .ok a d => .ok a d
    | .error e d => (handle e).run d
  grows d := by
    have hx := x.grows d
    split <;> (rename_i h; rw [h] at hx)
    · exact hx
    · exact hx.trans ((handle _).grows _)

instance : MonadExceptOf Error Edit where
  throw := Edit.throw
  tryCatch := Edit.tryCatch

instance : MonadLift (Except Fault) Edit :=
  ⟨fun
    | .ok a => pure a
    | .error f => throw (.fault f)⟩

instance : MonadLift (Except ConversionError) Edit :=
  ⟨fun
    | .ok a => pure a
    | .error e => throw (.conversion e)⟩

/-- The draft as it is. -/
@[always_inline, inline]
def draft : Edit Draft :=
  ⟨fun d => .ok d d, fun d => .refl d⟩

def report (e : Event) : Edit Unit where
  run d := .ok () { d with log := d.log.push e }
  grows _ := ⟨.refl, .refl _, .refl .refl _⟩

def node (id : NodeId) : Edit Node := do
  (← draft).graph.node id

def typeOf (v : Value) : Edit ValueType := do
  (← draft).graph.typeOf v

/-- The type of result `slot` of a node. -/
def resultType (id : NodeId) (slot : Nat) : Edit ValueType := do
  match (← node id).results[slot]? with
  | some t => return t
  | none => throw (.fault .noSuchResult)

/-- The rule cannot convert node `id`. -/
def obstacle {α : Type} (id : NodeId) (o : Obstacle) : Edit α := do
  throw (.unsupported (← node id).opcode id o)

/-- The canonical form of a value. -/
def canonical (v : Value) : Edit Value where
  run d :=
    match d.replaced.resolve v with
    | .ok (w, replaced) => .ok w { d with replaced }
    | .error f => .error (.fault f) d
  grows d := by
    split
    · rename_i h
      exact ⟨.refl, (Replacements.resolve_spec h).2.2, .refl .refl _⟩
    · exact .refl d

/-- The canonical form of an operand. -/
def operand (id : NodeId) (i : Nat) : Edit Value := do
  canonical (← (← draft).graph.operand id i)

/-- The canonical forms of all operands. -/
def operands (id : NodeId) : Edit (List Value) := do
  (← node id).operands.mapM canonical

/-- The bits of a value that is an integer constant. -/
def constant? (v : Value) : Edit (Option Nat) := do
  let n ← node v.node
  return if n.opcode = .constant then n.imm? else none

/-- Appends a node. -/
def append (n : Node) : Edit NodeId where
  run d :=
    if d.graph.admits n then
      let id := d.graph.size
      .ok id { d with
        graph := d.graph.push n
        created := d.created + 1
        log := d.log.push (.created id n.opcode) }
    else .error (.fault .noSuchResult) d
  grows d := by
    split
    · rename_i h
      exact ⟨.push .refl h, .refl _, .refl .refl _⟩
    · exact .refl d

/-- Appends a node that reads the canonical forms of its operands. -/
def add (n : Node) : Edit NodeId := do
  append { n with operands := ← n.operands.mapM canonical }

/-- Appends the requested node. -/
def build (i : Instr) : Edit Value := do
  let n ← i.node (← draft).graph.typeOf
  return ⟨← add n, 0⟩

/-! ### Requests -/

def argument (index offset : Nat) (t : ValueType) : Edit Value := build (.argument index offset t)

def constant (bits : Nat) (t : ValueType) : Edit Value := build (.constant bits t)

def constantFp (bits : Nat) (t : ValueType) : Edit Value := build (.constantFp bits t)

def undef (t : ValueType) : Edit Value := build (.undef t)

def binary (op : Opcode) (a b : Value) : Edit Value := build (.binary op a b)

def int (op : IntOp) (a b : Value) : Edit Value := binary (.int op) a b

def unary (op : Opcode) (v : Value) : Edit Value := build (.unary op v)

def cast (op : Opcode) (v : Value) (t : ValueType) : Edit Value := build (.cast op v t)

def setcc (a b : Value) (c : Condition) (t : ValueType) : Edit Value := build (.setcc a b c t)

def select (cond a b : Value) : Edit Value := build (.select cond a b)

def buildPair (lo hi : Value) (t : ValueType) : Edit Value := build (.buildPair lo hi t)

def buildVector (elements : List Value) (t : ValueType) : Edit Value :=
  build (.buildVector elements t)

def extract (vector index : Value) : Edit Value := build (.extract vector index)

def extractAs (vector index : Value) (t : ValueType) : Edit Value :=
  build (.extractAs vector index t)

def insert (vector element index : Value) : Edit Value := build (.insert vector element index)

def shuffle (a b : Value) (lanes : List (Option Nat)) (t : ValueType) : Edit Value :=
  build (.shuffle a b lanes t)

/-- The lane of a vector at a constant index. -/
def extractLane (T : Target) (vector : Value) (lane : Nat) : Edit Value := do
  extract vector (← constant lane T.indexType)

/-! ### Conversions -/

/-- The value that stands for a canonical value, in canonical form. -/
def currentOne (kind : ConversionKind) (key : Value) : Edit Value where
  run d :=
    match d.conversions.one kind key with
    | .error e => .error (.conversion e) d
    | .ok stored =>
      match d.replaced.resolve stored with
      | .error f => .error (.fault f) d
      | .ok (current, replaced) =>
        if current = stored then .ok current { d with replaced }
        else .ok current { d with
          replaced, conversions := d.conversions.refresh kind key (.one current) }
  grows d := by
    split
    · exact .refl d
    · rename_i stored hs
      split
      · exact .refl d
      · rename_i hr
        obtain ⟨hw, _, hsh⟩ := Replacements.resolve_spec hr
        split
        · exact ⟨.refl, hsh, .refl .refl _⟩
        · exact ⟨.refl, hsh, Conversions.refresh_refreshes .refl (Conversions.one_eq_ok.1 hs) hw⟩

/-- The low and high values that stand for a canonical value, in canonical form. -/
def currentTwo (kind : ConversionKind) (key : Value) : Edit (Value × Value) where
  run d :=
    match d.conversions.two kind key with
    | .error e => .error (.conversion e) d
    | .ok (storedLo, storedHi) =>
      match d.replaced.resolve storedLo with
      | .error f => .error (.fault f) d
      | .ok (lo, replaced) =>
        match replaced.resolve storedHi with
        | .error f => .error (.fault f) { d with replaced }
        | .ok (hi, replaced) =>
          if (lo, hi) = (storedLo, storedHi) then .ok (lo, hi) { d with replaced }
          else .ok (lo, hi) { d with
            replaced, conversions := d.conversions.refresh kind key (.two lo hi) }
  grows d := by
    split
    · exact .refl d
    · rename_i storedLo storedHi hs
      split
      · exact .refl d
      · rename_i hlo
        obtain ⟨hl, _, hsh⟩ := Replacements.resolve_spec hlo
        split
        · exact ⟨.refl, hsh, .refl .refl _⟩
        · rename_i hhi
          obtain ⟨hh, _, hsh'⟩ := Replacements.resolve_spec hhi
          split
          · exact ⟨.refl, hsh.trans hsh', .refl .refl _⟩
          · exact ⟨.refl, hsh.trans hsh', Conversions.refresh_refreshes .refl
              (Conversions.two_eq_ok.1 hs) ⟨hl, hsh.reaches_of hh⟩⟩

/-- The value that stands for `v`, in canonical form. -/
def one (kind : ConversionKind) (v : Value) : Edit Value := do
  currentOne kind (← canonical v)

/-- The low and high values that stand for `v`, in canonical form. -/
def two (kind : ConversionKind) (v : Value) : Edit (Value × Value) := do
  currentTwo kind (← canonical v)

/-- The integer that carries a promoted value. -/
def promoted (v : Value) : Edit Value := one .promoted v

/-- The integer halves of a value. -/
def halves (v : Value) : Edit (Value × Value) := two .expandedInteger v

/-- The float parts of a value. -/
def floatParts (v : Value) : Edit (Value × Value) := two .expandedFloat v

/-- The element of a vector of one lane. -/
def soleLane (v : Value) : Edit Value := one .scalarized v

/-- The halves of a vector. -/
def vectorHalves (v : Value) : Edit (Value × Value) := two .split v

end Edit

/-- What takes the place of a node with an illegal operand. -/
inductive Successor where
  /-- A node, result for result. -/
  | node (id : NodeId)
  /-- A value, for the only result. -/
  | value (v : Value)
  deriving DecidableEq, Repr, Inhabited

end Dataflow.Legal
