import Dataflow.Legal.Run
import Dataflow.Proofs.Arena

/-!
# The states that a run passes through

An action of a run is put together from edits of the draft and single updates of the run. A plan
says how, and its type says of which action; so it fixes the states between the start of a run and
its end. Nearly all of a run is mild: nodes and canonical forms stay. Only rules add nodes, and only
a replacement redirects values.
-/

namespace Dataflow.Legal

/-! ### Edits -/

/-- The drafts that an edit passes through: what it starts and stops with, and the same for its
parts. -/
inductive Edit.Passes : {α : Type} → Edit α → Draft → Draft → Prop
  | start {α : Type} (x : Edit α) (d : Draft) : Passes x d d
  | stop {α : Type} (x : Edit α) (d : Draft) : Passes x d (x.run d).draft
  | first {α β : Type} {x : Edit α} {f : α → Edit β} {d d' : Draft} : Passes x d d' →
    Passes (x >>= f) d d'
  | next {α β : Type} {x : Edit α} {f : α → Edit β} {a : α} {d d₁ d' : Draft} :
    x.run d = .ok a d₁ → Passes (f a) d₁ d' → Passes (x >>= f) d d'

/-! ### Plans -/

namespace Engine

/-- How an action is put together from edits and single updates of the run. -/
inductive Plan : {α : Type} → Engine α → Type 1
  | edit {α : Type} (x : Edit α) : Plan (liftM x)
  | get : Plan get
  | update (f : Run → Run) : Plan (modify f)
  | take {α : Type} (f : Run → α × Run) : Plan (modifyGet f)
  | pure {α : Type} (a : α) : Plan (pure a)
  | throw {α : Type} (e : Error) : Plan (throw e : Engine α)
  | bind {α β : Type} {x : Engine α} {f : α → Engine β} :
    Plan x → (∀ a, Plan (f a)) → Plan (x >>= f)

namespace Plan

noncomputable section

variable {α β : Type}

/-- The states that an action passes through. -/
def Passes : {α : Type} → {x : Engine α} → Plan x → Run → Run → Prop
  | _, _, .edit x, s, s' => ∃ d, x.Passes s.draft d ∧ s' = { s with draft := d }
  | _, _, .get, s, s' | _, _, .pure _, s, s' | _, _, .throw _, s, s' => s' = s
  | _, _, .update f, s, s' => s' = s ∨ s' = f s
  | _, _, .take f, s, s' => s' = s ∨ s' = (f s).2
  | _, _, .bind (x := x) p q, s, s' =>
    p.Passes s s' ∨ ∃ a s₁, x s = .ok a s₁ ∧ (q a).Passes s₁ s'

def ite {x y : Engine α} {c : Prop} [inst : Decidable c] (p : Plan x) (q : Plan y) :
    Plan (if c then x else y) :=
  match inst with
  | .isTrue _ => p
  | .isFalse _ => q

/-- A check that comes before the rest. -/
def guard {c : Prop} [Decidable c] (e : Error) {rest : Unit → Engine α} (p : ∀ u, Plan (rest u)) :
    Plan (if c then (MonadExcept.throw e : Engine Unit) >>= rest else rest ()) :=
  .ite (.bind (.throw e) p) (p ())

def forM {f : α → Engine PUnit} (p : ∀ a, Plan (f a)) : (as : List α) → Plan (as.forM f)
  | [] => .pure _
  | a :: as => .bind (p a) fun _ => forM p as

def foldlM {f : β → α → Engine β} (p : ∀ b a, Plan (f b a)) :
    (as : List α) → (b : β) → Plan (as.foldlM f b)
  | [], b => .pure b
  | a :: as, b => .bind (p b a) fun b => foldlM p as b

def report (e : Event) : Plan (Engine.report e) := .edit _

def stateOf (id : NodeId) : Plan (Engine.stateOf id) := .bind .get fun _ => .pure _

def setState (id : NodeId) (state : NodeState) : Plan (Engine.setState id state) := .update _

def push (id : NodeId) : Plan (Engine.push id) := .bind (.report _) fun _ => .update _

def setPending (id : NodeId) (count : Nat) : Plan (Engine.setPending id count) :=
  .bind (.setState _ _) fun _ => .ite (.push _) (.pure _)

def analyzeWithin : (fuel : Nat) → (id : NodeId) → Plan (Engine.analyzeWithin fuel id)
  | 0, _ => .throw _
  | fuel + 1, _ =>
    .bind (.stateOf _) fun _ => .ite
      (.bind (.edit _) fun _ => .bind
        (.foldlM (fun _ _ => .bind (.edit _) fun _ => .bind (analyzeWithin fuel _) fun _ =>
          .bind (.stateOf _) fun _ => .pure _) _ _)
        fun _ => .setPending _ _)
      (.pure _)

def analyze (id : NodeId) : Plan (Engine.analyze id) := .bind .get fun _ => .analyzeWithin _ _

def reanalyze (id : NodeId) : Plan (Engine.reanalyze id) :=
  .bind (.setState _ _) fun _ => .analyze _

def analyzeParts : (parts : Parts) → Plan (Engine.analyzeParts parts)
  | .one _ => .bind (.edit _) fun _ => .bind (.analyze _) fun _ => .pure _
  | .two _ _ => .bind (.edit _) fun _ => .bind (.edit _) fun _ => .bind (.analyze _) fun _ =>
    .bind (.analyze _) fun _ => .pure _

def record (kind : ConversionKind) (v : Value) (parts : Parts) :
    Plan (Engine.record kind v parts) :=
  .bind (.analyzeParts _) fun _ => .bind .get fun _ => .bind (.edit _) fun _ =>
    .bind (.update _) fun _ => .report _

def checkSizes (fits : Nat → Nat → Bool) (v w : Value) : Plan (Engine.checkSizes fits v w) :=
  .bind (.edit _) fun _ => .bind (.edit _) fun _ => .ite (.throw _) (.pure _)

def recordParts : (a : Action) → (v : Value) → (parts : Parts) →
    Plan (Engine.recordParts a v parts)
  | .legal, _, _ => .pure _
  | .promoteInteger, _, .one _ | .promoteFloat, _, .one _ =>
    .bind (.checkSizes _ _ _) fun _ => .record _ _ _
  | .promoteInteger, _, .two .. | .promoteFloat, _, .two .. | .expandInteger, _, _
  | .expandFloat, _, _ | .scalarize, _, _ | .split, _, _ => .record _ _ _

def revisitUser (id : NodeId) : Plan (Engine.revisitUser id) :=
  .bind (.stateOf _) fun state =>
    match state with
    | .new => .pure _
    | .pending _ => .reanalyze _
    | .ready | .processed => .throw _

def redirect (v w : Value) : Plan (Engine.redirect v w) :=
  .bind .get fun _ => .bind (.edit _) fun _ => .bind (.update _) fun _ =>
    .bind (.take _) fun _ => .bind (.report _) fun _ => .pure _

def replaceValue (v w : Value) : Plan (Engine.replaceValue v w) :=
  .bind (.edit _) fun _ => .ite (.pure _) <| .guard _ fun _ =>
    .bind (.analyze _) fun _ => .bind (.redirect _ _) fun _ =>
    .forM (fun _ => .revisitUser _) _

def replaceNode (old new : NodeId) : Plan (Engine.replaceNode old new) :=
  .bind (.edit _) fun _ => .bind (.edit _) fun _ => .guard _ fun _ =>
    .bind (.forM (fun _ => .replaceValue _ _) _) fun _ => .bind (.analyze _) fun _ =>
    .bind .get fun _ => .ite (.bind (.report _) fun _ => .update _) (.pure _)

def convertResult (T : Target) (id : NodeId) (op : Opcode) (slot : Nat) (t : ValueType) :
    Plan (Engine.convertResult T id op slot t) :=
  .bind (.report _) fun _ =>
    match resultRule? (T.classify t) op with
    | none => .throw _
    | some rule => .bind (.edit (rule T id slot)) fun _ => .recordParts _ _ _

def convertResults (T : Target) (id : NodeId) (op : Opcode) :
    (slot : Nat) → (ts : List ValueType) → Plan (Engine.convertResults T id op slot ts)
  | _, [] => .pure _
  | slot, _ :: ts => .ite (convertResults T id op (slot + 1) ts) <|
    .bind (.convertResult _ _ _ _ _) fun _ => .bind (convertResults T id op (slot + 1) ts) fun _ =>
    .pure _

def succeed (id : NodeId) (op : Opcode) : (next : Successor) → Plan (Engine.succeed id op next)
  | .node _ => .ite (.pure _) (.replaceNode _ _)
  | .value _ => .bind (.edit _) fun _ => .guard _ fun _ => .replaceValue _ _

def reviseOperand (T : Target) (id : NodeId) (op : Opcode) :
    (is : List Nat) → Plan (Engine.reviseOperand T id op is)
  | [] => .pure _
  | i :: is => .bind (.edit _) fun _ => .bind (.edit _) fun _ =>
    .ite (reviseOperand T id op is) <| .bind (.report _) fun _ =>
      match operandRule? _ op with
      | none => .throw _
      | some rule => .bind (.edit (rule T id i)) fun _ => .succeed _ _ _

def visit (T : Target) (id : NodeId) : Plan (Engine.visit T id) :=
  .bind (.edit _) fun _ => .bind (.convertResults _ _ _ _ _) fun _ =>
    .ite (.pure _) (.reviseOperand _ _ _ _)

def operandProcessed (id : NodeId) : Plan (Engine.operandProcessed id) :=
  .bind .get fun s =>
    match s.states.resolveOperand id with
    | .ok _ _ => .bind (.update _) fun _ => .ite (.push _) (.pure _)
    | .unexpected _ | .underflow => .throw _

def finishNode (id : NodeId) : Plan (Engine.finishNode id) :=
  .bind (.setState _ _) fun _ => .bind .get fun _ => .bind (.edit _) fun _ =>
    .forM (fun _ => .operandProcessed _) _

def step (T : Target) (id : NodeId) : Plan (Engine.step T id) :=
  .bind (.stateOf _) fun _ => .guard _ fun _ => .bind (.update _) fun _ =>
    .bind (.visit _ _) fun _ => .finishNode _

def loop (T : Target) : (fuel : Nat) → Plan (Engine.loop T fuel)
  | 0 => .bind .get fun _ => .ite (.throw _) (.pure _)
  | fuel + 1 => .bind .get fun s =>
    match s.worklist with
    | [] => .pure _
    | _ :: _ => .bind (.update _) fun _ => .bind (.step _ _) fun _ => loop T fuel

def seed : Plan Engine.seed :=
  .bind .get fun _ => .forM (fun _ => .setPending _ _) _

def prepare (config : Config) : Plan (Engine.prepare config) :=
  .ite (.bind .get fun _ => .bind (.report _) fun _ => .seed) .seed

def finish (T : Target) (config : Config) : Plan (Engine.finish T config) :=
  .bind .get fun s =>
    match s.conclude T config with
    | .error _ => .throw _
    | .ok _ => .bind (.report _) fun _ => .ite (.bind (.report _) fun _ => .pure _) (.pure _)

/-- The whole run. -/
def run (T : Target) (config : Config) (fuel : Nat) : Plan (Engine.run T config fuel) :=
  .bind (.prepare _) fun _ => .bind (.loop _ _) fun _ => .finish _ _

end

end Plan

end Engine

/-! ### Mild actions -/

theorem Edit.Passes.grows {α : Type} {x : Edit α} {d d' : Draft} (h : x.Passes d d') :
    d.Grows d' ∧ d'.Grows (x.run d).draft := by
  induction h with
  | start x d => exact ⟨.refl d, x.grows d⟩
  | stop x d => exact ⟨x.grows d, .refl _⟩
  | @first α β x f d d' _ ih =>
    refine ⟨ih.1, ih.2.trans ?_⟩
    rw [run_bind]
    cases x.run d with
    | ok a d₁ => exact (f a).grows d₁
    | error e d₁ => exact .refl d₁
  | @next α β x f a d d₁ d' hx _ ih =>
    have hg := x.grows d
    rw [run_bind]
    rw [hx] at hg ⊢
    exact ⟨hg.trans ih.1, ih.2⟩

/-- The edit adds no nodes. -/
def Edit.Still {α : Type} (x : Edit α) : Prop :=
  ∀ d, (x.run d).draft.graph = d.graph

namespace Edit

variable {α β : Type}

theorem Still.bind {x : Edit α} {f : α → Edit β} (hx : x.Still) (hf : ∀ a, (f a).Still) :
    (x >>= f).Still := by
  intro d
  have h := hx d
  rw [run_bind]
  cases hr : x.run d with
  | ok a d₁ =>
    rw [hr] at h
    exact (hf a d₁).trans h
  | error e d₁ =>
    rw [hr] at h
    exact h

theorem still_ofFault (x : Except Fault α) : (liftM x : Edit α).Still := fun _ => by
  cases x <;> rfl

theorem still_ofConversion (x : Except ConversionError α) : (liftM x : Edit α).Still := fun _ => by
  cases x <;> rfl

theorem still_report (e : Event) : (report e).Still := fun _ => rfl

theorem still_node (id : NodeId) : (node id).Still :=
  .bind (fun _ => rfl) fun _ => still_ofFault _

theorem still_typeOf (v : Value) : (typeOf v).Still :=
  .bind (fun _ => rfl) fun _ => still_ofFault _

theorem still_canonical (v : Value) : (canonical v).Still := fun d => by
  simp only [canonical]
  split <;> rfl

theorem still_operand (id : NodeId) (i : Nat) : (operand id i).Still :=
  .bind (fun _ => rfl) fun _ => .bind (still_ofFault _) fun _ => still_canonical _

end Edit

/-- Nodes and canonical forms are the same. -/
structure Run.Mild (s s' : Run) : Prop where
  nodes : s'.draft.graph.nodes = s.draft.graph.nodes
  replaced : s.draft.replaced.Shortens s'.draft.replaced

theorem Run.Mild.refl (s : Run) : s.Mild s := ⟨rfl, .refl _⟩

theorem Run.Mild.trans {s s' s'' : Run} (h : s.Mild s') (h' : s'.Mild s'') : s.Mild s'' :=
  ⟨h'.nodes.trans h.nodes, h.replaced.trans h'.replaced⟩

namespace Engine.Plan

variable {α β : Type} {x y : Engine α}

theorem bind_eq_ok {f : α → Engine β} {s s' : Run} {b : β} (h : (x >>= f) s = .ok b s') :
    ∃ a s₁, x s = .ok a s₁ ∧ f a s₁ = .ok b s' := by
  change EStateM.bind x f s = .ok b s' at h
  unfold EStateM.bind at h
  cases hx : x s with
  | ok a s₁ =>
    rw [hx] at h
    exact ⟨a, s₁, rfl, h⟩
  | error e s₁ =>
    rw [hx] at h
    cases h

theorem ofEdit_eq_ok {x : Edit α} {s s' : Run} {a : α} (h : (liftM x : Engine α) s = .ok a s') :
    ∃ d, x.run s.draft = .ok a d ∧ s' = { s with draft := d } := by
  change Engine.ofEdit x s = .ok a s' at h
  cases s with | mk draft states worklist root visited =>
  simp only [Engine.ofEdit] at h
  cases hx : x.run draft with
  | ok b d =>
    rw [hx] at h
    cases h
    exact ⟨d, rfl, rfl⟩
  | error e d =>
    rw [hx] at h
    cases h

/-- An action that succeeds passes through the state it ends in. -/
theorem passes_of_ok (p : Plan x) {s s' : Run} {a : α} (h : x s = .ok a s') : p.Passes s s' := by
  induction p generalizing s s' with
  | edit x =>
    obtain ⟨d, hx, rfl⟩ := ofEdit_eq_ok h
    have hstop := Edit.Passes.stop x s.draft
    rw [hx] at hstop
    exact ⟨d, hstop, rfl⟩
  | get | pure => cases h; rfl
  | throw => cases h
  | update f | take f => cases h; exact .inr rfl
  | bind p q ihp ihq =>
    obtain ⟨b, s₁, hx, hf⟩ := bind_eq_ok h
    exact .inr ⟨b, s₁, hx, ihq b hf⟩

/-- All states that the action passes through are the same up to mild changes. -/
def Mild (p : Plan x) : Prop :=
  ∀ s s', p.Passes s s' → s.Mild s'

theorem mild_edit {x : Edit α} (hx : x.Still) : (Plan.edit x).Mild := by
  rintro s _ ⟨d, hd, rfl⟩
  obtain ⟨hg, hg'⟩ := hd.grows
  have hback := hg'.graph
  rw [hx] at hback
  have hsize : s.draft.graph.nodes.size = d.graph.nodes.size :=
    Nat.le_antisymm hg.graph.size_le hback.size_le
  refine ⟨Array.ext_getElem? fun i => ?_, hg.replaced⟩
  by_cases hi : i < s.draft.graph.nodes.size
  · exact hg.graph.getElem?_eq hi
  · rw [Array.getElem?_eq_none (show d.graph.nodes.size ≤ i by omega),
      Array.getElem?_eq_none (by omega)]

theorem mild_get : Plan.get.Mild := by
  rintro s _ rfl
  exact .refl _

theorem mild_pure (a : α) : (Plan.pure a).Mild := by
  rintro s _ rfl
  exact .refl _

theorem mild_throw (e : Error) : (Plan.throw e : Plan (MonadExcept.throw e : Engine α)).Mild := by
  rintro s _ rfl
  exact .refl _

theorem mild_update {f : Run → Run} (hf : ∀ s : Run, s.Mild (f s)) : (Plan.update f).Mild := by
  rintro s _ (rfl | rfl)
  · exact .refl _
  · exact hf s

theorem mild_take {f : Run → α × Run} (hf : ∀ s : Run, s.Mild (f s).2) : (Plan.take f).Mild := by
  rintro s _ (rfl | rfl)
  · exact .refl _
  · exact hf s

theorem mild_bind {f : α → Engine β} {p : Plan x} {q : ∀ a, Plan (f a)} (hp : p.Mild)
    (hq : ∀ a, (q a).Mild) : (Plan.bind p q).Mild := by
  rintro s s' (h | ⟨a, s₁, hx, h⟩)
  · exact hp s s' h
  · exact (hp s s₁ (p.passes_of_ok hx)).trans (hq a s₁ s' h)

theorem mild_ite {c : Prop} [inst : Decidable c] {p : Plan x} {q : Plan y} (hp : p.Mild)
    (hq : q.Mild) : (Plan.ite (c := c) p q).Mild := by
  cases inst with
  | isTrue h => exact hp
  | isFalse h => exact hq

theorem mild_forM {f : α → Engine PUnit} {p : ∀ a, Plan (f a)} (hp : ∀ a, (p a).Mild)
    (as : List α) : (Plan.forM p as).Mild := by
  induction as with
  | nil => exact mild_pure _
  | cons a as ih => exact mild_bind (hp a) fun _ => ih

theorem mild_foldlM {f : β → α → Engine β} {p : ∀ b a, Plan (f b a)} (hp : ∀ b a, (p b a).Mild)
    (as : List α) (b : β) : (Plan.foldlM p as b).Mild := by
  induction as generalizing b with
  | nil => exact mild_pure _
  | cons a as ih => exact mild_bind (hp b a) fun b => ih b

theorem mild_report (e : Event) : (Plan.report e).Mild := mild_edit (Edit.still_report e)

theorem mild_stateOf (id : NodeId) : (Plan.stateOf id).Mild :=
  mild_bind mild_get fun _ => mild_pure _

theorem mild_setState (id : NodeId) (state : NodeState) : (Plan.setState id state).Mild :=
  mild_update fun _ => ⟨rfl, .refl _⟩

theorem mild_push (id : NodeId) : (Plan.push id).Mild :=
  mild_bind (mild_report _) fun _ => mild_update fun _ => ⟨rfl, .refl _⟩

theorem mild_setPending (id : NodeId) (count : Nat) : (Plan.setPending id count).Mild :=
  mild_bind (mild_setState _ _) fun _ => mild_ite (mild_push _) (mild_pure _)

theorem mild_analyzeWithin (fuel : Nat) (id : NodeId) : (Plan.analyzeWithin fuel id).Mild := by
  induction fuel generalizing id with
  | zero => exact mild_throw _
  | succ fuel ih =>
    refine mild_bind (mild_stateOf _) fun _ => mild_ite ?_ (mild_pure _)
    refine mild_bind (mild_edit (Edit.still_node _)) fun n => mild_bind ?_ fun _ => mild_setPending _ _
    refine mild_foldlM (fun _ v => ?_) _ _
    exact mild_bind (mild_edit (Edit.still_canonical v)) fun _ => mild_bind (ih _) fun _ =>
      mild_bind (mild_stateOf _) fun _ => mild_pure _

theorem mild_analyze (id : NodeId) : (Plan.analyze id).Mild :=
  mild_bind mild_get fun _ => mild_analyzeWithin _ _

theorem mild_analyzeParts (parts : Parts) : (Plan.analyzeParts parts).Mild := by
  cases parts with
  | one w =>
    exact mild_bind (mild_edit (Edit.still_canonical _)) fun _ => mild_bind (mild_analyze _)
      fun _ => mild_pure _
  | two lo hi =>
    exact mild_bind (mild_edit (Edit.still_canonical _)) fun _ =>
      mild_bind (mild_edit (Edit.still_canonical _)) fun _ => mild_bind (mild_analyze _) fun _ =>
      mild_bind (mild_analyze _) fun _ => mild_pure _

theorem mild_record (kind : ConversionKind) (v : Value) (parts : Parts) :
    (Plan.record kind v parts).Mild :=
  mild_bind (mild_analyzeParts _) fun _ => mild_bind mild_get fun _ =>
    mild_bind (mild_edit (Edit.still_ofConversion _)) fun _ =>
    mild_bind (mild_update fun _ => ⟨rfl, .refl _⟩) fun _ => mild_report _

theorem mild_checkSizes (fits : Nat → Nat → Bool) (v w : Value) :
    (Plan.checkSizes fits v w).Mild :=
  mild_bind (mild_edit (Edit.still_typeOf _)) fun _ =>
    mild_bind (mild_edit (Edit.still_typeOf _)) fun _ => mild_ite (mild_throw _) (mild_pure _)

theorem mild_recordParts (a : Action) (v : Value) (parts : Parts) :
    (Plan.recordParts a v parts).Mild := by
  have checked (fits : Nat → Nat → Bool) (w : Value) :
      (Plan.bind (.checkSizes fits v w) fun _ => .record .promoted v (.one w)).Mild :=
    mild_bind (mild_checkSizes _ _ _) fun _ => mild_record _ _ _
  cases a with
  | legal => exact mild_pure _
  | promoteInteger | promoteFloat =>
    cases parts with
    | one w => exact checked _ w
    | two lo hi => exact mild_record _ _ _
  | expandInteger | expandFloat | scalarize | split => exact mild_record _ _ _

theorem mild_revisitUser (id : NodeId) : (Plan.revisitUser id).Mild := by
  refine mild_bind (mild_stateOf _) fun state => ?_
  cases state with
  | new => exact mild_pure _
  | pending k => exact mild_bind (mild_setState _ _) fun _ => mild_analyze _
  | ready | processed => exact mild_throw _

theorem mild_operandProcessed (id : NodeId) : (Plan.operandProcessed id).Mild := by
  refine mild_bind mild_get fun s => ?_
  generalize s.states.resolveOperand id = resolved
  cases resolved with
  | ok ready states =>
    exact mild_bind (mild_update fun _ => ⟨rfl, .refl _⟩) fun _ =>
      mild_ite (mild_push _) (mild_pure _)
  | unexpected | underflow => exact mild_throw _

theorem mild_finishNode (id : NodeId) : (Plan.finishNode id).Mild :=
  mild_bind (mild_setState _ _) fun _ => mild_bind mild_get fun _ =>
    mild_bind (mild_edit (Edit.still_ofFault _)) fun _ =>
    mild_forM (fun _ => mild_operandProcessed _) _

theorem mild_seed : Plan.seed.Mild :=
  mild_bind mild_get fun _ => mild_forM (fun _ => mild_setPending _ _) _

theorem mild_prepare (config : Config) : (Plan.prepare config).Mild :=
  mild_ite (mild_bind mild_get fun _ => mild_bind (mild_report _) fun _ => mild_seed) mild_seed

theorem mild_finish (T : Target) (config : Config) : (Plan.finish T config).Mild := by
  refine mild_bind mild_get fun s => ?_
  generalize s.conclude T config = graph
  cases graph with
  | error e => exact mild_throw _
  | ok graph =>
    exact mild_bind (mild_report _) fun _ =>
      mild_ite (mild_bind (mild_report _) fun _ => mild_pure _) (mild_pure _)

end Engine.Plan

end Dataflow.Legal
