import Dataflow.Graph.Live
import Dataflow.Graph.Text
import Dataflow.Legal.Rules

/-!
# Legalization runs

A node is visited once all of its operands are processed. Its results of illegal types are
converted; a node with legal results gets a successor for its first illegal operand. New nodes are
analysed and visited in turn, the last queued one first, until nothing is queued.
-/

namespace Dataflow.Legal

structure Config where
  /-- Check the result. -/
  verify : Bool := true
  /-- Report the graph before and after. -/
  dumpGraphs : Bool := false
  deriving DecidableEq, Repr, Inhabited

structure Run where
  draft : Draft
  states : States := {}
  /-- The ready nodes, the last queued one first. -/
  worklist : List NodeId := []
  root : NodeId
  /-- Number of nodes visited. -/
  visited : Nat := 0
  deriving Inhabited

/-- The result of a run and its counters. -/
structure Outcome where
  graph : Graph
  visited : Nat
  created : Nat
  deriving Inhabited

def Outcome.live (o : Outcome) : Nat :=
  o.graph.size

/-- A run over a copy of the live part of a graph. -/
def Run.start (g : Graph) : Except Error Run :=
  match g.root with
  | none => .error .noRoot
  | some root =>
    match g.live .ok root with
    | .error f => .error (.fault f)
    | .ok live => .ok { draft := { graph := live }, root := live.root.getD 0 }

abbrev Engine := EStateM Error Run

namespace Engine

/-- Does an edit inside a run. -/
def ofEdit {α : Type} (x : Edit α) : Engine α := fun s =>
  let ⟨draft, states, worklist, root, visited⟩ := s
  match x.run draft with
  | .ok a draft => .ok a ⟨draft, states, worklist, root, visited⟩
  | .error e draft => .error e ⟨draft, states, worklist, root, visited⟩

instance : MonadLift Edit Engine := ⟨ofEdit⟩

def report (e : Event) : Engine Unit := Edit.report e

def stateOf (id : NodeId) : Engine NodeState := do
  return (← get).states.get id

def setState (id : NodeId) (state : NodeState) : Engine Unit :=
  modify fun s => { s with states := s.states.set id state }

/-- Queues a ready node. -/
def push (id : NodeId) : Engine Unit := do
  report (.queued id)
  modify fun s => { s with worklist := id :: s.worklist }

/-- Sets the state of a node with `count` unprocessed operand edges, and queues it if there are
none. -/
def setPending (id : NodeId) (count : Nat) : Engine Unit := do
  setState id (.ofPending count)
  if count = 0 then push id

/-! ### Analysis -/

/-- Gives a new node and the new nodes it reads their states, operands first. Nodes that have a
state keep it. -/
def analyzeWithin : Nat → NodeId → Engine Unit
  | 0, _ => throw (.fault .cyclic)
  | fuel + 1, id => do
    if (← stateOf id) = .new then
      let operands := (← Edit.node id).operands
      let count ← operands.foldlM (fun count v => do
        let v ← Edit.canonical v
        analyzeWithin fuel v.node
        return if (← stateOf v.node) = .processed then count else count + 1) 0
      setPending id count

/-- Gives a new node its state. Edges run in no circle, so the size of the graph bounds the
descent. -/
def analyze (id : NodeId) : Engine Unit := do
  analyzeWithin ((← get).draft.graph.size + 1) id

/-- Counts the edges of a node again. -/
def reanalyze (id : NodeId) : Engine Unit := do
  setState id .new
  analyze id

/-! ### Conversions -/

/-- The canonical forms of parts, analysed. -/
def analyzeParts : Parts → Engine Parts
  | .one w => do
    let w ← Edit.canonical w
    analyze w.node
    return .one w
  | .two lo hi => do
    let lo ← Edit.canonical lo
    let hi ← Edit.canonical hi
    analyze lo.node
    analyze hi.node
    return .two lo hi

/-- Records the parts of a value. -/
def record (kind : ConversionKind) (v : Value) (parts : Parts) : Engine Unit := do
  let parts ← analyzeParts parts
  let conversions ← ((← get).draft.conversions.insert kind v parts : Edit Conversions)
  modify fun s => { s with draft := { s.draft with conversions } }
  report (.recorded v ⟨kind, parts⟩)

/-- The sizes of a value and its carrier are in the given relation. -/
def checkSizes (fits : Nat → Nat → Bool) (v w : Value) : Engine Unit := do
  let carrier ← Edit.typeOf w
  let t ← Edit.typeOf v
  if !fits t.bits carrier.bits then throw (.fault .badPromotion)

/-- A promoted integer gets a wider carrier. -/
def recordPromotedInteger (v w : Value) : Engine Unit := do
  checkSizes (· < ·) v w
  record .promoted v (.one w)

/-- A promoted float gets a carrier of its width. -/
def recordPromotedFloat (v w : Value) : Engine Unit := do
  checkSizes (· = ·) v w
  record .promoted v (.one w)

/-- Records what an action made of a value. -/
def recordParts (a : Action) (v : Value) (parts : Parts) : Engine Unit :=
  match a, parts with
  | .legal, _ => pure ()
  | .promoteInteger, .one w => recordPromotedInteger v w
  | .promoteFloat, .one w => recordPromotedFloat v w
  | .promoteInteger, parts | .promoteFloat, parts => record .promoted v parts
  | .expandInteger, parts => record .expandedInteger v parts
  | .expandFloat, parts => record .expandedFloat v parts
  | .scalarize, parts => record .scalarized v parts
  | .split, parts => record .split v parts

/-! ### Replacement -/

/-- Moves the edges that read `v` to `w`. -/
def moveUses (v w : Value) : Engine (Array Use) :=
  modifyGet fun s =>
    let (moved, graph) := s.draft.graph.moveUses v w
    (moved, { s with draft := { s.draft with graph } })

/-- Counts the edges of a user whose operand was replaced. -/
def revisitUser (id : NodeId) : Engine Unit := do
  match ← stateOf id with
  | .new => pure ()
  | .pending _ => reanalyze id
  | state => throw (.invalidState id state .pendingOrNewUser)

/-- Redirects `v` to `w` and drops what was recorded for `v`. Yields the edges that moved. -/
def redirect (v w : Value) : Engine (Array Use) := do
  let d := (← get).draft
  let (dropped, conversions) := d.conversions.erase v
  let (forgotten, replaced) := d.replaced.erase v
  let replaced ← (replaced.redirect v w : Edit Replacements)
  modify fun s => { s with draft := { s.draft with conversions, replaced } }
  let moved ← moveUses v w
  report (.replaced v w moved.size (dropped + forgotten.toNat))
  return moved

/-- Makes `w` the canonical form of `v`. The edges that read `v` move, and their users are analysed
again. -/
def replaceValue (v w : Value) : Engine Unit := do
  let w ← Edit.canonical w
  if v = w then return
  if v.node = w.node then throw (.fault .selfReplacement)
  analyze w.node
  let moved ← redirect v w
  (moved.toList.map (·.user)).eraseDups.forM revisitUser

/-- Replaces every result of node `old` by the same result of `new`. -/
def replaceNode (old new : NodeId) : Engine Unit := do
  let results := (← Edit.node old).results.length
  if results ≠ (← Edit.node new).results.length then throw (.fault .noSuchResult)
  (List.range results).forM fun slot => replaceValue ⟨old, slot⟩ ⟨new, slot⟩
  analyze new
  if (← get).root = old then
    report (.rootMoved old new)
    modify fun s => { s with root := new }

/-! ### Visits -/

/-- Converts a result of an illegal type. -/
def convertResult (T : Target) (id : NodeId) (op : Opcode) (slot : Nat) (t : ValueType) :
    Engine Unit := do
  let action := T.classify t
  report (.result id op t action)
  match resultRule? action op with
  | none => throw (.noResultRule action op id)
  | some rule => recordParts action ⟨id, slot⟩ (← rule T id slot)

/-- Converts the results of illegal types from `slot` on, and tells whether there are any. -/
def convertResults (T : Target) (id : NodeId) (op : Opcode) : Nat → List ValueType → Engine Bool
  | _, [] => pure false
  | slot, t :: ts => do
    if T.classify t = .legal then convertResults T id op (slot + 1) ts
    else
      convertResult T id op slot t
      let _ ← convertResults T id op (slot + 1) ts
      return true

/-- Puts a successor in the place of a node. -/
def succeed (id : NodeId) (op : Opcode) : Successor → Engine Unit
  | .node new => if new = id then pure () else replaceNode id new
  | .value v => do
    if (← Edit.node id).results.length ≠ 1 then
      throw (.unsupported op id .valueForManyResults)
    replaceValue ⟨id, 0⟩ v

/-- Puts a successor in the place of a node for its first illegal operand. The successor is visited
for the others. -/
def reviseOperand (T : Target) (id : NodeId) (op : Opcode) : List Nat → Engine Unit
  | [] => pure ()
  | i :: rest => do
    let t ← Edit.typeOf (← Edit.operand id i)
    let action := T.classify t
    if action = .legal then reviseOperand T id op rest
    else
      report (.operand id op i t action)
      match operandRule? action op with
      | none => throw (.noOperandRule action op id i)
      | some rule => succeed id op (← rule T id i)

/-- Makes a node legal whose operands are processed. -/
def visit (T : Target) (id : NodeId) : Engine Unit := do
  let n ← Edit.node id
  if ← convertResults T id n.opcode 0 n.results then return
  reviseOperand T id n.opcode (List.range n.operands.length)

/-- An edge of `id` reads a node that was just processed. -/
def operandProcessed (id : NodeId) : Engine Unit := do
  match (← get).states.resolveOperand id with
  | .ok ready states =>
    modify fun s => { s with states }
    if ready then push id
  | .unexpected state => throw (.invalidState id state .pendingUser)
  | .underflow => throw (.fault .overflow)

/-- Marks a node processed and tells its users, one edge after the other. -/
def finishNode (id : NodeId) : Engine Unit := do
  setState id .processed
  let uses ← ((← get).draft.graph.usesOf id : Edit (Array Use))
  uses.toList.forM fun u => operandProcessed u.user

/-- Visits one node. -/
def step (T : Target) (id : NodeId) : Engine Unit := do
  let state ← stateOf id
  if state ≠ .ready then throw (.invalidState id state .ready)
  modify fun s => { s with visited := s.visited + 1 }
  visit T id
  finishNode id

/-- Visits queued nodes until there are none, at most `fuel` of them. -/
def loop (T : Target) : Nat → Engine Unit
  | 0 => do if !(← get).worklist.isEmpty then throw .exhausted
  | fuel + 1 => do
    match (← get).worklist with
    | [] => pure ()
    | id :: rest =>
      modify fun s => { s with worklist := rest }
      step T id
      loop T fuel

/-- Makes every node pending on each of its operand edges; leaves are queued. -/
def seed : Engine Unit := do
  let counts := (← get).draft.graph.nodes.toList.map (·.operands.length)
  (counts.zipIdx).forM fun (count, id) => setPending id count

end Engine

namespace Run

/-- Every node that `stack` reaches and that is not in `seen` is processed and legal. -/
def checkFrom (s : Run) (T : Target) : Nat → List NodeId → Array Bool → Except Error Unit
  | 0, _, _ => .ok ()
  | _ + 1, [], _ => .ok ()
  | fuel + 1, id :: stack, seen =>
    if seen[id]?.getD false then s.checkFrom T fuel stack seen
    else if !s.states.isProcessed id then .error (.unprocessed id)
    else
      match s.draft.graph.node id with
      | .error f => .error (.fault f)
      | .ok n =>
        match n.results.find? fun t => T.classify t ≠ .legal with
        | some t => .error (.illegalType id n.opcode t)
        | none =>
          match n.operands.mapM s.draft.replaced.follow with
          | .error f => .error (.fault f)
          | .ok operands =>
            s.checkFrom T fuel ((operands.map (·.node)).reverse ++ stack)
              (seen.setIfInBounds id true)

/-- Every live node is processed and legal. Each node is entered once, and each edge asks for one
more look. -/
def check (s : Run) (T : Target) : Except Error Unit :=
  let g := s.draft.graph
  s.checkFrom T (g.size + g.edges + 2) [s.root] (Array.replicate g.size false)

/-- The live part of the graph. -/
def result (s : Run) : Except Fault Graph :=
  s.draft.graph.live s.draft.replaced.follow s.root

/-- The result, checked where that is asked for. -/
def conclude (s : Run) (T : Target) (config : Config) : Except Error Graph := do
  if config.verify then s.check T
  s.result.mapError .fault

end Run

namespace Engine

/-- Ends a run whose worklist is empty. -/
def finish (T : Target) (config : Config) : Engine Outcome := do
  let s ← get
  match s.conclude T config with
  | .error e => throw e
  | .ok graph =>
    let outcome : Outcome := ⟨graph, s.visited, s.draft.created⟩
    report (.finished T.name outcome.visited outcome.created outcome.live)
    if config.dumpGraphs then report (.after (graph.text 1))
    return outcome

/-- Brings a run to the first head of the loop. -/
def prepare (config : Config) : Engine Unit := do
  if config.dumpGraphs then report (.before ((← get).draft.graph.text 1))
  seed

/-- Runs to the end, with at most `fuel` visits. -/
def run (T : Target) (config : Config) (fuel : Nat) : Engine Outcome := do
  prepare config
  loop T fuel
  finish T config

end Engine

/-- A graph made legal for a target, with at most `fuel` visits. -/
def legalize (T : Target) (config : Config) (fuel : Nat) (g : Graph) : Except Error Graph := do
  let s ← Run.start g
  match Engine.run T config fuel s with
  | .ok outcome _ => return outcome.graph
  | .error e _ => throw e

end Dataflow.Legal
