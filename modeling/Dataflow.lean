import Dataflow.BitString
import Dataflow.Condition
import Dataflow.Datum
import Dataflow.Eval
import Dataflow.Eval.Error
import Dataflow.Eval.Float
import Dataflow.Fault
import Dataflow.Graph
import Dataflow.Graph.Live
import Dataflow.Graph.Text
import Dataflow.Hex
import Dataflow.Instr
import Dataflow.Json
import Dataflow.Legal.Action
import Dataflow.Legal.Conversion
import Dataflow.Legal.Conversion.Tables
import Dataflow.Legal.DoubleDouble
import Dataflow.Legal.Edit
import Dataflow.Legal.Error
import Dataflow.Legal.Event
import Dataflow.Legal.Halve.Arithmetic
import Dataflow.Legal.Halve.Division
import Dataflow.Legal.Halve.Reinterpret
import Dataflow.Legal.Halve.Shift
import Dataflow.Legal.Output
import Dataflow.Legal.Replacement
import Dataflow.Legal.Resize
import Dataflow.Legal.Rules
import Dataflow.Legal.Run
import Dataflow.Legal.Scalarize
import Dataflow.Legal.Schedule
import Dataflow.Legal.Soften
import Dataflow.Legal.Split.Lanes
import Dataflow.Legal.Split.Reinterpret
import Dataflow.Legal.Split.Shuffle
import Dataflow.Legal.Widen
import Dataflow.Node
import Dataflow.Opcode
import Dataflow.Target
import Dataflow.Target.Description
import Dataflow.ValueType
import Dataflow.Word
import Dataflow.Proofs.Arena
import Dataflow.Proofs.Flow
import Dataflow.Proofs.Flow.Rules
import Dataflow.Proofs.Canonical
import Dataflow.Proofs.Resolution
import Dataflow.Proofs.Analysis
import Dataflow.Proofs.Schedule
import Dataflow.Proofs.Order
import Dataflow.Proofs.Visit
import Dataflow.Proofs.Step
import Dataflow.Proofs.Live
import Dataflow.Proofs.PostOrder
import Dataflow.Proofs.Heads
import Dataflow.Proofs.Passage
import Dataflow.Proofs.Scheduler
import Dataflow.Proofs.Frame
import Dataflow.Proofs.Legality
import Dataflow.Proofs.Typing
import Dataflow.Proofs.Liberties
import Dataflow.Proofs.Burden
import Dataflow.Proofs.Registers
import Dataflow.Proofs.Data
import Dataflow.Proofs.Words
import Dataflow.Proofs.Integers
import Dataflow.Proofs.Meaning
import Dataflow.Proofs.Widths
import Dataflow.Proofs.Halves
import Dataflow.Proofs.EditSpec
import Dataflow.Proofs.RuleSpec
import Dataflow.Proofs.RewriteSpec
import Dataflow.Proofs.WordLogic
import Dataflow.Proofs.Requests
import Dataflow.Proofs.Resizing
import Dataflow.Proofs.Rules.Outcome
import Dataflow.Proofs.Rules.Leaves
import Dataflow.Proofs.Rules.Output
import Dataflow.Proofs.Rules.Widen
import Dataflow.Proofs.Rules.Soften
import Dataflow.Proofs.Rules.DoubleDouble
import Dataflow.Proofs.Rules.Scalarize
import Dataflow.Proofs.Rules.Halve.Limbs
import Dataflow.Proofs.Rules.Halve.Counts
import Dataflow.Proofs.Rules.Halve.Arithmetic
import Dataflow.Proofs.Rules.Halve.Shift
import Dataflow.Proofs.Rules.Halve.LongDivision
import Dataflow.Proofs.Rules.Halve.Division
import Dataflow.Proofs.Rules.Halve.Reinterpret
import Dataflow.Proofs.Rules.Split.Lanes
import Dataflow.Proofs.Rules.Split.Reinterpret
import Dataflow.Proofs.Rules.Split.Shuffle
import Dataflow.Proofs.Rules.Dispatch
import Dataflow.Proofs.Drafts
import Dataflow.Proofs.Tables
import Dataflow.Proofs.Conversions
import Dataflow.Proofs.Acyclic
import Dataflow.Proofs.Isomorphism
import Dataflow.Proofs.Evaluation
import Dataflow.Proofs.Extraction
import Dataflow.Proofs.FixedPoint
import Dataflow.Proofs.Termination
import Dataflow.Proofs.Totality
import Dataflow.Proofs.Definedness
import Dataflow.Proofs.Safety
import Dataflow.Proofs.Success
import Dataflow.Proofs.Models
import Dataflow.Proofs.Literals
import Dataflow.Proofs.Determination
import Dataflow.Proofs.Existence
import Dataflow.Proofs.Preservation
import Dataflow.Proofs.Chaining
import Dataflow.Proofs.Faults
import Dataflow.Proofs.IsolatedRun
import Dataflow.Proofs.WideArithmetic
import Dataflow.Proofs.ReadyDraft
import Dataflow.Proofs.Shuffles
import Dataflow.Proofs.Reinterpretation
import Dataflow.Proofs.Observation
import Dataflow.Proofs.Promotion
import Dataflow.Proofs.LaneHalves
import Dataflow.Proofs.Layout
import Dataflow.Proofs.LiberalCode
