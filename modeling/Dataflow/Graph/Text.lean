import Dataflow.Graph
import Dataflow.Hex

/-!
# Text of a graph

One line per node, such as `t3: i1 = setcc<ult> t2, t0`. The line of the root ends in `; root`.
-/

namespace Dataflow

/-- The texts of a list with a separator between them. -/
def joined {α : Type} [ToString α] (separator : String) (xs : List α) : String :=
  separator.intercalate (xs.map toString)

def Attr.text : Attr → String
  | .none => ""
  | .imm bits => s!"<{Hex.text bits}>"
  | .cond c => s!"<{c.name}>"
  | .mask lanes => "<" ++ joined "," (lanes.map fun l => (l.map toString).getD "u") ++ ">"
  | .arg index offset => s!"<#{index}+{offset}>"
  | .widths ws => "<" ++ joined "," ws ++ ">"

def Node.text (id : NodeId) (n : Node) : String :=
  let results := if n.results.isEmpty then "" else ": " ++ joined "," n.results
  let operands := if n.operands.isEmpty then "" else " " ++ joined ", " n.operands
  s!"t{id}" ++ results ++ " = " ++ n.opcode.name ++ n.attr.text ++ operands

namespace Graph

/-- The line of node `id`, without its line end. -/
def line (g : Graph) (id : NodeId) (n : Node) : String :=
  n.text id ++ (if g.root = some id then "  ; root" else "")

/-- The lines of a graph, two blanks of indentation per level. -/
def lines (g : Graph) (indent : Nat) : List String :=
  let margin := String.ofList (List.replicate (2 * indent) ' ')
  g.nodes.toList.mapIdx fun id n => margin ++ g.line id n

/-- The lines of a graph, each with its line end. -/
def text (g : Graph) (indent : Nat) : String :=
  String.join ((g.lines indent).map (· ++ "\n"))

end Graph

end Dataflow
