import RegularLanguages.Graph.Basic

/-!
Graphs as Graphviz text. Final states have a double border, and an arrow from an invisible node points
at each start state.
-/
namespace RegularLanguages

namespace Graph

def escapeLabel (c : Char) : List Char :=
  if c = '\\' then ['\\', '\\'] else if c = '"' then ['\\', '"'] else [c]

def quoted (label : String) : String :=
  "\"" ++ String.ofList (label.toList.flatMap escapeLabel) ++ "\""

/-- The lines of a node: the node itself and, for a start state, its arrow. -/
def dotNode (n : GraphNode) : String :=
  let id := toString n.id
  let border := if n.isFinal then "2" else "1"
  "    " ++ id ++ " [label=" ++ quoted n.label ++ ", peripheries=" ++ border ++ "];\n" ++
    if n.isStart then
      "    starting_" ++ id ++ " [label=\"\", shape=none, height=0, width=0];\n" ++
        "    starting_" ++ id ++ " -> " ++ id ++ ";\n"
    else ""

/-- The line of an edge. An edge without a label shows the letter epsilon. -/
def dotEdge (e : GraphEdge) : String :=
  "    " ++ toString e.source ++ " -> " ++ toString e.target ++ " [label=" ++
    quoted (e.label.getD "ε") ++ "];\n"

def toDot (G : Graph) : String :=
  "digraph \x7b\n" ++ String.join (G.nodes.map dotNode) ++ String.join (G.edges.map dotEdge) ++
    "\x7d\n"

end Graph

end RegularLanguages
