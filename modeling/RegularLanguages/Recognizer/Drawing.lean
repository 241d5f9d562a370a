import RegularLanguages.Graph.Basic
import RegularLanguages.Recognizer.Basic

/-!
Drawing a recognizer: the calls that build its picture as a multigraph.
-/
namespace RegularLanguages

/-- A node of a picture, or an attribute. -/
inductive Datum (V : Type)
  | truth (b : Bool)
  | number (n : Nat)
  | text (s : String)
  | nothing
  /-- Zero as a floating-point number. -/
  | zero
  | value (v : V)

/-- One step of a drawing. Attributes have names. -/
inductive Drawing (V : Type)
  | addNode (node : Datum V) (attributes : List (String × Datum V))
  | addEdge (source target : Datum V) (attributes : List (String × Datum V))

namespace Drawing

variable {V : Type}

def ofNode (n : GraphNode) : List (Drawing V) :=
  let start := .text ("starting_" ++ toString n.id)
  addNode (.number n.id)
    [("is_start", .truth n.isStart), ("is_final", .truth n.isFinal),
      ("peripheries", .number (if n.isFinal then 2 else 1)), ("label", .text n.label)] ::
    if n.isStart then
      [addNode start [("label", .text ""), ("shape", .nothing), ("height", .zero), ("width", .zero)],
        addEdge start (.number n.id) []]
    else []

/-- The value registered for a symbol, or else its name; for an epsilon edge the letter epsilon. -/
def labelOf (R : Recognizer V) : Option String → Datum V
  | none => .text "ε"
  | some name => ((R.symbols.lookup name).map .value).getD (.text name)

def ofEdge (R : Recognizer V) (e : GraphEdge) : Drawing V :=
  addEdge (.number e.source) (.number e.target) [("label", labelOf R e.label)]

/-- The steps that draw a recognizer: its states in order and then its transitions. -/
def ofRecognizer (R : Recognizer V) : List (Drawing V) :=
  let G := R.automaton.toGraph
  G.nodes.flatMap ofNode ++ G.edges.map (ofEdge R)

end Drawing

end RegularLanguages
