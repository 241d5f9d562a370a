import RegularLanguages.Automaton.Basic

/-!
Automata as labelled graphs, for drawing.
-/
namespace RegularLanguages

structure GraphNode where
  id : Nat
  label : String
  isStart : Bool
  isFinal : Bool
  deriving DecidableEq

/-- An edge; without a label it stands for an epsilon transition. -/
structure GraphEdge where
  source : Nat
  target : Nat
  label : Option String
  deriving DecidableEq

structure Graph where
  nodes : List GraphNode
  edges : List GraphEdge
  deriving DecidableEq

namespace Automaton

def graphEdge (t : State × Label String × State) : GraphEdge :=
  match t.2.1 with
  | .epsilon => ⟨t.1, t.2.2, none⟩
  | .symbol name => ⟨t.1, t.2.2, some name⟩

def toGraph (A : Automaton) : Graph where
  nodes := (List.range A.numStates).map fun q =>
    ⟨q, A.stateName q, A.starts.contains q, A.finals.contains q⟩
  edges := A.labelledTransitions.map graphEdge

end Automaton

end RegularLanguages
