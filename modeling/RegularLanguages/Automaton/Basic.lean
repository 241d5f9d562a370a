import RegularLanguages.StateNames
import RegularLanguages.Transitions

/-!
Finite automata. One type holds deterministic and nondeterministic automata, with or without epsilon
edges; to be deterministic or total is a property that is checked.
-/
namespace RegularLanguages

/-- A finite automaton over named symbols, with states `0, …, numStates - 1`. -/
structure Automaton where
  numStates : Nat
  starts : StateSet
  finals : StateSet
  transitions : Transitions
  alphabet : Alphabet
  names : StateNames

namespace Automaton

def withAlphabet (alphabet : Alphabet) : Automaton := ⟨0, ∅, ∅, ∅, alphabet, ∅⟩

instance : EmptyCollection Automaton := ⟨withAlphabet ∅⟩

instance : Inhabited Automaton := ⟨∅⟩

/-- The name of a state, or else its number. -/
def stateName (A : Automaton) (q : State) : String := A.names.display q

def compositeName (A : Automaton) (states : List State) : String :=
  "\x7b" ++ ", ".intercalate (states.map A.stateName) ++ "\x7d"

def findState? (A : Automaton) (name : String) : Option State := A.names.owner? name

def labelId? (A : Automaton) : Label String → Option (Label SymbolId)
  | .epsilon => some .epsilon
  | .symbol name => (A.alphabet.id? name).map .symbol

/-- The transitions with the names of their labels, but for those whose label has no name. -/
def labelledTransitions (A : Automaton) : List (State × Label String × State) :=
  A.transitions.toList.filterMap fun t => (A.alphabet.resolve t.label).map fun l => (t.source, l, t.target)

def targets (A : Automaton) (q : State) (label : Label String) : StateSet :=
  match A.labelId? label with
  | some l => A.transitions.targets q l
  | none => ∅

/-- The least target under a symbol: in a deterministic automaton, the only one. -/
def next? (A : Automaton) (q : State) (a : SymbolId) : Option State :=
  (A.transitions.get? q (.symbol a)).bind StateSet.first?

def nextByName? (A : Automaton) (q : State) (name : String) : Option State :=
  (A.alphabet.id? name).bind (A.next? q)

def knows (A : Automaton) : Label SymbolId → Bool
  | .epsilon => true
  | .symbol a => decide (a < A.alphabet.size)

/-- Whether `p` holds of all numbers below the given one, tried from the top. -/
def allBelow (p : Nat → Bool) : Nat → Bool
  | 0 => true
  | n + 1 => p n && allBelow p n

/-- One start state, no epsilon edge, and at most one target for each state and symbol. -/
def isDeterministic (A : Automaton) : Bool :=
  A.starts.card == 1 && A.transitions.isDeterministic

def isTotal (A : Automaton) : Bool :=
  A.isDeterministic && A.alphabet.ids.all fun a =>
    allBelow (fun q => (A.transitions.get? q (.symbol a)).isSome) A.numStates

end Automaton

end RegularLanguages
