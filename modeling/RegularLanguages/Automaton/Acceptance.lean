import RegularLanguages.Automaton.Basic
import RegularLanguages.Failure
import RegularLanguages.Search

/-!
Reading words: epsilon closures, moves on symbols, and acceptance.
-/
namespace RegularLanguages.Automaton

/-- The states reached from `S` by epsilon edges alone. Members that are no states stay members. -/
def closure (A : Automaton) (S : StateSet) : StateSet :=
  S.saturate (fun q => A.transitions.targets q .epsilon) (A.transitions.width + 1)

def edgesOn (A : Automaton) (S : StateSet) (a : SymbolId) : StateSet :=
  S.image fun q => A.transitions.targets q (.symbol a)

/-- The states reached from `S` by reading the symbol `a` once and then any number of epsilon edges. -/
def move (A : Automaton) (S : StateSet) (a : SymbolId) : StateSet := A.closure (A.edgesOn S a)

def moveOn (A : Automaton) (S : StateSet) : Label SymbolId → Except Failure StateSet
  | .epsilon => .error .epsilonMove
  | .symbol a => .ok (A.move S a)

/-- `move` for a symbol name. No state is reached on a name outside the alphabet. -/
def read (A : Automaton) (S : StateSet) (name : String) : StateSet :=
  match A.alphabet.id? name with
  | some a => A.move S a
  | none => ∅

def configuration (A : Automaton) (word : List String) : StateSet :=
  word.foldl A.read (A.closure A.starts)

def accepts (A : Automaton) (word : List String) : Bool := (A.configuration word).meets A.finals

end RegularLanguages.Automaton
