import RegularLanguages.Automaton.Algebra
import RegularLanguages.Automaton.Determinization

/-!
Intersection, complement and difference. Intersection pairs the states of two automata: the pair of
`p` and `q` has the number `p * m + q`, where `m` is the number of states of the second.
-/
namespace RegularLanguages.Automaton

def commonNames (A B : Automaton) : List String := A.alphabet.names.filter B.alphabet.contains

/-- Combines every element of one list with every element of another, in the order of the pairs. -/
def pairs {α β γ : Type} (f : α → β → γ) (as : List α) (bs : List β) : List γ :=
  as.flatMap fun a => bs.map (f a)

def rowOn (A : Automaton) (names : List String) (q : State) : List (Option State) :=
  (names.map A.alphabet.idOf).map (A.next? q)

def rowsOn (A : Automaton) (names : List String) : List (List (Option State)) :=
  (List.range A.numStates).map (A.rowOn names)

/-- Where a pair leads, given where its states lead: to pairs, where both lead somewhere. -/
def pairRow (width : Nat) (left right : List (Option State)) : List (Option State) :=
  List.zipWith (fun p q => p.bind fun p => q.map fun q => p * width + q) left right

def stateNames (A : Automaton) : List String := (List.range A.numStates).map A.stateName

/-- The automaton of all pairs of states over the common symbols, final where both are. -/
def pairing (A B : Automaton) : Automaton :=
  let width := B.numStates
  let count := A.numStates * width
  let common := A.commonNames B
  { numStates := count
    starts := .ofList (pairs (fun p q => p * width + q) A.starts.toList B.starts.toList)
    finals := .below count fun pair =>
      A.finals.contains (pair / width) && B.finals.contains (pair % width)
    transitions := .ofRows (pairs (pairRow width) (A.rowsOn common) (B.rowsOn common))
    alphabet := .ofNames common
    names := .ofList (pairs (fun p q => "(" ++ p ++ "; " ++ q ++ ")") A.stateNames B.stateNames) }

def product (A B : Automaton) : Except Failure Automaton :=
  if A.numStates * B.numStates ≤ maxStates then .ok (A.pairing B) else .error .tooManyStates

/-- Fails unless the automaton is deterministic and total. -/
def requireTotal (A : Automaton) : Except Failure Unit :=
  if !A.isDeterministic then .error .notDeterministic
  else if !A.isTotal then .error .notTotal
  else .ok ()

def intersect (A B : Automaton) : Except Failure Automaton := do
  A.requireTotal
  B.requireTotal
  A.product B

def flipFinals (A : Automaton) : Automaton :=
  { A with finals := StateSet.full A.numStates \ A.finals }

/-- Accepts the words over the alphabet that the deterministic total automaton `A` rejects. -/
def complement (A : Automaton) : Except Failure Automaton := do
  A.requireTotal
  return A.flipFinals

/-- Accepts the words that `A` accepts and `B` does not. Both operands are made deterministic and total over
both alphabets first. -/
def difference (A B : Automaton) : Except Failure Automaton := do
  let left ← (A.widened B).determinize.complete
  let right ← (B.widened A).determinize.complete
  left.product right.flipFinals

end RegularLanguages.Automaton
