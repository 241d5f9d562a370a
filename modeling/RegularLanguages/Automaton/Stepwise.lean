import RegularLanguages.Automaton.Product
import RegularLanguages.Automaton.Registration

/-!
Union, concatenation, star and product one registration after another. Every number of a state is computed where it is
needed, and every computed number is shown, with what it stands for, to a check that can end the computation.
-/
namespace RegularLanguages.Automaton

def Registration.outcome {α : Type} (r : Registration α) : Except Failure Automaton :=
  r.answer.map fun _ => r.automaton

/-- What a state of a combination stands for: a state of the first operand, one of the second, or the `k`th new one. -/
inductive Origin
  | left (q : State)
  | right (q : State)
  | fresh (k : Nat)

/-- A computed number, with what it stands for. -/
structure Computed (α : Type) where
  origin : α
  number : Nat

def Computed.check {α : Type} (accept : α → Nat → Bool) (c : Computed α) : Except Failure State :=
  if accept c.origin c.number then .ok c.number else .error .counterOverflow

section
variable {α : Type} (accept : α → Nat → Bool)

def addStarts (A : Automaton) (states : List (Computed α)) : Except Failure Automaton :=
  states.foldlM (fun A c => do (A.addStart (← c.check accept)).outcome) A

def addFinals (A : Automaton) (states : List (Computed α)) : Except Failure Automaton :=
  states.foldlM (fun A c => do (A.addFinal (← c.check accept)).outcome) A

def addLinks (A : Automaton) (sources targets : List (Computed α)) : Except Failure Automaton :=
  (pairs Prod.mk sources targets).foldlM (fun A e => do
    (A.addTransition (← e.1.check accept) .epsilon (← e.2.check accept)).outcome) A

def grow (A : Automaton) (count : Nat) : Except Failure Automaton :=
  if A.numStates + count ≤ maxStates then .ok { A with numStates := A.numStates + count }
  else .error .counterOverflow

def copyNames (copy : State → Computed α) (R : Automaton) (names : List (State × String)) : Except Failure Automaton :=
  names.foldlM (fun R e => do return { R with names := R.names.set (← (copy e.1).check accept) e.2 }) R

def copyTransitions (copy : State → Computed α) (relabel : Label SymbolId → Label SymbolId) (R : Automaton)
    (transitions : List Transition) : Except Failure Automaton :=
  transitions.foldlM (fun R t => do
    let source ← (copy t.source).check accept
    let target ← (copy t.target).check accept
    return { R with transitions := R.transitions.add source (relabel t.label) target }) R

/-- Copies the states of `A` behind those of `R`, then their names and then the transitions, one after another. -/
def embedSteps (copy : State → Computed α) (R A : Automaton) : Except Failure Automaton := do
  let R ← R.grow A.numStates
  let R ← copyNames accept copy R (A.names.below A.numStates)
  let alphabet := R.alphabet.internAll A.alphabet.names
  copyTransitions accept copy (A.relabel alphabet) { R with alphabet := alphabet } A.transitions.toList

end

def leftCopy (offset : Nat) (q : State) : Computed Origin := ⟨.left q, offset + q⟩

def rightCopy (offset : Nat) (q : State) : Computed Origin := ⟨.right q, offset + q⟩

section
variable (accept : Origin → Nat → Bool)

/-- Copies of both operands, and where the second one begins. -/
def sideBySideSteps (A B : Automaton) : Except Failure (Automaton × Nat) := do
  let R ← embedSteps accept (leftCopy (∅ : Automaton).numStates) ∅ A
  let offset := R.numStates
  return (← embedSteps accept (rightCopy offset) R B, offset)

def unionSteps (A B : Automaton) : Except Failure Automaton := do
  let left := leftCopy (∅ : Automaton).numStates
  let (R, offset) ← sideBySideSteps accept A B
  let right := rightCopy offset
  let start : Computed Origin := ⟨.fresh 0, R.numStates⟩
  let R ← R.addState.outcome
  let R ← R.addStarts accept [start]
  let R ← R.addLinks accept [start] (A.starts.toList.map left)
  let R ← R.addLinks accept [start] (B.starts.toList.map right)
  let R ← R.addFinals accept (A.finals.toList.map left)
  R.addFinals accept (B.finals.toList.map right)

def concatenateSteps (A B : Automaton) : Except Failure Automaton := do
  let left := leftCopy (∅ : Automaton).numStates
  let (R, offset) ← sideBySideSteps accept A B
  let right := rightCopy offset
  let R ← R.addStarts accept (A.starts.toList.map left)
  let R ← R.addLinks accept (A.finals.toList.map left) (B.starts.toList.map right)
  let R ← R.addFinals accept (B.finals.toList.map right)
  if B.accepts [] then R.addFinals accept (A.finals.toList.map left) else return R

def kleeneStarSteps (A : Automaton) : Except Failure Automaton := do
  let left := leftCopy (∅ : Automaton).numStates
  let R ← embedSteps accept left ∅ A
  let start : Computed Origin := ⟨.fresh 0, R.numStates⟩
  let R ← R.addState.outcome
  let finish : Computed Origin := ⟨.fresh 1, R.numStates⟩
  let R ← R.addState.outcome
  let R ← R.addStarts accept [start]
  let R ← R.addFinals accept [finish]
  let R ← R.addLinks accept [start] (finish :: A.starts.toList.map left)
  R.addLinks accept (A.finals.toList.map left) (A.starts.toList.map left ++ [finish])

end

section
variable (accept : State × State → Nat → Bool)

/-- A pair of states, by rows of the second automaton. The product on the way to its number is not above the number. -/
def pairOf (width : Nat) (p q : State) : Computed (State × State) := ⟨(p, q), p * width + q⟩

/-- Adds the transitions of one pair, which has a number already, on some common symbols. -/
def linkPair (A B R : Automaton) (pair : State × State) (number : State) (names : List String) :
    Except Failure Automaton :=
  names.foldlM (fun R name =>
    match A.next? pair.1 (A.alphabet.idOf name), B.next? pair.2 (B.alphabet.idOf name) with
    | some p, some q => do
      (R.addTransition number (.symbol name) (← (pairOf B.numStates p q).check accept)).outcome
    | _, _ => .ok R) R

def visitPair (A B R : Automaton) (pair : State × State) : Except Failure Automaton := do
  let state := pairOf B.numStates pair.1 pair.2
  let number ← state.check accept
  let name := "(" ++ A.stateName pair.1 ++ "; " ++ B.stateName pair.2 ++ ")"
  let final := A.finals.contains pair.1 && B.finals.contains pair.2
  let R ← { R with names := R.names.set number name }.addFinals accept (if final then [state] else [])
  linkPair accept A B R pair number (A.commonNames B)

def productSteps (A B : Automaton) : Except Failure Automaton := do
  let count := A.numStates * B.numStates
  if maxStates < count then throw .tooManyStates
  let R := { withAlphabet (.ofNames (A.commonNames B)) with numStates := count }
  let R ← (pairs Prod.mk (List.range A.numStates) (List.range B.numStates)).foldlM (visitPair accept A B) R
  R.addStarts accept (pairs (pairOf B.numStates) A.starts.toList B.starts.toList)

end

end RegularLanguages.Automaton
