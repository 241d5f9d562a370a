import RegularLanguages.Automaton.Algebra
import RegularLanguages.Automaton.Determinization
import RegularLanguages.Automaton.Minimization

/-!
Equality of languages, decided by pairing the states of two minimal automata.
-/
namespace RegularLanguages

/-- Pairs of states of two automata that the same words lead to. Every state found has one partner. -/
structure Pairing where
  /-- The pairs, in the order in which they were found. -/
  found : Array (State × State)
  /-- The number of pairs expanded so far, the earliest first. -/
  expanded : Nat
  /-- The partner of each state of the first automaton. -/
  forward : Std.ExtTreeMap Nat State
  /-- The partner of each state of the second automaton. -/
  backward : Std.ExtTreeMap Nat State

namespace Pairing

def start (p q : State) : Pairing :=
  ⟨#[(p, q)], 0, (∅ : Std.ExtTreeMap Nat State).insert p q, (∅ : Std.ExtTreeMap Nat State).insert q p⟩

/-- Adds a pair if it is new; none if one of its states has another partner. -/
def visit? (P : Pairing) (p q : State) : Option Pairing :=
  match P.forward[p]?, P.backward[q]? with
  | none, none => some { P with
      found := P.found.push (p, q)
      forward := P.forward.insert p q
      backward := P.backward.insert q p }
  | some q', some p' => if q' = q ∧ p' = p then some P else none
  | _, _ => none

/-- Adds the pairs of targets from left to right; none if a target is missing on one side alone. -/
def visitAll? : Pairing → List (Option State × Option State) → Option Pairing
  | P, [] => some P
  | P, (none, none) :: rest => visitAll? P rest
  | P, (some p, some q) :: rest => (P.visit? p q).bind fun Q => visitAll? Q rest
  | _, _ :: _ => none

end Pairing

namespace Automaton

def jointTargets (A B : Automaton) (p q : State) : List (Option State × Option State) :=
  A.alphabet.names.map fun name => (A.nextByName? p name, B.nextByName? q name)

/-- Expands pairs in the order in which they were found, at most `steps` of them; none if two partners
differ in being final or in where they lead. -/
def pairFrom? (A B : Automaton) : Nat → Pairing → Option Pairing
  | 0, P => some P
  | steps + 1, P =>
    match P.found[P.expanded]? with
    | none => some P
    | some (p, q) =>
      if A.finals.contains p = B.finals.contains q then
        (P.visitAll? (A.jointTargets B p q)).bind fun Q =>
          pairFrom? A B steps { Q with expanded := Q.expanded + 1 }
      else none

/-- Whether two deterministic automata over the same names have the same number of states and pair them
all. There are at most as many pairs as states. -/
def agreeInStep (A B : Automaton) : Bool :=
  A.numStates == B.numStates &&
    match A.starts.first?, B.starts.first? with
    | some p, some q =>
      (A.pairFrom? B A.numStates (.start p q)).any fun P => P.found.size == A.numStates
    | _, _ => false

def canonical (A B : Automaton) : Except Failure Automaton := (A.widened B).determinize.minimize

def isEquivalent (A B : Automaton) : Bool :=
  match A.canonical B, B.canonical A with
  | .ok left, .ok right => left.agreeInStep right
  | _, _ => false

end Automaton

end RegularLanguages
