import RegularLanguages.Automaton.Basic
import RegularLanguages.Failure

/-!
Building an automaton piece by piece. States and symbols are registered by use. A registration that
would number a state beyond `maxStates` fails, and keeps what it had done before it failed.
-/
namespace RegularLanguages.Automaton

/-- The automaton after a registration, and its answer or the failure that ended it. -/
structure Registration (α : Type) where
  automaton : Automaton
  answer : Except Failure α

def Registration.andThen {α β : Type} (r : Registration α) (f : Automaton → α → Registration β) :
    Registration β :=
  match r.answer with
  | .ok a => f r.automaton a
  | .error e => ⟨r.automaton, .error e⟩

/-- Makes `q` a state, along with all smaller numbers. -/
def ensureState (A : Automaton) (q : State) : Registration Unit :=
  if q < A.numStates then ⟨A, .ok ()⟩
  else if q < maxStates then ⟨{ A with numStates := q + 1 }, .ok ()⟩
  else ⟨A, .error .counterOverflow⟩

def addState (A : Automaton) : Registration State :=
  if A.numStates < maxStates then ⟨{ A with numStates := A.numStates + 1 }, .ok A.numStates⟩
  else ⟨A, .error .counterOverflow⟩

/-- The state that owns `name`, or else a new state of that name. -/
def state (A : Automaton) (name : String) : Registration State :=
  match A.names.owner? name with
  | some q => ⟨A, .ok q⟩
  | none => A.addState.andThen fun B q => ⟨{ B with names := B.names.set q name }, .ok q⟩

def setStateName (A : Automaton) (q : State) (name : String) : Registration Unit :=
  (A.ensureState q).andThen fun B _ => ⟨{ B with names := B.names.set q name }, .ok ()⟩

def addSymbol (A : Automaton) (name : String) : Automaton × SymbolId :=
  let alphabet := A.alphabet.intern name
  ({ A with alphabet := alphabet }, alphabet.idOf name)

def internLabel (A : Automaton) : Label String → Automaton × Label SymbolId
  | .epsilon => (A, .epsilon)
  | .symbol name => let (B, a) := A.addSymbol name; (B, .symbol a)

/-- Registers the symbol, the source and the target, in this order, and then adds the transition.
Answers whether it is new. -/
def addTransition (A : Automaton) (source : State) (label : Label String) (target : State) :
    Registration Bool :=
  let (B, l) := A.internLabel label
  (B.ensureState source).andThen fun C _ => (C.ensureState target).andThen fun D _ =>
    ⟨{ D with transitions := D.transitions.add source l target },
      .ok (!D.transitions.contains source l target)⟩

/-- Removes a transition and answers whether it was there. Symbols and states stay. -/
def removeTransition (A : Automaton) (source : State) (label : Label String) (target : State) :
    Automaton × Bool :=
  match A.labelId? label with
  | some l => ({ A with transitions := A.transitions.remove source l target },
      A.transitions.contains source l target)
  | none => (A, false)

def addStart (A : Automaton) (q : State) : Registration Unit :=
  (A.ensureState q).andThen fun B _ => ⟨{ B with starts := B.starts.insert q }, .ok ()⟩

def addFinal (A : Automaton) (q : State) : Registration Unit :=
  (A.ensureState q).andThen fun B _ => ⟨{ B with finals := B.finals.insert q }, .ok ()⟩

def removeStart (A : Automaton) (q : State) : Automaton × Bool :=
  ({ A with starts := A.starts.erase q }, A.starts.contains q)

def removeFinal (A : Automaton) (q : State) : Automaton × Bool :=
  ({ A with finals := A.finals.erase q }, A.finals.contains q)

/-- `A`, provided that it has at most `maxStates` states. -/
def withinBounds (numStates : Nat) (A : Unit → Automaton) : Except Failure Automaton :=
  if numStates ≤ maxStates then .ok (A ()) else .error .counterOverflow

end RegularLanguages.Automaton
