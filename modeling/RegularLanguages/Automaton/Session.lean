import RegularLanguages.Automaton.Minimization
import RegularLanguages.Automaton.Product
import RegularLanguages.Automaton.Registration
import RegularLanguages.Expression.Thompson

/-!
Sessions with automata: variables hold automata, calls change them in place, and assignments derive new ones.
-/
namespace RegularLanguages

inductive Call
  | ensureState (q : State)
  | addState
  | state (name : String)
  | setStateName (q : State) (name : String)
  | addSymbol (name : String)
  | addTransition (source : State) (label : Label String) (target : State)
  | removeTransition (source : State) (label : Label String) (target : State)
  | addStart (q : State)
  | addFinal (q : State)
  | removeStart (q : State)
  | removeFinal (q : State)

/-- The automaton after a call, also when the call fails. -/
def Call.apply (A : Automaton) : Call → Automaton
  | ensureState q => (A.ensureState q).automaton
  | addState => A.addState.automaton
  | state name => (A.state name).automaton
  | setStateName q name => (A.setStateName q name).automaton
  | addSymbol name => (A.addSymbol name).1
  | addTransition source label target => (A.addTransition source label target).automaton
  | removeTransition source label target => (A.removeTransition source label target).1
  | addStart q => (A.addStart q).automaton
  | addFinal q => (A.addFinal q).automaton
  | removeStart q => (A.removeStart q).1
  | removeFinal q => (A.removeFinal q).1

abbrev Store := String → Automaton

def Store.set (store : Store) (x : String) (A : Automaton) : Store := fun y => if y = x then A else store y

/-- A new automaton: from nothing, from an expression, or from what variables hold. -/
inductive Derivation
  | withAlphabet (alphabet : Alphabet)
  | expression (e : Expression)
  | copy (x : String)
  | determinize (x : String)
  | minimize (x : String)
  | complete (x : String)
  | removeEpsilon (x : String)
  | reverse (x : String)
  | kleeneStar (x : String)
  | complement (x : String)
  | union (x y : String)
  | concatenate (x y : String)
  | intersect (x y : String)
  | difference (x y : String)

def Derivation.derive (store : Store) : Derivation → Except Failure Automaton
  | withAlphabet alphabet => .ok (.withAlphabet alphabet)
  | expression e => e.toAutomaton
  | copy x => .ok (store x)
  | determinize x => .ok (store x).determinize
  | minimize x => (store x).minimize
  | complete x => (store x).complete
  | removeEpsilon x => .ok (store x).removeEpsilon
  | reverse x => .ok (store x).reverse
  | kleeneStar x => (store x).kleeneStar
  | complement x => (store x).complement
  | union x y => (store x).union (store y)
  | concatenate x y => (store x).concatenate (store y)
  | intersect x y => (store x).intersect (store y)
  | difference x y => (store x).difference (store y)

inductive Operation
  | change (x : String) (call : Call)
  | assign (x : String) (derivation : Derivation)

/-- The store after a step. A derivation that fails assigns nothing. -/
def Operation.step (store : Store) : Operation → Store
  | change x call => store.set x (call.apply (store x))
  | assign x derivation =>
    match derivation.derive store with
    | .ok A => store.set x A
    | .error _ => store

/-- The store after a session. All variables hold empty automata at first. -/
def Store.after (operations : List Operation) : Store := operations.foldl Operation.step fun _ => ∅

end RegularLanguages
