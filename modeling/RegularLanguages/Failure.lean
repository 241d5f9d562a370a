/-!
The ways in which an operation on automata can fail, each with its message.
-/
namespace RegularLanguages

/-- The most states an automaton may be given. State numbers, symbol numbers and the code of the
empty label all live below or at this bound. -/
def maxStates : Nat := 4294967295

/-- Why an operation on automata has no result. -/
inductive Failure
  /-- The operation needs exactly one start state, no epsilon edge and at most one target for each
  state and symbol. -/
  | notDeterministic
  /-- The operation needs a target for every state and every symbol. -/
  | notTotal
  /-- The pairs of a product outnumber `maxStates`. -/
  | tooManyStates
  /-- A registration would take the number of states beyond `maxStates`. -/
  | counterOverflow
  /-- Epsilon was given where a symbol is read. -/
  | epsilonMove
  deriving DecidableEq

def Failure.message : Failure → String
  | .notDeterministic => "automaton is not deterministic; determinize it first"
  | .notTotal => "automaton is not total; complete it first"
  | .tooManyStates => s!"product automaton needs more than {maxStates} states"
  | .counterOverflow => "attempt to add with overflow"
  | .epsilonMove => "Use epsilon_closure for epsilon moves"

end RegularLanguages
