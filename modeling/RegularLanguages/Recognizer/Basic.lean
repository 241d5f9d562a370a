import RegularLanguages.Automaton.Equivalence
import RegularLanguages.Automaton.Registration
import RegularLanguages.Expression.Elimination
import RegularLanguages.Recognizer.Wrapped

/-!
Automata whose states and symbols stand for values of a calling program. Nothing is known of the values but their texts,
which are also the names of the states and symbols: values with the same text stand for the same state or symbol, and a
value may raise an error instead of having a text.

A call is given an `Option (Wrapped V)` where it looks for a wrapped value; `none` stands for whatever else it is given.
-/
namespace RegularLanguages

/-- An automaton with the values behind its symbols. -/
structure Recognizer (V : Type) where
  automaton : Automaton
  /-- The value first registered for each symbol name. -/
  symbols : List (String × V)

namespace Recognizer

variable {V E α β : Type}

instance : EmptyCollection (Recognizer V) := ⟨⟨∅, []⟩⟩

/-- Why a call fails, where the calling program raises errors `E`. -/
inductive Failure (E : Type)
  /-- An error from outside: of a value, a sequence or a package. -/
  | raised (cause : E)
  /-- A transition was given a label that is neither a symbol nor epsilon. -/
  | noLabel
  /-- An argument is of the wrong kind. -/
  | wrongKind
  | automaton (cause : RegularLanguages.Failure)

def Failure.message? : Failure E → Option String
  | noLabel => some "symbol must be a Symbol or Epsilon instance"
  | automaton cause => some cause.message
  | raised _ | wrongKind => none

/-- The recognizer after a call, and its answer or the failure that ended it. A call that fails keeps what
it had registered. -/
structure Call (V E α : Type) where
  recognizer : Recognizer V
  answer : Except (Failure E) α

/-- Goes on after a registration of `R`. -/
def proceed (R : Recognizer V) (r : Automaton.Registration α) (f : Recognizer V → α → Call V E β) : Call V E β :=
  match r.answer with
  | .ok a => f { R with automaton := r.automaton } a
  | .error e => ⟨{ R with automaton := r.automaton }, .error (.automaton e)⟩

/-- Notes the value of a symbol name, unless the name has one. -/
def note (R : Recognizer V) (name : String) (v : V) : Recognizer V :=
  if (R.symbols.lookup name).isSome then R
  else { R with symbols := R.symbols ++ [(name, v)] }

def link (R : Recognizer V) (source : State) (label : Label String) (target : State) : Call V E Bool :=
  R.proceed (R.automaton.addTransition source label target) fun R added => ⟨R, .ok added⟩

section Texts

variable (text : V → Except E String)

/-- Registers the state that stands for `v` and goes on with its number. -/
def withState (R : Recognizer V) (v : V) (f : Recognizer V → State → Call V E β) : Call V E β :=
  match text v with
  | .ok name => R.proceed (R.automaton.state name) f
  | .error e => ⟨R, .error (.raised e)⟩

/-- Adds a transition between two states, once its label is found to be one. -/
def linkOn (R : Recognizer V) (source : State) (label : Option (Wrapped V)) (target : State) : Call V E Bool :=
  match label with
  | some .epsilon => R.link source .epsilon target
  | some (.symbol v) =>
    match text v with
    | .ok name => (R.note name v).link source (.symbol name) target
    | .error e => ⟨R, .error (.raised e)⟩
  | _ => ⟨R, .error .noLabel⟩

/-- Registers source and target and then adds a transition between them; answers whether it is new. The
ends must be states before anything is done; the label is looked at last. -/
def addTransition (R : Recognizer V) (source label target : Option (Wrapped V)) : Call V E Bool :=
  match source, target with
  | some (.state source), some (.state target) =>
    R.withState text source fun R p => R.withState text target fun R q => R.linkOn text p label q
  | _, _ => ⟨R, .error .wrongKind⟩

def onState (R : Recognizer V) (act : Automaton → State → Automaton.Registration Unit) (state : Option (Wrapped V)) :
    Call V E Unit :=
  match state with
  | some (.state v) => R.withState text v fun R q => R.proceed (act R.automaton q) fun R _ => ⟨R, .ok ()⟩
  | _ => ⟨R, .error .wrongKind⟩

def addStart (R : Recognizer V) (state : Option (Wrapped V)) : Call V E Unit := R.onState text Automaton.addStart state

def addFinal (R : Recognizer V) (state : Option (Wrapped V)) : Call V E Unit := R.onState text Automaton.addFinal state

end Texts

/-- What is given for a word: a list, a tuple or whatever else is a sequence, or something that is none. -/
inductive Word (V E : Type)
  /-- A sequence of some items, which may raise an error after the last one. -/
  | sequence (items : List (Option (Wrapped V))) (error : Option E)
  | noSequence

/-- The values inside symbols; fails on anything else. -/
def symbolValues : List (Option (Wrapped V)) → Except (Failure E) (List V)
  | [] => .ok []
  | some (.symbol v) :: rest => (symbolValues rest).map (v :: ·)
  | _ :: _ => .error .wrongKind

def Word.values : Word V E → Except (Failure E) (List V)
  | sequence items none => symbolValues items
  | sequence items (some e) => (symbolValues items).bind fun _ => .error (.raised e)
  | noSequence => .error .wrongKind

/-- Whether a word of symbols is accepted. The texts are asked for when all items have turned out to be symbols. -/
def accepts (text : V → Except E String) (R : Recognizer V) (word : Word V E) : Except (Failure E) Bool := do
  let names ← ((← word.values).mapM text).mapError .raised
  return R.automaton.accepts names

def toText (R : Recognizer V) : String := (R.automaton.toExpression .fewestEdges).render

end Recognizer

/-- A recognizer that has been determinized. It takes no further registrations. -/
structure DeterministicRecognizer (V : Type) where
  recognizer : Recognizer V

def Recognizer.determinize {V : Type} (R : Recognizer V) : DeterministicRecognizer V :=
  ⟨{ R with automaton := R.automaton.determinize }⟩

def DeterministicRecognizer.minimize {V : Type} (D : DeterministicRecognizer V) :
    Except Failure (DeterministicRecognizer V) :=
  D.recognizer.automaton.minimize.map fun M => ⟨{ D.recognizer with automaton := M }⟩

def Recognizer.minimize {V : Type} (R : Recognizer V) : Except RegularLanguages.Failure (DeterministicRecognizer V) :=
  R.determinize.minimize

end RegularLanguages
