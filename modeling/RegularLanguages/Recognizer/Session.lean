import RegularLanguages.Recognizer.Drawing

/-!
Sessions with a recognizer: calls that build it and calls that ask about it. A call that fails ends nothing but itself.
-/
namespace RegularLanguages.Recognizer

variable {V E : Type}

inductive Query (V E : Type)
  | accepts (word : Word V E)
  | isEmpty
  | isDeterministic
  | toText
  | determinize
  | minimize
  /-- The picture is drawn by a package, which may raise an error at any of the steps, or not be there at all. -/
  | draw (package : List (Drawing V) → Option E)

inductive Request (V E : Type)
  | addTransition (source label target : Option (Wrapped V))
  | addStart (state : Option (Wrapped V))
  | addFinal (state : Option (Wrapped V))
  | ask (query : Query V E)

def failure? {ε α : Type} : Except ε α → Option ε
  | .ok _ => none
  | .error e => some e

variable (text : V → Except E String)

def Query.failure? (R : Recognizer V) : Query V E → Option (Failure E)
  | accepts word => Recognizer.failure? (R.accepts text word)
  | minimize => (Recognizer.failure? R.minimize).map .automaton
  | draw package => (package (Drawing.ofRecognizer R)).map .raised
  | isEmpty | isDeterministic | toText | determinize => none

/-- The recognizer after a call, and why the call failed, if it did. -/
def perform (R : Recognizer V) : Request V E → Recognizer V × Option (Failure E)
  | .addTransition source label target =>
    let call := R.addTransition text source label target
    (call.recognizer, failure? call.answer)
  | .addStart state =>
    let call := R.addStart text state
    (call.recognizer, failure? call.answer)
  | .addFinal state =>
    let call := R.addFinal text state
    (call.recognizer, failure? call.answer)
  | .ask query => (R, query.failure? text R)

def performAll (R : Recognizer V) (requests : List (Request V E)) : Recognizer V :=
  requests.foldl (fun R request => (R.perform text request).1) R

/-- The recognizer that calls on a new one leave behind. -/
def after (requests : List (Request V E)) : Recognizer V := performAll text ∅ requests

/-- Those of the calls that do not fail when all of them are performed. -/
def succeeding (R : Recognizer V) : List (Request V E) → List (Request V E)
  | [] => []
  | request :: rest =>
    match R.perform text request with
    | (R, none) => request :: succeeding R rest
    | (R, some _) => succeeding R rest

end RegularLanguages.Recognizer
