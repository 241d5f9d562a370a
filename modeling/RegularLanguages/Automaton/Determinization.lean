import RegularLanguages.Automaton.Acceptance
import RegularLanguages.Automaton.Registration

/-!
The subset construction, removal of epsilon edges, and completion.
-/
namespace RegularLanguages.Automaton

def nextSubsets (A : Automaton) (S : StateSet) : List (Option StateSet) :=
  A.alphabet.ids.map fun a =>
    let T := A.move S a
    if T.isEmpty then none else some T

/-- The configurations that are reached from the initial one, in breadth-first order. The initial one
is listed even when it is empty, and is then the only one; all others consist of targets. -/
def subsets (A : Automaton) : Exploration StateSet :=
  .explore StateSet.bits A.nextSubsets (1 <<< A.transitions.width + 1) (A.closure A.starts)

/-- The deterministic automaton whose states are the reached configurations. It is partial: a symbol
that leads nowhere has no transition. Its alphabet is unchanged, and a state is named after the members
of its configuration. The states are not counted against `maxStates`, which no search comes near: all of them
but the first are targets, and a set of targets takes a bit for every number up to its greatest member, so
that `maxStates` of them would take some `2 ^ 60` bytes. -/
def determinize (A : Automaton) : Automaton :=
  let subsets := A.subsets
  { numStates := subsets.found.size
    starts := .singleton 0
    finals := .below subsets.found.size fun i => (subsets.found[i]?.getD ∅).meets A.finals
    transitions := .ofRows subsets.rows.toList
    alphabet := A.alphabet
    names := .ofList (subsets.found.toList.map fun S => A.compositeName S.toList) }

/-- Whether epsilon edges lead from `q` to a final state, and the transitions from `q` that stand for a path
of epsilon edges and then a symbol. -/
def bypass (A : Automaton) (q : State) : Bool × List Transition :=
  let S := A.closure (.singleton q)
  (S.meets A.finals,
    A.alphabet.ids.flatMap fun a => (A.edgesOn S a).toList.map fun target => ⟨q, .symbol a, target⟩)

/-- The automaton with the same states in which every path of epsilon edges and then a symbol is one
transition, and every state from which epsilon edges lead to a final state is final. -/
def removeEpsilon (A : Automaton) : Automaton :=
  let bypasses := (Array.range A.numStates).map A.bypass
  { A with
    finals := .below A.numStates fun q => bypasses[q]?.any fun b => b.1
    transitions := .ofList (bypasses.toList.flatMap fun b => b.2) }

def missing (A : Automaton) : List (State × SymbolId) :=
  if A.alphabet.size = 0 then []
  else (List.range A.numStates).flatMap fun q =>
    (A.alphabet.ids.filter fun a => (A.transitions.get? q (.symbol a)).isNone).map fun a => (q, a)

/-- One state more, which is not final and which nothing leaves: the transitions that are missing lead there. -/
def withSink (A : Automaton) (missing : List (State × SymbolId)) : Automaton :=
  let sink := A.numStates
  { A with
    numStates := sink + 1
    transitions := A.transitions.addAll
      (missing.map (fun m => ⟨m.1, .symbol m.2, sink⟩) ++
        A.alphabet.ids.map fun a => ⟨sink, .symbol a, sink⟩) }

/-- Sends every missing transition to a sink, for which a number must be left. Nothing changes when none is
missing. -/
def complete (A : Automaton) : Except Failure Automaton :=
  let missing := A.missing
  if missing.isEmpty then .ok A
  else withinBounds (A.numStates + 1) fun _ => A.withSink missing

end RegularLanguages.Automaton
