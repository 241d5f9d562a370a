import RegularLanguages.Automaton.Acceptance
import RegularLanguages.Expression.Basic

/-!
Automata from expressions. Every node becomes a fragment with one entry, which nothing enters, and one
exit, which nothing leaves; all fragments grow in one automaton.
-/
namespace RegularLanguages

/-- The entry and the exit of a part of an automaton. -/
structure Fragment where
  entry : State
  exit : State

namespace Expression

def newFragment (A : Automaton) : Automaton × Fragment :=
  ({ A with numStates := A.numStates + 2 }, ⟨A.numStates, A.numStates + 1⟩)

def link (A : Automaton) (edges : List (State × State)) : Automaton :=
  { A with transitions := A.transitions.addAll (edges.map fun e => ⟨e.1, .epsilon, e.2⟩) }

def linkSymbol (A : Automaton) (source : State) (name : String) (target : State) : Automaton :=
  let alphabet := A.alphabet.intern name
  { A with
    alphabet := alphabet
    transitions := A.transitions.add source (.symbol (alphabet.idOf name)) target }

/-- Adds a fragment for an expression, those of its operands first. -/
def assemble : Expression → Automaton → Automaton × Fragment
  | empty, A => newFragment A
  | epsilon, A =>
    let (A, f) := newFragment A
    (link A [(f.entry, f.exit)], f)
  | symbol name, A =>
    let (A, f) := newFragment A
    (linkSymbol A f.entry name f.exit, f)
  | concatenation l r, A =>
    let (A, f) := l.assemble A
    let (A, g) := r.assemble A
    (link A [(f.exit, g.entry)], ⟨f.entry, g.exit⟩)
  | union l r, A =>
    let (A, f) := l.assemble A
    let (A, g) := r.assemble A
    let (A, h) := newFragment A
    (link A [(h.entry, f.entry), (f.exit, h.exit), (h.entry, g.entry), (g.exit, h.exit)], h)
  | kleeneStar e, A =>
    let (A, f) := e.assemble A
    let (A, h) := newFragment A
    (link A [(h.entry, f.entry), (h.entry, h.exit), (f.exit, f.entry), (f.exit, h.exit)], h)

/-- The automaton of an expression, of whatever size. -/
def thompson (e : Expression) : Automaton :=
  let (A, f) := e.assemble ∅
  { A with starts := .singleton f.entry, finals := .singleton f.exit }

def toAutomaton (e : Expression) : Except Failure Automaton :=
  let A := e.thompson
  if A.numStates ≤ maxStates then .ok A else .error .counterOverflow

def accepts (e : Expression) (word : List String) : Except Failure Bool :=
  e.toAutomaton.map fun A => A.accepts word

end Expression

end RegularLanguages
