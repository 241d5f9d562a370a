import RegularLanguages.Automaton.Acceptance
import RegularLanguages.Automaton.Registration

/-!
Union, concatenation, star and reversal. Each builds a new automaton from disjoint copies of its
operands: the states of a copy are moved up past those already there, and symbols are matched by name.
-/
namespace RegularLanguages.Automaton

def relabel (A : Automaton) (alphabet : Alphabet) : Label SymbolId → Label SymbolId
  | .epsilon => .epsilon
  | .symbol a => .symbol (alphabet.idOf ((A.alphabet.name? a).getD ""))

/-- `R` with a copy of the states, names, symbols and transitions of `A`. State `q` of `A` becomes
`R.numStates + q`. -/
def embed (R A : Automaton) : Automaton :=
  let offset := R.numStates
  let alphabet := R.alphabet.internAll A.alphabet.names
  { R with
    numStates := offset + A.numStates
    names := R.names.setAll ((A.names.below A.numStates).map fun e => (offset + e.1, e.2))
    alphabet := alphabet
    transitions := R.transitions.addAll (A.transitions.toList.map fun t =>
      ⟨offset + t.source, A.relabel alphabet t.label, offset + t.target⟩) }

/-- Adds an epsilon edge from every source to every target, by source and then by target. -/
def linkAll (A : Automaton) (sources targets : List State) : Automaton :=
  { A with transitions := A.transitions.addAll (sources.flatMap fun q =>
      targets.map fun r => ⟨q, .epsilon, r⟩) }

def disjointUnion (A B : Automaton) : Automaton :=
  let start := A.numStates + B.numStates
  let R := (embed (embed ∅ A) B).linkAll [start]
    (A.starts.toList ++ B.starts.toList.map (A.numStates + ·))
  { R with
    numStates := start + 1
    starts := .singleton start
    finals := A.finals ∪ B.finals.shift A.numStates }

/-- Copies of `A` and `B`, with epsilon edges from the final states of `A` to the start states of `B`.
The final states of `A` stay final if `B` accepts the empty word. -/
def chain (A B : Automaton) : Automaton :=
  let R := (embed (embed ∅ A) B).linkAll A.finals.toList (B.starts.toList.map (A.numStates + ·))
  { R with
    starts := A.starts
    finals := B.finals.shift A.numStates ∪ if B.accepts [] then A.finals else ∅ }

/-- A copy of `A` between a new start and a new final state. Epsilon edges lead from the new start to
the new final state and to the start states of `A`, and from each final state of `A` to its start
states and to the new final state. -/
def loop (A : Automaton) : Automaton :=
  let start := A.numStates
  let finish := A.numStates + 1
  let R := ((embed ∅ A).linkAll [start] (finish :: A.starts.toList)).linkAll A.finals.toList
    (A.starts.toList ++ [finish])
  { R with
    numStates := A.numStates + 2
    starts := .singleton start
    finals := .singleton finish }

def union (A B : Automaton) : Except Failure Automaton :=
  withinBounds (A.numStates + B.numStates + 1) fun _ => A.disjointUnion B

def concatenate (A B : Automaton) : Except Failure Automaton :=
  withinBounds (A.numStates + B.numStates) fun _ => A.chain B

def kleeneStar (A : Automaton) : Except Failure Automaton :=
  withinBounds (A.numStates + 2) fun _ => A.loop

/-- Every transition turned round, with start and final states exchanged. -/
def reverse (A : Automaton) : Automaton :=
  { A with
    starts := A.finals
    finals := A.starts
    transitions := .ofList (A.transitions.toList.map fun t => ⟨t.target, t.label, t.source⟩) }

/-- `A` over its own symbols and then those of `B`. -/
def widened (A B : Automaton) : Automaton :=
  { A with alphabet := A.alphabet.internAll B.alphabet.names }

end RegularLanguages.Automaton
