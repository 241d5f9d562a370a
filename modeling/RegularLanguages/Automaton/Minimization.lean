import RegularLanguages.Automaton.Table

/-!
Minimization: the parts of a table's partition as states, without those from which no final part can
be reached, numbered in breadth-first order. The numbering makes the result depend on the accepted
words and the order of the symbols alone, names apart.
-/
namespace RegularLanguages

namespace Table

def representatives (R : Refinement) : Array Nat := R.parts.map fun P => P.first?.getD 0

def partRows (T : Table) (R : Refinement) : Array (List Nat) :=
  (representatives R).map fun r => (T.targets[r]?.getD []).map R.partOf

def finalParts (T : Table) (R : Refinement) : StateSet :=
  let least := representatives R
  .below least.size fun i => least[i]?.any T.finals.contains

def liveParts (T : Table) (R : Refinement) : StateSet :=
  let previous := StateMap.ofList ((T.partRows R).toList.zipIdx.flatMap fun r =>
    r.1.map fun target => (target, .singleton r.2))
  (T.finalParts R).saturate previous.find (R.parts.size + 1)

/-- The start part and the live parts reached from it, in breadth-first order. -/
def numbering (T : Table) (R : Refinement) : Exploration Nat :=
  let rows := T.partRows R
  let live := T.liveParts R
  .explore id (fun i => (rows[i]?.getD []).map fun target =>
      if live.contains target then some target else none)
    (R.parts.size + 1) (R.partOf 0)

def members (T : Table) (R : Refinement) (i : Nat) : List State :=
  (R.parts[i]?.getD ∅).toList.filterMap fun r => T.origins[r]?.join

/-- The automaton of the numbered parts. The start part stays even if it is not live. A state is named
after the states of `A` behind its part. -/
def quotient (A : Automaton) (T : Table) (R : Refinement) : Automaton :=
  let numbering := T.numbering R
  let finals := T.finalParts R
  { numStates := numbering.found.size
    starts := .singleton 0
    finals := .below numbering.found.size fun i => numbering.found[i]?.any finals.contains
    transitions := .ofRows numbering.rows.toList
    alphabet := A.alphabet
    names := .ofList (numbering.found.toList.map fun part => A.compositeName (T.members R part)) }

end Table

/-- The deterministic automaton with the fewest states that accepts the same words as the
deterministic automaton `A`. -/
def Automaton.minimize (A : Automaton) : Except Failure Automaton :=
  (Table.ofAutomaton A).map fun T => Table.quotient A T T.refine

end RegularLanguages
