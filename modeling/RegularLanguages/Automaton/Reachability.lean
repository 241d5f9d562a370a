import RegularLanguages.Automaton.Basic
import RegularLanguages.Search

/-!
Which states matter: those that can be reached, those from which a final state can be reached, and
the cycles among them.
-/
namespace RegularLanguages

namespace Automaton

def successors (A : Automaton) : StateMap :=
  .ofList ((A.transitions.entries.filter fun e => A.knows e.1.2).map fun e => (e.1.1, e.2))

def predecessors (A : Automaton) : StateMap :=
  .ofList (A.transitions.toList.map fun t => (t.target, .singleton t.source))

def reachable (A : Automaton) : StateSet :=
  A.starts.saturate A.successors.find (A.transitions.width + 1)

def coreachable (A : Automaton) : StateSet :=
  A.finals.saturate A.predecessors.find (A.transitions.keys.length + 1)

def useful (A : Automaton) : StateSet := A.reachable ∩ A.coreachable

def isEmpty (A : Automaton) : Bool := !A.reachable.meets A.finals

end Automaton

/-- How far the search for a cycle has come with a state. -/
inductive Mark where
  | unvisited
  | onStack
  | done
  deriving DecidableEq

/-- A state on the way that is being followed, and those of its successors that are still to be looked at. -/
structure Frame where
  state : State
  pending : List State

namespace Frame

/-- The looks that a stack still takes: one for every pending successor and one for leaving every state. -/
def looks : List Frame → Nat
  | [] => 0
  | frame :: stack => frame.pending.length + 1 + looks stack

private theorem looks_pop (q : State) (stack : List Frame) : looks stack < looks (⟨q, []⟩ :: stack) := by
  simp only [looks, List.length_nil]
  omega

private theorem looks_look (q r : State) (pending : List State) (stack : List Frame) :
    looks (⟨q, pending⟩ :: stack) < looks (⟨q, r :: pending⟩ :: stack) := by
  simp only [looks, List.length_cons]
  omega

end Frame

namespace Mark

private theorem count_unvisited_le (marks : Array Mark) (q : State) {mark : Mark} (h : mark ≠ unvisited) :
    (marks.setIfInBounds q mark).count unvisited ≤ marks.count unvisited := by
  unfold Array.setIfInBounds
  split
  · rw [Array.count_set]
    simp [h]
  · exact Nat.le_refl _

private theorem count_unvisited_lt {marks : Array Mark} {q : State} (hq : marks[q]? = some unvisited) {mark : Mark}
    (h : mark ≠ unvisited) : (marks.setIfInBounds q mark).count unvisited < marks.count unvisited := by
  obtain ⟨hlt, hunvisited⟩ := Array.getElem?_eq_some_iff.1 hq
  have hpos : 0 < marks.count unvisited := Array.count_pos_iff.2 (hunvisited ▸ Array.getElem_mem hlt)
  rw [Array.setIfInBounds, dif_pos hlt, Array.count_set, hunvisited]
  simp only [beq_self_eq_true, if_true, beq_eq_false_iff_ne.2 h, Bool.false_eq_true, if_false]
  omega

end Mark

namespace Automaton

/-- Follows the top of the stack. A successor that is on the stack itself closes a cycle, and there is no result; one
that was never visited is put on top; a state whose successors have all been looked at is done and leaves. -/
def descend? (next : State → List State) (marks : Array Mark) : List Frame → Option (Array Mark)
  | [] => some marks
  | ⟨q, []⟩ :: stack => descend? next (marks.setIfInBounds q .done) stack
  | ⟨q, r :: pending⟩ :: stack =>
    match _ : marks[r]? with
    | some .onStack => none
    | some .unvisited =>
      descend? next (marks.setIfInBounds r .onStack) (⟨r, next r⟩ :: ⟨q, pending⟩ :: stack)
    | _ => descend? next marks (⟨q, pending⟩ :: stack)
termination_by stack => (marks.count .unvisited, Frame.looks stack)
decreasing_by
  · exact Prod.Lex.right' _ (Mark.count_unvisited_le _ _ (by decide)) (Frame.looks_pop _ _)
  · exact Prod.Lex.left _ _ (Mark.count_unvisited_lt ‹_› (by decide))
  · exact Prod.Lex.right _ (Frame.looks_look _ _ _ _)

/-- Starts at every root that no earlier start has visited; no result if there is a cycle. -/
def descendAll? (next : State → List State) (marks : Array Mark) : List State → Option (Array Mark)
  | [] => some marks
  | root :: roots =>
    if marks[root]? = some .unvisited then
      (descend? next (marks.setIfInBounds root .onStack) [⟨root, next root⟩]).bind fun marks =>
        descendAll? next marks roots
    else descendAll? next marks roots

def succeeding (successors : StateMap) (S : StateSet) (q : State) : List State :=
  (successors.find q).toList.filter S.contains

/-- Whether the edges have a cycle within `S`, by a search in depth that marks the states on its way. -/
def hasCycle (A : Automaton) (S : StateSet) : Bool :=
  (descendAll? (succeeding A.successors S) (.replicate A.numStates .unvisited) S.toList).isNone

/-- No cycle among the useful states. -/
def isFinite (A : Automaton) : Bool := !A.hasCycle A.useful

/-- No cycle among the reachable states. -/
def isAcyclic (A : Automaton) : Bool := !A.hasCycle A.reachable

end Automaton

end RegularLanguages
