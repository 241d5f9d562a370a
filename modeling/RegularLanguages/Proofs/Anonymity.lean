import RegularLanguages.Automaton.Words
import RegularLanguages.Expression.Elimination
import RegularLanguages.Proofs.Canonical
import RegularLanguages.Proofs.Listing
import RegularLanguages.Proofs.Reachability

/-!
No question that is not about names is answered by them: automata that are equal but for the names of states give the
same answers.
-/
namespace RegularLanguages

namespace Automaton

variable {M N : Automaton}

namespace SameUpToNames

theorem of_same (hnumStates : M.numStates = N.numStates) (halphabet : M.alphabet = N.alphabet)
    (hstarts : M.starts = N.starts) (hfinals : M.finals = N.finals) (h : M.transitions.Same N.transitions) :
    M.SameUpToNames N :=
  ⟨hnumStates, halphabet, hstarts, hfinals, h.toList_eq⟩

theorem refl (M : Automaton) : M.SameUpToNames M := ⟨rfl, rfl, rfl, rfl, rfl⟩

theorem transitions_same (h : M.SameUpToNames N) : M.transitions.Same N.transitions :=
  Transitions.same_of_toList_eq h.toList_eq

theorem path_iff (h : M.SameUpToNames N) {p q : State} {word : List String} :
    M.Path p word q ↔ N.Path p word q := by
  have hedges : ∀ p l q, M.Edge p l q ↔ N.Edge p l q := fun p l q => by
    simp only [Edge, h.alphabet_eq, h.transitions_same.contains_eq]
  exact ⟨Path.mono fun p l q => (hedges p l q).1, Path.mono fun p l q => (hedges p l q).2⟩

/-- The rounds that the search is given differ, but what it finds does not depend on them. -/
theorem closure_eq (h : M.SameUpToNames N) (S : StateSet) : M.closure S = N.closure S := by
  refine StateSet.eq_of_contains_iff fun q => ?_
  rw [contains_closure, contains_closure]
  simp only [h.path_iff]

theorem edgesOn_eq (h : M.SameUpToNames N) (S : StateSet) (a : SymbolId) : M.edgesOn S a = N.edgesOn S a := by
  simp only [edgesOn, h.transitions_same.targets_eq]

theorem move_eq (h : M.SameUpToNames N) (S : StateSet) (a : SymbolId) : M.move S a = N.move S a := by
  rw [move, move, h.edgesOn_eq, h.closure_eq]

theorem moveOn_eq (h : M.SameUpToNames N) (S : StateSet) (l : Label SymbolId) : M.moveOn S l = N.moveOn S l := by
  cases l with
  | epsilon => rfl
  | symbol a => exact congrArg Except.ok (h.move_eq S a)

theorem next?_eq (h : M.SameUpToNames N) (q : State) (a : SymbolId) : M.next? q a = N.next? q a := by
  rw [next?, next?, h.transitions_same.get?_eq]

theorem nextByName?_eq (h : M.SameUpToNames N) (q : State) (name : String) :
    M.nextByName? q name = N.nextByName? q name := by
  rw [nextByName?, nextByName?, h.alphabet_eq]
  exact Option.bind_congr fun a _ => h.next?_eq q a

private theorem successors_eq (h : M.SameUpToNames N) : M.successors = N.successors := by
  have hknows : M.knows = N.knows := by
    funext l
    cases l with
    | epsilon => rfl
    | symbol a => rw [knows, knows, h.alphabet_eq]
  rw [successors, successors, h.transitions_same.entries_eq, hknows]

private theorem predecessors_eq (h : M.SameUpToNames N) : M.predecessors = N.predecessors := by
  rw [predecessors, predecessors, h.toList_eq]

theorem reachable_eq (h : M.SameUpToNames N) : M.reachable = N.reachable := by
  refine StateSet.eq_of_contains_iff fun q => ?_
  rw [contains_reachable, contains_reachable, h.starts_eq]
  simp only [h.path_iff]

theorem coreachable_eq (h : M.SameUpToNames N) : M.coreachable = N.coreachable := by
  rw [coreachable, coreachable, h.finals_eq, h.predecessors_eq, h.transitions_same.keys_eq]

theorem useful_eq (h : M.SameUpToNames N) : M.useful = N.useful := by
  rw [useful, useful, h.reachable_eq, h.coreachable_eq]

theorem isEmpty_eq (h : M.SameUpToNames N) : M.isEmpty = N.isEmpty := by
  rw [isEmpty, isEmpty, h.reachable_eq, h.finals_eq]

theorem isDeterministic_eq (h : M.SameUpToNames N) : M.isDeterministic = N.isDeterministic := by
  rw [isDeterministic, isDeterministic, h.starts_eq, h.transitions_same.isDeterministic_eq]

theorem isTotal_eq (h : M.SameUpToNames N) : M.isTotal = N.isTotal := by
  simp only [isTotal, h.isDeterministic_eq, h.alphabet_eq, h.numStates_eq, h.transitions_same.get?_eq]

theorem hasCycle_eq (h : M.SameUpToNames N) (S : StateSet) : M.hasCycle S = N.hasCycle S := by
  rw [hasCycle, hasCycle, h.successors_eq, h.numStates_eq]

theorem isFinite_eq (h : M.SameUpToNames N) : M.isFinite = N.isFinite := by
  rw [isFinite, isFinite, h.hasCycle_eq, h.useful_eq]

theorem isAcyclic_eq (h : M.SameUpToNames N) : M.isAcyclic = N.isAcyclic := by
  rw [isAcyclic, isAcyclic, h.hasCycle_eq, h.reachable_eq]

theorem toExpression_eq (h : M.SameUpToNames N) (order : EliminationOrder) :
    M.toExpression order = N.toExpression order := by
  have hgraph : M.expressionGraph = N.expressionGraph := by
    rw [expressionGraph, expressionGraph, h.useful_eq, h.toList_eq, h.alphabet_eq, h.starts_eq, h.finals_eq,
      h.numStates_eq]
  rw [toExpression, toExpression, elimination, elimination, hgraph, h.useful_eq, h.numStates_eq]

theorem subsets_eq (h : M.SameUpToNames N) : M.subsets = N.subsets := by
  have hnext : M.nextSubsets = N.nextSubsets := by
    funext S
    simp only [nextSubsets, h.alphabet_eq, h.move_eq]
  have hM := (subsets_complete M).finished
  have hN := (subsets_complete N).finished
  rw [subsets, hnext, h.closure_eq, h.starts_eq] at hM
  rw [subsets] at hN
  rw [subsets, subsets, hnext, h.closure_eq, h.starts_eq]
  exact Exploration.explore_eq_of_finished hM hN

theorem determinize (h : M.SameUpToNames N) : M.determinize.SameUpToNames N.determinize := by
  refine ⟨?_, h.alphabet_eq, rfl, ?_, ?_⟩
  · change M.subsets.found.size = N.subsets.found.size
    rw [h.subsets_eq]
  · change StateSet.below _ _ = StateSet.below _ _
    rw [h.subsets_eq, h.finals_eq]
  · change (Transitions.ofRows _).toList = (Transitions.ofRows _).toList
    rw [h.subsets_eq]

private theorem visit_eq (h : M.SameUpToNames N) (live : StateSet) (bound : Nat) (words : Array (List String))
    (front back : List Trail) : M.visit live bound words front back = N.visit live bound words front back := by
  have hspell : M.spell = N.spell := by
    funext t
    rw [spell, spell, h.alphabet_eq]
  have hfollow : M.follow = N.follow := by
    funext live bound t
    simp only [follow, extend, h.alphabet_eq, h.next?_eq]
  induction words, front, back using visit.induct M live bound with
  | case1 words => simp only [visit]
  | case2 words t back ih =>
    rw [visit, visit]
    exact ih
  | case3 words back t front ih =>
    rw [visit, visit, ← h.finals_eq, ← hspell, ← hfollow]
    exact ih

private theorem wordsOf_eq (h : M.SameUpToNames N) (bound : Nat) : M.wordsOf bound = N.wordsOf bound := by
  simp only [wordsOf, h.coreachable_eq, h.starts_eq, h.visit_eq]

theorem acceptedWords_eq (h : M.SameUpToNames N) (bound : Nat) : M.acceptedWords bound = N.acceptedWords bound :=
  h.determinize.wordsOf_eq bound

end SameUpToNames

/-- The same answers to all questions that are not about names. -/
structure SameAnswers (M N : Automaton) : Prop where
  accepts_eq : ∀ word, M.accepts word = N.accepts word
  closure_eq : ∀ S, M.closure S = N.closure S
  moveOn_eq : ∀ S l, M.moveOn S l = N.moveOn S l
  reachable_eq : M.reachable = N.reachable
  coreachable_eq : M.coreachable = N.coreachable
  useful_eq : M.useful = N.useful
  isDeterministic_eq : M.isDeterministic = N.isDeterministic
  isTotal_eq : M.isTotal = N.isTotal
  isEmpty_eq : M.isEmpty = N.isEmpty
  isFinite_eq : M.isFinite = N.isFinite
  isAcyclic_eq : M.isAcyclic = N.isAcyclic
  acceptedWords_eq : ∀ bound, M.acceptedWords bound = N.acceptedWords bound
  toExpression_eq : ∀ order, M.toExpression order = N.toExpression order

theorem SameUpToNames.sameAnswers (h : M.SameUpToNames N) : M.SameAnswers N :=
  ⟨h.accepts_eq, h.closure_eq, h.moveOn_eq, h.reachable_eq, h.coreachable_eq, h.useful_eq, h.isDeterministic_eq,
    h.isTotal_eq, h.isEmpty_eq, h.isFinite_eq, h.isAcyclic_eq, h.acceptedWords_eq, h.toExpression_eq⟩

end Automaton

end RegularLanguages
