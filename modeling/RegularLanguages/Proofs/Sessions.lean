import RegularLanguages.Automaton.Session
import RegularLanguages.Graph.Basic
import RegularLanguages.Proofs.Derived
import RegularLanguages.Proofs.Embedding
import RegularLanguages.Proofs.Thompson

/-!
Every session leaves well-formed automata behind, whatever fails in between; so nothing that reads an automaton meets
a state or a symbol that does not exist.
-/
namespace RegularLanguages

namespace Automaton

variable {A : Automaton}

/-- What the functions that read an automaton rely on. -/
structure Sound (A : Automaton) : Prop extends A.WellFormed where
  findState?_lt : ∀ name q, A.findState? name = some q → q < A.numStates
  targets_nonempty : ∀ q l S, A.transitions.get? q l = some S → ∃ r, S.contains r
  labels_named : ∀ t ∈ A.transitions.toList, ∃ l, A.alphabet.resolve t.label = some l
  reachable_lt : ∀ q, A.reachable.contains q → q < A.numStates
  coreachable_lt : ∀ q, A.coreachable.contains q → q < A.numStates
  labelled_eq : A.labelledTransitions.map (fun t => (t.1, some t.2.1, t.2.2)) =
    A.transitions.toList.map fun t => (t.source, A.alphabet.resolve t.label, t.target)
  graph_ends : A.toGraph.edges.map (fun e => (e.source, e.target)) =
    A.transitions.toList.map fun t => (t.source, t.target)

theorem WellFormed.label_named (hA : A.WellFormed) {t : Transition} (ht : t ∈ A.transitions.toList) :
    ∃ l, A.alphabet.resolve t.label = some l :=
  knows_iff.1 (hA.transitions _ _ _ (Transitions.mem_toList.1 ht)).2.1

/-- No transition is left out. -/
theorem WellFormed.labelledTransitions_eq (hA : A.WellFormed) :
    A.labelledTransitions.map (fun t => (t.1, some t.2.1, t.2.2)) =
      A.transitions.toList.map fun t => (t.source, A.alphabet.resolve t.label, t.target) := by
  rw [labelledTransitions, List.map_filterMap, ← List.filterMap_eq_map]
  refine List.filterMap_congr fun t ht => ?_
  obtain ⟨l, hl⟩ := hA.label_named ht
  simp [hl]

private theorem ends_graphEdge (t : State × Label String × State) :
    ((graphEdge t).source, (graphEdge t).target) = (t.1, t.2.2) := by
  unfold graphEdge
  split <;> rfl

theorem WellFormed.sound (hA : A.WellFormed) : A.Sound where
  toWellFormed := hA
  findState?_lt name q hq := by
    obtain ⟨other, hother⟩ := StateNames.exists_name?_of_owner? hq
    exact hA.names_lt q other hother
  targets_nonempty q l S hS := StateSet.isEmpty_eq_false_iff.1 (A.transitions.inhabited (q, l) S hS)
  labels_named _ ht := hA.label_named ht
  reachable_lt _ := hA.reachable_lt
  coreachable_lt _ := hA.coreachable_lt
  labelled_eq := hA.labelledTransitions_eq
  graph_ends := by
    have hends := congrArg (List.map fun t => (t.1, t.2.2)) hA.labelledTransitions_eq
    simp only [List.map_map, Function.comp_def] at hends
    rw [← hends, toGraph, List.map_map]
    exact List.map_congr_left fun t _ => ends_graphEdge t

end Automaton

open Automaton

theorem Call.apply_wellFormed {A : Automaton} (hA : A.WellFormed) (call : Call) : (call.apply A).WellFormed := by
  cases call with
  | ensureState q => exact (hA.ensureState q).1
  | addState => exact hA.addState.1
  | state name => exact hA.state name
  | setStateName q name => exact hA.setStateName q name
  | addSymbol name => exact hA.addSymbol name
  | addTransition source label target => exact hA.addTransition source label target
  | removeTransition source label target => exact hA.removeTransition source label target
  | addStart q => exact hA.addStart q
  | addFinal q => exact hA.addFinal q
  | removeStart q => exact hA.removeStart q
  | removeFinal q => exact hA.removeFinal q

-- What a call has registered stays when it fails.
example : (Call.apply ∅ (.addTransition 0 (.symbol "a") maxStates)).numStates = 1 := by decide

/-- Whatever is derived from well-formed automata is well-formed. -/
theorem Derivation.derive_wellFormed {store : Store} (hstore : ∀ x, (store x).WellFormed) {derivation : Derivation}
    {A : Automaton} (h : derivation.derive store = .ok A) : A.WellFormed := by
  cases derivation with
  | withAlphabet alphabet =>
    cases h
    exact withAlphabet_wellFormed alphabet
  | expression e => exact Expression.toAutomaton_wellFormed h
  | copy x =>
    cases h
    exact hstore x
  | determinize x =>
    cases h
    exact determinize_wellFormed _
  | minimize x => exact minimize_wellFormed h
  | complete x =>
    obtain rfl := of_complete h
    exact (hstore x).completion
  | removeEpsilon x =>
    cases h
    exact (hstore x).removeEpsilon
  | reverse x =>
    cases h
    exact (hstore x).reverse
  | kleeneStar x => exact (hstore x).kleeneStar h
  | complement x => exact (hstore x).complement h
  | union x y => exact (hstore x).union (hstore y) h
  | concatenate x y => exact (hstore x).concatenate (hstore y) h
  | intersect x y => exact (hstore x).intersect (hstore y) h
  | difference x y => exact difference_wellFormed h

theorem Store.set_wellFormed {store : Store} (hstore : ∀ x, (store x).WellFormed) {A : Automaton} (hA : A.WellFormed)
    (x y : String) : (store.set x A y).WellFormed := by
  unfold Store.set
  split
  · exact hA
  · exact hstore y

theorem Operation.step_wellFormed {store : Store} (hstore : ∀ x, (store x).WellFormed) (operation : Operation)
    (x : String) : (operation.step store x).WellFormed := by
  cases operation with
  | change y call => exact Store.set_wellFormed hstore (call.apply_wellFormed (hstore y)) y x
  | assign y derivation =>
    cases h : derivation.derive store with
    | ok A =>
      simp only [Operation.step, h]
      exact Store.set_wellFormed hstore (Derivation.derive_wellFormed hstore h) y x
    | error e =>
      simp only [Operation.step, h]
      exact hstore x

theorem Store.foldl_wellFormed {store : Store} (hstore : ∀ x, (store x).WellFormed) (operations : List Operation)
    (x : String) : (operations.foldl Operation.step store x).WellFormed := by
  induction operations generalizing store with
  | nil => exact hstore x
  | cons operation operations ih => exact ih (Operation.step_wellFormed hstore operation)

/-- After any session every variable holds a sound automaton. -/
theorem Store.after_sound (operations : List Operation) (x : String) : (Store.after operations x).Sound :=
  (Store.foldl_wellFormed (fun _ => withAlphabet_wellFormed ∅) operations x).sound

end RegularLanguages
