import Mathlib.Data.Set.Card
import RegularLanguages.Proofs.Acceptance
import RegularLanguages.Proofs.Canonical
import RegularLanguages.Proofs.Discovery
import RegularLanguages.Proofs.Embedding

/-!
What the subset construction numbers: the sets of states that words lead to, each once and in the order of discovery.
Determinizing again finds singletons in step with these sets, so it changes nothing but names.
-/
namespace RegularLanguages.Automaton

variable {A B D : Automaton}

/-- The set in which reading starts, and those that words over the alphabet lead to, but for the empty one. -/
def accessible (A : Automaton) : Set StateSet :=
  insert (A.closure A.starts) { S | S.isEmpty = false ∧
    ∃ word, (∀ name ∈ word, name ∈ A.alphabet.names) ∧ A.configuration word = S }

/-- The word that leads to a state leads to the set that the state stands for. -/
theorem exists_word_of_found {i : State} {S : StateSet} (hi : A.subsets.found[i]? = some S) :
    ∃ word, (∀ name ∈ word, name ∈ A.alphabet.names) ∧ A.configuration word = S := by
  have hlt : i < A.determinize.numStates := (Array.getElem?_eq_some_iff.1 hi).1
  obtain ⟨word, hword⟩ := exists_word_determinize hlt
  have hpath : A.determinize.Path 0 word i :=
    (path_iff_after? (determinize_numbers A).deterministic_transitions).2 hword
  exact ⟨word, hpath.mem_names, Option.some.inj ((found_of_after?_determinize hword).symm.trans hi)⟩

theorem mem_accessible_iff {S : StateSet} : S ∈ A.accessible ↔ S ∈ A.subsets.found := by
  have hN := determinize_numbers A
  constructor
  · rintro (rfl | ⟨hne, word, _, rfl⟩)
    · exact Array.mem_of_getElem? hN.first
    · obtain ⟨i, hi⟩ := exists_after?_determinize hne
      exact Array.mem_of_getElem? (found_of_after?_determinize hi)
  · intro hS
    obtain ⟨i, hi⟩ := Array.getElem?_of_mem hS
    cases hN.reached S hS with
    | refl => exact Set.mem_insert _ _
    | tail _ hstep =>
      obtain ⟨a, ha⟩ := List.getElem?_of_mem hstep
      exact Set.mem_insert_of_mem _ ⟨(nextSubsets_getElem?.1 ha).2.1, exists_word_of_found hi⟩

theorem numStates_determinize (A : Automaton) : A.determinize.numStates = A.accessible.ncard := by
  have hfound : A.accessible = ↑A.subsets.found.toList.toFinset := Set.ext fun S => by
    rw [mem_accessible_iff, Finset.mem_coe, List.mem_toFinset, Array.mem_toList_iff]
  rw [hfound, Set.ncard_coe_finset, List.toFinset_card_of_nodup (determinize_numbers A).indexed.nodup_found,
    Array.length_toList]
  rfl

private theorem WellFormed.ncard_accessible_le (hA : A.WellFormed) : A.accessible.ncard ≤ 2 ^ A.numStates := by
  have hlt : ∀ S ∈ A.accessible, S.bits < 2 ^ A.numStates := by
    intro S hS
    obtain ⟨i, hi⟩ := Array.getElem?_of_mem (mem_accessible_iff.1 hS)
    obtain ⟨word, _, rfl⟩ := exists_word_of_found hi
    rw [← Nat.one_shiftLeft]
    exact StateSet.bits_lt fun q => hA.configuration_lt
  have himage : StateSet.bits '' A.accessible ⊆ ↑(Finset.range (2 ^ A.numStates)) := by
    rintro _ ⟨S, hS, rfl⟩
    exact Finset.mem_coe.2 (Finset.mem_range.2 (hlt S hS))
  calc A.accessible.ncard = (StateSet.bits '' A.accessible).ncard :=
        (Set.ncard_image_of_injective _ StateSet.bits_injective).symm
    _ ≤ (↑(Finset.range (2 ^ A.numStates)) : Set Nat).ncard := Set.ncard_le_ncard himage (Finset.finite_toSet _)
    _ = 2 ^ A.numStates := by rw [Set.ncard_coe_finset, Finset.card_range]

/-- Words lead to one state exactly if they lead to one set. -/
theorem determinize_path_eq_iff {u v : List String} {i j : State} (hu : A.determinize.Path 0 u i)
    (hv : A.determinize.Path 0 v j) : i = j ↔ A.configuration u = A.configuration v := by
  have hN := determinize_numbers A
  have hi := found_of_after?_determinize ((path_iff_after? hN.deterministic_transitions).1 hu)
  have hj := found_of_after?_determinize ((path_iff_after? hN.deterministic_transitions).1 hv)
  constructor
  · rintro rfl
    exact Option.some.inj (hi.symm.trans hj)
  · intro h
    rw [h] at hi
    exact hN.indexed.position_unique hi hj

/-- If related sets are found in step and agree on whether they accept, the results are the same but for names. -/
theorem determinize_sameUpToNames_of_inStep {R : StateSet → StateSet → Prop}
    (hstep : Exploration.InStep R A.subsets B.subsets) (halphabet : A.alphabet = B.alphabet)
    (hmeets : ∀ S T, R S T → S.meets A.finals = T.meets B.finals) : A.determinize.SameUpToNames B.determinize := by
  refine ⟨hstep.size_eq, halphabet, rfl, StateSet.ext fun i => ?_, ?_⟩
  · have hfound := hstep.found i
    generalize hS : A.subsets.found[i]? = S at hfound
    generalize hT : B.subsets.found[i]? = T at hfound
    cases hfound with
    | none =>
      change (StateSet.below _ _).contains i = (StateSet.below _ _).contains i
      simp [hS, hT]
    | some h => rw [contains_finals_determinize hS, contains_finals_determinize hT, hmeets _ _ h]
  · change (Transitions.ofRows _).toList = (Transitions.ofRows _).toList
    rw [hstep.rows_eq]

section Deterministic

variable (h : D.transitions.isDeterministic)

include h

theorem closure_of_isDeterministic (S : StateSet) : D.closure S = S := by
  refine StateSet.eq_of_contains_iff fun q => ?_
  rw [contains_closure]
  simp only [path_iff_after? h, after?_nil, Option.some.injEq, exists_eq_right]

private theorem move_singleton (q : State) (a : SymbolId) :
    D.move (.singleton q) a = (D.next? q a).elim ∅ StateSet.singleton := by
  refine StateSet.eq_of_contains_iff fun r => ?_
  rw [move, closure_of_isDeterministic h, edgesOn, StateSet.contains_image]
  have hedge : (∃ p, (StateSet.singleton q).contains p ∧ (D.transitions.targets p (.symbol a)).contains r) ↔
      D.next? q a = some r := by
    rw [next?_eq_some_iff h]
    simp [Transitions.contains]
  rw [hedge]
  cases D.next? q a <;> simp

private theorem nextSubsets_singleton (q : State) :
    D.nextSubsets (.singleton q) = D.alphabet.ids.map fun a => (D.next? q a).map StateSet.singleton := by
  refine List.map_congr_left fun a _ => ?_
  rw [move_singleton h]
  cases D.next? q a <;> simp [StateSet.isEmpty_iff]

end Deterministic

-- A singleton of the state that stands for the set.
private def Stands (A : Automaton) (S T : StateSet) : Prop :=
  ∃ i : State, A.subsets.found[i]? = some S ∧ T = .singleton i

private theorem stands_biUnique (A : Automaton) : Relator.BiUnique (Stands A) := by
  have hN := determinize_numbers A
  constructor
  · rintro S _ S' ⟨i, hi, rfl⟩ ⟨j, hj, he⟩
    obtain rfl := StateSet.singleton_inj.1 he
    exact Option.some.inj (hi.symm.trans hj)
  · rintro S _ _ ⟨i, hi, rfl⟩ ⟨j, hj, rfl⟩
    rw [hN.indexed.position_unique hi hj]

private theorem stands_next (A : Automaton) (S T : StateSet) (h : Stands A S T) :
    List.Forall₂ (Option.Rel (Stands A)) (A.nextSubsets S) (A.determinize.nextSubsets T) := by
  have hN := determinize_numbers A
  obtain ⟨i, hi, rfl⟩ := h
  rw [nextSubsets_singleton hN.deterministic_transitions]
  have hlength : (A.nextSubsets S).length = A.alphabet.ids.length := List.length_map _
  refine List.forall₂_iff_get.2 ⟨by rw [hlength, List.length_map]; rfl, fun a ha ha' => ?_⟩
  have hnext := hN.next?_rel hi (List.getElem?_eq_getElem ha)
  simp only [List.get_eq_getElem, List.getElem_map, Alphabet.ids, List.getElem_range]
  generalize (A.nextSubsets S)[a] = s at hnext
  generalize A.determinize.next? i a = j at hnext
  cases hnext with
  | none => exact .none
  | some hj => exact .some ⟨_, hj, rfl⟩

/-- Determinizing what is deterministic already renumbers nothing. -/
theorem determinize_determinize (A : Automaton) : A.determinize.determinize.SameUpToNames A.determinize := by
  have hN := determinize_numbers A
  have hstart : Stands A (A.closure A.starts) (A.determinize.closure A.determinize.starts) :=
    ⟨0, hN.first, closure_of_isDeterministic hN.deterministic_transitions _⟩
  have hstep : Exploration.InStep (Stands A) A.subsets A.determinize.subsets :=
    Exploration.explore_inStep StateSet.bits_injective StateSet.bits_injective (stands_biUnique A) (stands_next A)
      hstart (subsets_complete A).finished (subsets_complete A.determinize).finished
  refine (determinize_sameUpToNames_of_inStep hstep rfl ?_).symm
  rintro S _ ⟨i, hi, rfl⟩
  rw [StateSet.singleton_meets, contains_finals_determinize hi]

/-- The states of a determinized automaton are the accessible sets, one state for each: words lead to one state if and
only if they lead to one set, so there are at most as many states as sets. Every state is reached from the first, which
is the only start, and states are numbered in the order of discovery. To determinize again changes nothing but names. -/
theorem determinize_accessible (A : Automaton) :
    A.determinize.starts = .singleton 0 ∧
      (∀ i < A.determinize.numStates, ∃ word, A.determinize.Path 0 word i) ∧
      (∀ u v i j, A.determinize.Path 0 u i → A.determinize.Path 0 v j →
        (i = j ↔ A.configuration u = A.configuration v)) ∧
      A.determinize.numStates = A.accessible.ncard ∧
      (A.WellFormed → A.determinize.numStates ≤ 2 ^ A.numStates) ∧
      A.determinize.InDiscoveryOrder ∧ A.determinize.determinize.SameUpToNames A.determinize := by
  refine ⟨rfl, fun i hi => ?_, fun u v i j => determinize_path_eq_iff, numStates_determinize A, fun hA => ?_,
    (determinize_breadthFirst A).inDiscoveryOrder, determinize_determinize A⟩
  · obtain ⟨word, hword⟩ := exists_word_determinize hi
    exact ⟨word, (path_iff_after? (determinize_numbers A).deterministic_transitions).2 hword⟩
  · rw [numStates_determinize]
    exact hA.ncard_accessible_le

/-- In the linked circle of three states, words lead to two sets only. -/
theorem determinize_accessible_circle : (linkedCircle 3).WellFormed ∧
    (linkedCircle 3).accessible.ncard = 2 ∧ 2 ≤ 2 ^ 3 ∧ (∃ word, (linkedCircle 3).determinize.Path 0 word 1) ∧
    (linkedCircle 3).determinize.Path 0 [] 0 ∧ (linkedCircle 3).determinize.Path 0 ["a"] 1 ∧
    (linkedCircle 3).configuration [] ≠ (linkedCircle 3).configuration ["a"] := by
  have hwell : (linkedCircle 3).WellFormed := linkedCircle_wellFormed (by decide)
  obtain ⟨_, hreached, hsets, hcount, hbound, _, _⟩ := determinize_accessible (linkedCircle 3)
  have htwo : (linkedCircle 3).determinize.numStates = 2 := by decide +kernel
  have hdet := (determinize_numbers (linkedCircle 3)).deterministic_transitions
  have hfirst : (linkedCircle 3).determinize.Path 0 [] 0 := .nil 0
  have hsecond : (linkedCircle 3).determinize.Path 0 ["a"] 1 :=
    (path_iff_after? hdet).2 (by decide +kernel)
  refine ⟨hwell, hcount.symm.trans htwo, htwo ▸ hbound hwell, hreached 1 (by rw [htwo]; decide), hfirst, hsecond, ?_⟩
  exact mt (hsets [] ["a"] 0 1 hfirst hsecond).2 (by decide)

end RegularLanguages.Automaton
