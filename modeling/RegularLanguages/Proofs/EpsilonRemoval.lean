import RegularLanguages.Proofs.Derived
import RegularLanguages.Proofs.Embedding

/-!
Removal of epsilon edges keeps the words accepted from every state: the edges before each symbol go into the
transitions, and those after the last symbol into the final states.
-/
namespace RegularLanguages.Automaton

variable {A : Automaton}

theorem not_edge_epsilon_removeEpsilon (p q : State) : ¬ A.removeEpsilon.Edge p .epsilon q := by
  intro h
  obtain ⟨_, _, _, hlabel, _⟩ := contains_removeEpsilon.1 (edge_epsilon_iff.1 h)
  cases hlabel

theorem hasEpsilon_removeEpsilon (A : Automaton) : A.removeEpsilon.transitions.hasEpsilon = false := by
  rw [Bool.eq_false_iff, Ne, Transitions.hasEpsilon_iff]
  rintro ⟨p, q, h⟩
  exact not_edge_epsilon_removeEpsilon p q (edge_epsilon_iff.2 h)

theorem path_nil_removeEpsilon {p q : State} : A.removeEpsilon.Path p [] q ↔ p = q := by
  constructor
  · intro h
    cases h with
    | nil => rfl
    | epsilon edge => exact absurd edge (not_edge_epsilon_removeEpsilon _ _)
  · rintro rfl
    exact .nil p

theorem contains_finals_removeEpsilon {p : State} : A.removeEpsilon.finals.contains p ↔
    p < A.numStates ∧ ∃ q, A.finals.contains q ∧ A.Path p [] q := by
  change (StateSet.below _ _).contains p ↔ _
  rw [StateSet.contains_below, Bool.and_eq_true, decide_eq_true_eq]
  refine and_congr_right fun hp => ?_
  have hbypass : ((Array.range A.numStates).map A.bypass)[p]? = some (A.bypass p) := by simp [hp]
  rw [hbypass, Option.any_some, bypass, StateSet.meets_iff]
  simp [contains_closure, and_comm]

private theorem edge_symbol_removeEpsilon {p r : State} {name : String} : A.removeEpsilon.Edge p (.symbol name) r ↔
    p < A.numStates ∧ ∃ q, A.Path p [] q ∧ A.Edge q (.symbol name) r := by
  simp only [edge_symbol_iff]
  constructor
  · rintro ⟨a, ha, h⟩
    obtain ⟨hp, a', _, hlabel, q, hq, hr⟩ := contains_removeEpsilon.1 h
    cases hlabel
    exact ⟨hp, q, hq, a, ha, hr⟩
  · rintro ⟨hp, q, hq, a, ha, hr⟩
    exact ⟨a, ha, contains_removeEpsilon.2 ⟨hp, a, Alphabet.lt_size_of_id? ha, rfl, q, hq, hr⟩⟩

namespace WellFormed

private theorem mem_languageFrom_removeEpsilon (hA : A.WellFormed) {word : List String} {p : State} (hp : p < A.numStates) :
    word ∈ A.removeEpsilon.languageFrom p ↔ word ∈ A.languageFrom p := by
  induction word generalizing p with
  | nil =>
    simp only [mem_languageFrom, path_nil_removeEpsilon, exists_eq_right', contains_finals_removeEpsilon, hp,
      true_and]
  | cons name word ih =>
    simp only [cons_mem_languageFrom, path_nil_removeEpsilon, edge_symbol_removeEpsilon]
    constructor
    · rintro ⟨_, r, rfl, ⟨_, q, hq, hr⟩, hword⟩
      exact ⟨q, r, hq, hr, (ih (hA.edge_lt hr).2).1 hword⟩
    · rintro ⟨q, r, hq, hr, hword⟩
      exact ⟨p, r, rfl, ⟨hp, q, hq, hr⟩, (ih (hA.edge_lt hr).2).2 hword⟩

theorem accepts_removeEpsilon (hA : A.WellFormed) (word : List String) :
    A.removeEpsilon.accepts word = A.accepts word := by
  rw [Bool.eq_iff_iff, accepts_iff_languageFrom, accepts_iff_languageFrom]
  refine exists_congr fun p => and_congr_right fun hp => ?_
  exact hA.mem_languageFrom_removeEpsilon (hA.starts_lt p hp)

end WellFormed

/-- No epsilon edge is left, the states keep their names, the start states and the symbols stay what they are, and the
same words are accepted. -/
theorem removeEpsilon_exact (hA : A.WellFormed) :
    A.removeEpsilon.transitions.hasEpsilon = false ∧ A.removeEpsilon.numStates = A.numStates ∧
      A.removeEpsilon.names = A.names ∧ A.removeEpsilon.starts = A.starts ∧
      A.removeEpsilon.alphabet = A.alphabet ∧ ∀ word, A.removeEpsilon.accepts word = A.accepts word :=
  ⟨hasEpsilon_removeEpsilon A, rfl, rfl, rfl, rfl, hA.accepts_removeEpsilon⟩

/-- In the linked circle of three states, one letter leads to a final state only with an epsilon edge after it. -/
theorem removeEpsilon_circle : (linkedCircle 3).WellFormed ∧ (linkedCircle 3).transitions.hasEpsilon ∧
    (linkedCircle 3).removeEpsilon.transitions.hasEpsilon = false ∧
    (circle 3).accepts ["a"] = false ∧ (linkedCircle 3).removeEpsilon.accepts ["a"] := by
  have hwell : (linkedCircle 3).WellFormed := linkedCircle_wellFormed (by decide)
  obtain ⟨hepsilon, _, _, _, _, hlanguage⟩ := removeEpsilon_exact hwell
  refine ⟨hwell, by decide, hepsilon, by decide +kernel, ?_⟩
  rw [hlanguage]
  decide +kernel

end RegularLanguages.Automaton
