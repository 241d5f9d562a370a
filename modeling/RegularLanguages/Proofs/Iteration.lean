import RegularLanguages.Proofs.Embedding

/-!
The star of an automaton accepts the words that are cut into words of the automaton.
-/
namespace RegularLanguages.Automaton

open Computability

variable {A : Automaton}

/-- The links of a loop leave its entry and the final states, and lead to its exit and the start states. -/
theorem loop_linkedBy (A : Automaton) :
    LinkedBy (fun p q => (p = A.numStates ∨ A.finals.contains p) ∧ (q = A.numStates + 1 ∨ A.starts.contains q))
      ((∅ : Automaton).embed A) A.loop := by
  have hlinks := (linkAll_linkedBy ((∅ : Automaton).embed A) [A.numStates]
    ((A.numStates + 1) :: A.starts.toList)).trans
      (linkAll_linkedBy _ A.finals.toList (A.starts.toList ++ [A.numStates + 1]))
  intro p l q
  -- A loop has the edges of what is linked; it differs in the number of states, the starts and the finals.
  refine (hlinks p l q).trans (or_congr_right (and_congr_right fun _ => ?_))
  simp only [List.mem_cons, List.mem_append, List.not_mem_nil, or_false, StateSet.mem_toList]
  rw [or_comm (a := A.starts.contains q = true), ← or_and_right]

/-- A run through the loop goes from the entry to the exit, one word of the automaton for each time round. -/
theorem WellFormed.accepts_loop_iff (hA : A.WellFormed) {word : List String} :
    A.loop.accepts word ↔ ∃ pieces : List (List String), word = pieces.flatten ∧ ∀ piece ∈ pieces, A.accepts piece := by
  have hcount := numStates_embed_empty A
  have hends : A.loop.accepts word ↔ A.loop.Path A.numStates word (A.numStates + 1) := by
    have hstart : A.loop.starts = .singleton A.numStates := rfl
    have hfinal : A.loop.finals = .singleton (A.numStates + 1) := rfl
    rw [accepts_iff, hstart, hfinal]
    simp
  rw [hends, (loop_linkedBy A).path_iff_hops, hops_loop hA.embed_empty hcount.le (hcount.le.trans (Nat.le_succ _))
    (Nat.succ_ne_self _).symm (fun p hp => hcount ▸ hA.starts_lt p hp) fun _ _ => Iff.rfl, Language.mem_kstar]
  simp only [mem_languageBetween_embed_empty hA]

/-- The star fails only when its two additional states cannot be numbered. Otherwise it accepts the words that are
cut into any number of pieces, each of them accepted by `A`. -/
theorem kleeneStar_exact (hA : A.WellFormed) :
    maxStates < A.numStates + 2 ∧ A.kleeneStar = .error .counterOverflow ∨
      A.numStates + 2 ≤ maxStates ∧ ∃ S, A.kleeneStar = .ok S ∧
        ∀ word, S.accepts word ↔
          ∃ pieces : List (List String), word = pieces.flatten ∧ ∀ piece ∈ pieces, A.accepts piece := by
  apply withinBounds_cases
  intro word
  exact hA.accepts_loop_iff

/-- The circle of three states rejects four letters, which are two accepted words of two; a single letter cannot be cut
into accepted words. -/
theorem kleeneStar_circle : (circle 3).WellFormed ∧ ∃ S, (circle 3).kleeneStar = .ok S ∧
    (circle 3).accepts ["a", "a", "a", "a"] = false ∧ S.accepts ["a", "a", "a", "a"] ∧ S.accepts ["a"] = false := by
  have hwell : (circle 3).WellFormed := circle_wellFormed (by decide)
  rcases kleeneStar_exact hwell with ⟨hmany, _⟩ | ⟨_, S, hS, hlanguage⟩
  · exact absurd hmany (by decide)
  · refine ⟨hwell, S, hS, by decide +kernel, ?_, Bool.eq_false_iff.2 fun h => ?_⟩
    · exact (hlanguage _).2 ⟨[["a", "a"], ["a", "a"]], rfl, by decide +kernel⟩
    · obtain ⟨pieces, hpieces, haccepts⟩ := (hlanguage _).1 h
      obtain ⟨front, back, rfl, _, _⟩ := List.flatten_eq_singleton_iff.1 hpieces.symm
      exact absurd (haccepts ["a"] (by simp)) (by decide +kernel)

end RegularLanguages.Automaton
