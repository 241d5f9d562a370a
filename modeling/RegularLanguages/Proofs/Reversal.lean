import RegularLanguages.Proofs.Canonical
import RegularLanguages.Proofs.Listing
import RegularLanguages.Proofs.Reachability

/-!
Reversal turns paths round, and two reversals lead back. If all states of a deterministic automaton can be reached, the
subset construction on its reversal is reduced, so determinizing two times, each time after reversal, leads to the
minimal automaton.
-/
namespace RegularLanguages.Automaton

variable {A D : Automaton}

theorem edge_reverse {p q : State} {l : Label String} : A.reverse.Edge q l p ↔ A.Edge p l q :=
  exists_congr fun _ => and_congr_right fun _ => contains_reverse

theorem Path.reverse {p q : State} {word : List String} (h : A.Path p word q) :
    A.reverse.Path q word.reverse p := by
  induction h with
  | nil => exact .nil _
  | @epsilon p r q word edge _ ih =>
    have hlast : A.reverse.Path r [] p := .single_epsilon (edge_reverse.2 edge)
    rw [← List.append_nil word.reverse]
    exact ih.append hlast
  | @symbol p r q name word edge _ ih =>
    have hlast : A.reverse.Path r [name] p := .single_symbol (edge_reverse.2 edge)
    rw [List.reverse_cons]
    exact ih.append hlast

theorem path_reverse_iff {p q : State} {word : List String} :
    A.reverse.Path q word p ↔ A.Path p word.reverse q := by
  constructor
  · intro h
    exact h.reverse.mono fun _ _ _ edge => edge_reverse.1 (edge_reverse.1 edge)
  · intro h
    have hturned := h.reverse
    rwa [List.reverse_reverse] at hturned

theorem accepts_reverse (A : Automaton) (word : List String) :
    A.reverse.accepts word = A.accepts word.reverse := by
  rw [Bool.eq_iff_iff, accepts_iff, accepts_iff]
  simp only [path_reverse_iff]
  constructor
  · rintro ⟨q, p, hq, hp, h⟩
    exact ⟨p, q, hp, hq, h⟩
  · rintro ⟨p, q, hp, hq, h⟩
    exact ⟨q, p, hq, hp, h⟩

private theorem toList_reverse_reverse (A : Automaton) :
    A.reverse.reverse.transitions.toList.Perm A.transitions.toList := by
  rw [Transitions.toList_perm_iff]
  intro p l q
  rw [contains_reverse, contains_reverse]

/-- The reversal accepts the words of the automaton read backwards, and reversing it again restores all but the order
of the transitions. -/
theorem reverse_exact (A : Automaton) :
    (∀ word, A.reverse.accepts word.reverse = A.accepts word) ∧
      A.reverse.reverse.numStates = A.numStates ∧ A.reverse.reverse.names = A.names ∧
      A.reverse.reverse.alphabet = A.alphabet ∧ A.reverse.reverse.starts = A.starts ∧
      A.reverse.reverse.finals = A.finals ∧
      A.reverse.reverse.transitions.toList.Perm A.transitions.toList := by
  refine ⟨fun word => ?_, ?_, ?_, ?_, ?_, ?_, toList_reverse_reverse A⟩
  · rw [accepts_reverse, List.reverse_reverse]
  all_goals simp only [reverse]

-- Two reversals put the transitions to one state next to each other.
example : ({ circle 3 with transitions := .ofList [⟨0, .epsilon, 1⟩, ⟨1, .epsilon, 0⟩, ⟨2, .epsilon, 1⟩] } :
    Automaton).reverse.reverse.transitions.toList = [⟨0, .epsilon, 1⟩, ⟨2, .epsilon, 1⟩, ⟨1, .epsilon, 0⟩] := by
  decide +kernel

section Brzozowski

private theorem contains_configuration_reverse (hdet : D.isDeterministic) {front word : List String} {p : State}
    (hp : D.after? D.starts.first? front = some p) :
    (D.reverse.configuration word).contains p ↔ D.accepts (front ++ word.reverse) := by
  rw [contains_configuration, accepts_eq_acceptsFrom hdet, acceptsFrom_append, hp, acceptsFrom, Option.any_eq_true]
  simp only [path_reverse_iff, path_iff_after? (transitions_isDeterministic hdet)]
  constructor
  · rintro ⟨q, hq, h⟩
    exact ⟨q, h, hq⟩
  · rintro ⟨q, h, hq⟩
    exact ⟨q, hq, h⟩

private theorem acceptsFrom_determinize_reverse {word : List String} {i : State}
    (hi : D.reverse.determinize.after? (some 0) word = some i) (rest : List String) :
    D.reverse.determinize.acceptsFrom (some i) rest = D.accepts (rest.reverse ++ word.reverse) := by
  have hstart := (determinize_numbers D.reverse).first?_starts
  rw [← hi, ← acceptsFrom_append, ← hstart, ← accepts_eq_acceptsFrom (determinize_isDeterministic _),
    accepts_determinize, accepts_reverse, List.reverse_append]

variable (hD : D.WellFormed) (hdet : D.isDeterministic)
  (hreached : ∀ q < D.numStates, ∃ word, D.after? D.starts.first? word = some q)

include hD hdet hreached

private theorem determinize_reverse_live {i j : State} {a : SymbolId}
    (hj : D.reverse.determinize.next? i a = some j) :
    ∃ word, D.reverse.determinize.acceptsFrom (some j) word := by
  -- A word is accepted from every state but an empty one: against some word that leads to a member.
  obtain ⟨word, hword⟩ := exists_word_determinize ((determinize_wellFormed D.reverse).next_lt hj)
  obtain ⟨p, hp⟩ := nonempty_of_next?_determinize hj (found_of_after?_determinize hword)
  obtain ⟨front, hfront⟩ := hreached p (hD.reverse.configuration_lt hp)
  refine ⟨front.reverse, ?_⟩
  rw [acceptsFrom_determinize_reverse hword, List.reverse_reverse]
  exact (contains_configuration_reverse hdet hfront).1 hp

private theorem determinize_reverse_distinct {i j : State} (hi : i < D.reverse.determinize.numStates)
    (hj : j < D.reverse.determinize.numStates)
    (hsame : ∀ word, D.reverse.determinize.acceptsFrom (some i) word =
      D.reverse.determinize.acceptsFrom (some j) word) : i = j := by
  -- States from which the same words are accepted stand for the same states of `D`: they are told apart by the
  -- words that lead to their members.
  obtain ⟨u, hu⟩ := exists_word_determinize hi
  obtain ⟨v, hv⟩ := exists_word_determinize hj
  have hresidual : ∀ front, D.accepts (front ++ u.reverse) = D.accepts (front ++ v.reverse) := by
    intro front
    have h := hsame front.reverse
    rwa [acceptsFrom_determinize_reverse hu, acceptsFrom_determinize_reverse hv, List.reverse_reverse] at h
  have hmembers : D.reverse.configuration u = D.reverse.configuration v := by
    refine StateSet.ext fun p => ?_
    by_cases hp : p < D.numStates
    · obtain ⟨front, hfront⟩ := hreached p hp
      rw [Bool.eq_iff_iff, contains_configuration_reverse hdet hfront, contains_configuration_reverse hdet hfront,
        hresidual]
    · rw [Bool.eq_false_iff.2 (mt hD.reverse.configuration_lt hp),
        Bool.eq_false_iff.2 (mt hD.reverse.configuration_lt hp)]
  have hfoundi := found_of_after?_determinize hu
  have hfoundj := found_of_after?_determinize hv
  rw [← hmembers] at hfoundj
  exact (determinize_numbers D.reverse).indexed.position_unique hfoundi hfoundj

/-- If words lead to all states of a deterministic automaton, its determinized reversal is reduced. -/
theorem determinize_reverse_reduced : D.reverse.determinize.Reduced where
  deterministic := determinize_isDeterministic _
  first?_starts := (determinize_numbers _).first?_starts
  numStates_pos := (Array.getElem?_eq_some_iff.1 (determinize_numbers _).first).1
  next_lt _ _ _ hj := (determinize_wellFormed _).next_lt hj
  next_live _ _ _ hj := determinize_reverse_live hD hdet hreached hj
  reached _ hi := exists_word_determinize hi
  distinct _ hi _ hj hsame := determinize_reverse_distinct hD hdet hreached hi hj hsame

end Brzozowski

/-- Determinizing two times, each time after reversal, leads to the same automaton as minimization, but for the names
of states. -/
theorem double_reversal_canonical (A : Automaton) : ∃ M, A.determinize.minimize = .ok M ∧
    M.SameUpToNames A.reverse.determinize.reverse.determinize := by
  obtain ⟨M, hM, hreduced, halphabet, hlanguage⟩ := minimize_reduced (determinize_isDeterministic A)
  have hdouble : A.reverse.determinize.reverse.determinize.Reduced := by
    refine determinize_reverse_reduced (determinize_wellFormed _) (determinize_isDeterministic _) fun q hq => ?_
    rw [(determinize_numbers A.reverse).first?_starts]
    exact exists_word_determinize hq
  refine ⟨M, hM, hreduced.sameUpToNames hdouble (minimize_breadthFirst hM) (determinize_breadthFirst _)
    (minimize_wellFormed hM).finals_lt (determinize_wellFormed _).finals_lt halphabet fun word => ?_⟩
  rw [hlanguage, accepts_determinize, accepts_determinize, accepts_reverse, accepts_determinize, accepts_reverse,
    List.reverse_reverse]

end RegularLanguages.Automaton
