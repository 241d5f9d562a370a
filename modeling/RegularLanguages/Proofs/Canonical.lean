import RegularLanguages.Proofs.Derived
import RegularLanguages.Proofs.Equivalence
import RegularLanguages.Proofs.Lockstep

/-!
The minimal automaton is a canonical form: a reduced automaton whose states are numbered in breadth-first order is
determined, but for the names of states, by its alphabet and its language.
-/
namespace RegularLanguages.Automaton

variable {A B M N : Automaton}

/-- Equal but for the names of states. The transitions are listed in the same order. -/
structure SameUpToNames (M N : Automaton) : Prop where
  numStates_eq : M.numStates = N.numStates
  alphabet_eq : M.alphabet = N.alphabet
  starts_eq : M.starts = N.starts
  finals_eq : M.finals = N.finals
  toList_eq : M.transitions.toList = N.transitions.toList

theorem SameUpToNames.symm (h : M.SameUpToNames N) : N.SameUpToNames M :=
  ⟨h.numStates_eq.symm, h.alphabet_eq.symm, h.starts_eq.symm, h.finals_eq.symm, h.toList_eq.symm⟩

theorem SameUpToNames.accepts_eq (h : M.SameUpToNames N) (word : List String) :
    M.accepts word = N.accepts word := by
  have hedges : ∀ p l q, M.Edge p l q ↔ N.Edge p l q := by
    intro p l q
    refine exists_congr fun k => ?_
    rw [h.alphabet_eq, ← Transitions.mem_toList (t := ⟨p, k, q⟩), h.toList_eq, Transitions.mem_toList]
  have hpaths : ∀ p q, M.Path p word q ↔ N.Path p word q := fun p q =>
    ⟨Path.mono fun p l q => (hedges p l q).1, Path.mono fun p l q => (hedges p l q).2⟩
  rw [Bool.eq_iff_iff, accepts_iff, accepts_iff, h.starts_eq, h.finals_eq]
  simp only [hpaths]

section Alike

variable {α β : Type} {key : α → Nat} {key' : β → Nat} {next : α → List (Option α)} {next' : β → List (Option β)}
  {x : α} {y : β} {E : Exploration α} {F : Exploration β}

-- What is found stands for states that some word leads to in both automata.
private def Alike (M N : Automaton) (E : Exploration α) (F : Exploration β) (y : α) (z : β) : Prop :=
  ∃ i j : Nat, E.found[i]? = some y ∧ F.found[j]? = some z ∧ Reduced.Partners M N i j

variable (hM : M.Reduced) (hN : N.Reduced) (hlanguage : ∀ word, M.accepts word = N.accepts word)
  (hE : Numbers key next x E M) (hF : Numbers key' next' y F N)

include hM hN hlanguage hE hF

private theorem alike_biUnique : Relator.BiUnique (Alike M N E F) := by
  constructor
  · rintro y y' z ⟨i, j, hy, hz, hij⟩ ⟨i', j', hy', hz', hij'⟩
    obtain rfl := hF.indexed.position_unique hz hz'
    obtain rfl := hij.symm.right_unique hN hM (fun word => (hlanguage word).symm) hij'.symm
    exact Option.some.inj (hy.symm.trans hy')
  · rintro y z z' ⟨i, j, hy, hz, hij⟩ ⟨i', j', hy', hz', hij'⟩
    obtain rfl := hE.indexed.position_unique hy hy'
    obtain rfl := hij.right_unique hM hN hlanguage hij'
    exact Option.some.inj (hz.symm.trans hz')

private theorem alike_next (halphabet : M.alphabet = N.alphabet)
    (hlen : ∀ y ∈ E.found, (next y).length = M.alphabet.size)
    (hlen' : ∀ z ∈ F.found, (next' z).length = N.alphabet.size) (y : α) (z : β) (h : Alike M N E F y z) :
    List.Forall₂ (Option.Rel (Alike M N E F)) (next y) (next' z) := by
  obtain ⟨i, j, hy, hz, hij⟩ := h
  have hleft := hlen y (Array.mem_of_getElem? hy)
  have hright := hlen' z (Array.mem_of_getElem? hz)
  refine List.forall₂_iff_get.2 ⟨by rw [hleft, hright, halphabet], fun a ha ha' => ?_⟩
  obtain ⟨name, hname⟩ := Alphabet.exists_name (hleft ▸ ha)
  have hboth := hij.next hM hN hlanguage name
  rw [nextByName?, nextByName?, ← halphabet, hname, Option.bind_some, Option.bind_some] at hboth
  have hnext := hE.next?_rel hy (List.getElem?_eq_getElem ha)
  have hnext' := hF.next?_rel hz (List.getElem?_eq_getElem ha')
  rw [List.get_eq_getElem, List.get_eq_getElem]
  generalize (next y)[a] = s at hnext
  generalize (next' z)[a] = t at hnext'
  generalize M.next? i a = p at hboth hnext
  generalize N.next? j a = q at hboth hnext'
  cases hboth with
  | none =>
    cases hnext
    cases hnext'
    exact .none
  | @some p q hpq =>
    cases hnext with
    | some hs =>
      cases hnext' with
      | some ht => exact .some ⟨p, q, hs, ht, hpq⟩

end Alike

/-- Reduced automata that are numbered in breadth-first order are the same if they have the same symbols and accept
the same words: in both the states are found in the order in which words come to them. -/
theorem Reduced.sameUpToNames (hM : M.Reduced) (hN : N.Reduced) (hMfirst : M.BreadthFirst)
    (hNfirst : N.BreadthFirst) (hMfinals : ∀ q, M.finals.contains q → q < M.numStates)
    (hNfinals : ∀ q, N.finals.contains q → q < N.numStates) (halphabet : M.alphabet = N.alphabet)
    (hlanguage : ∀ word, M.accepts word = N.accepts word) : M.SameUpToNames N := by
  obtain ⟨α, key, next, bound, x, hkey, hE, hlen⟩ := hMfirst
  obtain ⟨β, key', next', bound', y, hkey', hF, hlen'⟩ := hNfirst
  have hstep := Exploration.explore_inStep hkey hkey' (alike_biUnique hM hN hlanguage hE hF)
    (alike_next hM hN hlanguage hE hF halphabet hlen hlen') ⟨0, 0, hE.first, hF.first, [], rfl, rfl⟩
    hE.finished hF.finished
  have hnumStates : M.numStates = N.numStates := by
    rw [hE.numStates_eq, hF.numStates_eq, hstep.size_eq]
  refine ⟨hnumStates, halphabet, hE.starts_eq.trans hF.starts_eq.symm, StateSet.ext fun q => ?_, ?_⟩
  · by_cases hq : q < M.numStates
    · have hfound := hstep.found q
      rw [hE.numStates_eq] at hq
      rw [Array.getElem?_eq_getElem hq] at hfound
      generalize hz : (Exploration.explore key' next' bound' y).found[q]? = z at hfound
      cases hfound with
      | some hsame =>
        obtain ⟨i, j, hi, hj, hij⟩ := hsame
        obtain rfl := hE.indexed.position_unique hi (Array.getElem?_eq_getElem hq)
        obtain rfl := hF.indexed.position_unique hj hz
        exact hij.acceptsFrom_eq hM hN hlanguage []
    · rw [Bool.eq_false_iff.2 (mt (hMfinals q) hq), Bool.eq_false_iff.2 (mt (hNfinals q) (hnumStates ▸ hq))]
  · rw [hE.transitions_eq, hF.transitions_eq, hstep.rows_eq]

/-- Minimal automata over the same symbols are the same, but for names, when the languages are. -/
theorem minimize_sameUpToNames (hA : A.isDeterministic) (hB : B.isDeterministic)
    (halphabet : A.alphabet = B.alphabet) (hlanguage : ∀ word, A.accepts word = B.accepts word) :
    ∃ M N, A.minimize = .ok M ∧ B.minimize = .ok N ∧ M.SameUpToNames N := by
  obtain ⟨M, hM, hMreduced, hMalphabet, hMlanguage⟩ := minimize_reduced hA
  obtain ⟨N, hN, hNreduced, hNalphabet, hNlanguage⟩ := minimize_reduced hB
  refine ⟨M, N, hM, hN, hMreduced.sameUpToNames hNreduced (minimize_breadthFirst hM) (minimize_breadthFirst hN)
    (minimize_wellFormed hM).finals_lt (minimize_wellFormed hN).finals_lt ?_ fun word => ?_⟩
  · rw [hMalphabet, halphabet, hNalphabet]
  · rw [hMlanguage, hlanguage, hNlanguage]

/-- Minimization answers a canonical form of the language: deterministic automata over the same symbols accept the
same words exactly when their minimal automata are the same but for the names of states. Minimizing once more, or
completing before, changes nothing else, though completion can fail where minimization does not. -/
theorem minimize_canonical (hA : A.isDeterministic) (hB : B.isDeterministic) (halphabet : A.alphabet = B.alphabet) :
    ∃ M N, A.minimize = .ok M ∧ B.minimize = .ok N ∧
      ((∀ word, A.accepts word = B.accepts word) ↔ M.SameUpToNames N) ∧
      (∃ M', M.minimize = .ok M' ∧ M'.SameUpToNames M) ∧
      (A.WellFormed → A.Full ∧ A.complete = .error .counterOverflow ∨
        ∃ C M', A.complete = .ok C ∧ C.minimize = .ok M' ∧ M'.SameUpToNames M) := by
  obtain ⟨M, hM, hMreduced, hMalphabet, hMlanguage⟩ := minimize_reduced hA
  obtain ⟨N, hN, _, _, hNlanguage⟩ := minimize_reduced hB
  refine ⟨M, N, hM, hN, ⟨fun hlanguage => ?_, fun h word => ?_⟩, ?_, fun hwell => ?_⟩
  · obtain ⟨M', N', hM', hN', h⟩ := minimize_sameUpToNames hA hB halphabet hlanguage
    cases hM.symm.trans hM'
    cases hN.symm.trans hN'
    exact h
  · rw [← hMlanguage, h.accepts_eq, hNlanguage]
  · obtain ⟨M', M'', hM', hM'', h⟩ := minimize_sameUpToNames hMreduced.deterministic hA hMalphabet hMlanguage
    cases hM.symm.trans hM''
    exact ⟨M', hM', h⟩
  · refine A.complete_cases.imp_right fun ⟨_, hcomplete⟩ => ?_
    obtain ⟨M', M'', hM', hM'', h⟩ := minimize_sameUpToNames (hwell.completion_isDeterministic hA) hA
      (alphabet_completion A) hwell.accepts_completion
    cases hM.symm.trans hM''
    exact ⟨A.completion, M', hcomplete, hM', h⟩

theorem minimize_canonical_circle : (circle 4).isDeterministic ∧ (circle 2).isDeterministic ∧
    (circle 4).alphabet = (circle 2).alphabet ∧ (circle 4).WellFormed ∧
    ∃ M N C M', (circle 4).minimize = .ok M ∧ (circle 2).minimize = .ok N ∧
      (circle 4).complete = .ok C ∧ C.minimize = .ok M' ∧
      ((∀ word, (circle 4).accepts word = (circle 2).accepts word) ↔ M.SameUpToNames N) ∧ M'.SameUpToNames M := by
  have hfour : (circle 4).isDeterministic := by decide
  have htwo : (circle 2).isDeterministic := by decide
  have hwell : (circle 4).WellFormed := circle_wellFormed (by decide)
  obtain ⟨M, N, hM, hN, hsame, _, hcomplete⟩ := minimize_canonical hfour htwo rfl
  rcases hcomplete hwell with ⟨⟨_, hmany⟩, _⟩ | ⟨C, M', hC, hM', h⟩
  · exact absurd hmany (by decide)
  · exact ⟨hfour, htwo, rfl, hwell, M, N, C, M', hM, hN, hC, hM', hsame, h⟩

end RegularLanguages.Automaton
