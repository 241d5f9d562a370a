import RegularLanguages.Automaton.Determinization
import RegularLanguages.Proofs.Runs
import RegularLanguages.Proofs.WellFormed

/-!
Completion sends what is missing to a state from which nothing is accepted, so it keeps the language, and keeps
deterministic automata deterministic.
-/
namespace RegularLanguages.Automaton

variable {A : Automaton}

theorem mem_missing {q : State} {a : SymbolId} : (q, a) ∈ A.missing ↔
    q < A.numStates ∧ a < A.alphabet.size ∧ A.transitions.get? q (.symbol a) = none := by
  unfold missing
  split
  · rename_i hsize
    simp [hsize]
  · simp only [List.mem_flatMap, List.mem_range, List.mem_map, List.mem_filter, Alphabet.ids,
      Option.isNone_iff_eq_none, Prod.mk.injEq]
    constructor
    · rintro ⟨_, hq, _, ⟨ha, hnone⟩, rfl, rfl⟩
      exact ⟨hq, ha, hnone⟩
    · rintro ⟨hq, ha, hnone⟩
      exact ⟨q, hq, a, ⟨ha, hnone⟩, rfl, rfl⟩

def Gapless (A : Automaton) : Prop :=
  ∀ q < A.numStates, ∀ a < A.alphabet.size, ∃ r, A.transitions.contains q (.symbol a) r

theorem missing_eq_nil_iff : A.missing = [] ↔ A.Gapless := by
  rw [List.eq_nil_iff_forall_not_mem]
  constructor
  · intro h q hq a ha
    rw [← Transitions.isSome_get?_iff, Option.isSome_iff_ne_none]
    intro hnone
    exact h (q, a) (mem_missing.2 ⟨hq, ha, hnone⟩)
  · rintro h ⟨q, a⟩ hmem
    obtain ⟨hq, ha, hnone⟩ := mem_missing.1 hmem
    have hsome := Transitions.isSome_get?_iff.2 (h q hq a ha)
    rw [hnone] at hsome
    cases hsome

/-- What completion answers when there is room for a sink. -/
def completion (A : Automaton) : Automaton := if A.missing = [] then A else A.withSink A.missing

theorem completion_of_missing_eq_nil (h : A.missing = []) : A.completion = A := if_pos h

@[simp] theorem alphabet_completion (A : Automaton) : A.completion.alphabet = A.alphabet := by
  rw [completion]
  split <;> rfl

@[simp] theorem starts_completion (A : Automaton) : A.completion.starts = A.starts := by
  rw [completion]
  split <;> rfl

@[simp] theorem finals_completion (A : Automaton) : A.completion.finals = A.finals := by
  rw [completion]
  split <;> rfl

@[simp] theorem names_completion (A : Automaton) : A.completion.names = A.names := by
  rw [completion]
  split <;> rfl

theorem numStates_completion (A : Automaton) :
    A.completion.numStates = if A.missing = [] then A.numStates else A.numStates + 1 := by
  rw [completion]
  split <;> rfl

/-- The sink takes what is missing, and what reads a symbol in the sink. -/
theorem contains_completion {p q : State} {l : Label SymbolId} :
    A.completion.transitions.contains p l q ↔ A.transitions.contains p l q ∨
      A.missing ≠ [] ∧ q = A.numStates ∧
        ∃ a < A.alphabet.size, l = .symbol a ∧ ((p, a) ∈ A.missing ∨ p = A.numStates) := by
  by_cases hne : A.missing = []
  · simp [completion_of_missing_eq_nil hne, hne]
  · have htransitions : A.completion.transitions = A.transitions.addAll
        (A.missing.map (fun m => ⟨m.1, .symbol m.2, A.numStates⟩) ++
          A.alphabet.ids.map fun a => ⟨A.numStates, .symbol a, A.numStates⟩) := by
      rw [completion, if_neg hne]
      rfl
    simp only [htransitions, Transitions.contains_addAll, List.mem_append, List.mem_map, Prod.exists,
      Transition.mk.injEq, Alphabet.ids, List.mem_range, hne, ne_eq, not_false_eq_true, true_and]
    refine or_congr_right ?_
    constructor
    · rintro (⟨_, a, hm, rfl, rfl, rfl⟩ | ⟨a, ha, rfl, rfl, rfl⟩)
      · exact ⟨rfl, a, (mem_missing.1 hm).2.1, rfl, Or.inl hm⟩
      · exact ⟨rfl, a, ha, rfl, Or.inr rfl⟩
    · rintro ⟨rfl, a, ha, rfl, hm | rfl⟩
      · exact Or.inl ⟨p, a, hm, rfl, rfl, rfl⟩
      · exact Or.inr ⟨a, ha, rfl, rfl, rfl⟩

/-- Nothing is missing after completion, from the sink neither. -/
theorem completion_gapless (A : Automaton) : A.completion.Gapless := by
  intro q hq a ha
  rw [alphabet_completion] at ha
  by_cases hold : ∃ r, A.transitions.contains q (.symbol a) r
  · obtain ⟨r, hr⟩ := hold
    exact ⟨r, contains_completion.2 (Or.inl hr)⟩
  · have hnone : A.transitions.get? q (.symbol a) = none := by
      rwa [← Transitions.isSome_get?_iff, Option.not_isSome_iff_eq_none] at hold
    have hmissing : A.missing ≠ [] ∧ ((q, a) ∈ A.missing ∨ q = A.numStates) := by
      rw [numStates_completion] at hq
      split at hq
      · rename_i hnil
        have hmem := mem_missing.2 ⟨hq, ha, hnone⟩
        rw [hnil] at hmem
        cases hmem
      · rename_i hne
        refine ⟨hne, ?_⟩
        rcases Nat.lt_succ_iff_lt_or_eq.1 hq with hq | rfl
        · exact Or.inl (mem_missing.2 ⟨hq, ha, hnone⟩)
        · exact Or.inr rfl
    exact ⟨A.numStates, contains_completion.2 (Or.inr ⟨hmissing.1, rfl, a, ha, rfl, hmissing.2⟩)⟩

/-- An automaton stays as it is exactly when nothing is missing, since the sink would be one state more. -/
theorem completion_eq_self_iff : A.completion = A ↔ A.Gapless := by
  rw [← missing_eq_nil_iff]
  refine ⟨fun h => ?_, completion_of_missing_eq_nil⟩
  by_contra hne
  have hcount := numStates_completion A
  rw [h, if_neg hne] at hcount
  exact Nat.succ_ne_self _ hcount.symm

/-- Something is missing, and no number is left for a sink. -/
def Full (A : Automaton) : Prop := ¬ A.Gapless ∧ maxStates ≤ A.numStates

theorem complete_of_gapless (h : A.Gapless) : A.complete = .ok A := by
  rw [complete, missing_eq_nil_iff.2 h]
  rfl

/-- Completion fails exactly when there is no room for the sink that it needs. -/
theorem complete_cases (A : Automaton) :
    A.Full ∧ A.complete = .error .counterOverflow ∨ ¬ A.Full ∧ A.complete = .ok A.completion := by
  by_cases hgapless : A.Gapless
  · rw [completion_eq_self_iff.2 hgapless]
    exact Or.inr ⟨fun hfull => hfull.1 hgapless, complete_of_gapless hgapless⟩
  · have hmissing : A.missing ≠ [] := mt missing_eq_nil_iff.1 hgapless
    rw [complete, if_neg (mt List.isEmpty_iff.1 hmissing), completion, if_neg hmissing]
    rcases Nat.lt_or_ge A.numStates maxStates with hroom | hmany
    · exact Or.inr ⟨fun hfull => Nat.not_le.2 hroom hfull.2, withinBounds_of_le hroom⟩
    · exact Or.inl ⟨⟨hgapless, hmany⟩, withinBounds_of_lt (Nat.lt_succ_of_le hmany)⟩

theorem of_complete {C : Automaton} (h : A.complete = .ok C) : A.completion = C := by
  rcases complete_cases A with ⟨_, hcomplete⟩ | ⟨_, hcomplete⟩
  · cases hcomplete.symm.trans h
  · exact Except.ok.inj (hcomplete.symm.trans h)

/-- `C` is `A` with at most one state more, which is not final and leads only to itself. Nothing else is new but
transitions to that state. -/
structure AddsSink (A C : Automaton) : Prop where
  alphabet_eq : C.alphabet = A.alphabet
  names_eq : C.names = A.names
  starts_eq : C.starts = A.starts
  finals_eq : C.finals = A.finals
  numStates_eq : C.numStates = A.numStates ∨ C.numStates = A.numStates + 1
  old : ∀ p l q, q < A.numStates → (C.transitions.contains p l q ↔ A.transitions.contains p l q)
  sink : ∀ q, A.numStates ≤ q → q < C.numStates →
    C.finals.contains q = false ∧ ∀ l r, C.transitions.contains q l r → r = q

namespace WellFormed

theorem completion_addsSink (hA : A.WellFormed) : A.AddsSink A.completion where
  alphabet_eq := alphabet_completion A
  names_eq := names_completion A
  starts_eq := starts_completion A
  finals_eq := finals_completion A
  numStates_eq := by
    rw [numStates_completion]
    split
    · exact Or.inl rfl
    · exact Or.inr rfl
  old p l q hq := by
    rw [contains_completion]
    exact or_iff_left fun ⟨_, he, _⟩ => Nat.ne_of_lt hq he
  sink q hge hlt := by
    have hq : q = A.numStates := by
      rw [numStates_completion] at hlt
      split at hlt <;> omega
    subst hq
    refine ⟨?_, fun l r hr => ?_⟩
    · rw [finals_completion, Bool.eq_false_iff]
      exact fun h => Nat.lt_irrefl _ (hA.finals_lt _ h)
    · rcases contains_completion.1 hr with hr | ⟨_, he, _⟩
      · exact absurd (hA.transitions _ _ _ hr).1 (Nat.lt_irrefl _)
      · exact he

theorem completion (hA : A.WellFormed) : A.completion.WellFormed := by
  have hle : A.numStates ≤ A.completion.numStates := by
    rw [numStates_completion]
    split <;> omega
  have hgrown : ∀ q < A.numStates, q < A.completion.numStates := fun q hq => Nat.lt_of_lt_of_le hq hle
  refine ⟨fun q hq => ?_, fun q hq => ?_, fun p l q h => ?_, fun q name hq => ?_⟩
  · rw [starts_completion] at hq
    exact hgrown q (hA.starts_lt q hq)
  · rw [finals_completion] at hq
    exact hgrown q (hA.finals_lt q hq)
  · rcases contains_completion.1 h with h | ⟨hmissing, rfl, a, ha, rfl, hp⟩
    · obtain ⟨hp, hl, hq⟩ := hA.transitions p l q h
      exact ⟨hgrown p hp, knows_mono (congrArg Alphabet.size (alphabet_completion A)).ge hl, hgrown q hq⟩
    · have hsink : A.numStates < A.completion.numStates := by
        rw [numStates_completion, if_neg hmissing]
        exact Nat.lt_succ_self _
      refine ⟨?_, decide_eq_true ?_, hsink⟩
      · rcases hp with hp | rfl
        · exact hgrown p (mem_missing.1 hp).1
        · exact hsink
      · rwa [alphabet_completion]
  · rw [names_completion] at hq
    exact hgrown q (hA.names_lt q name hq)

theorem completion_isDeterministic (hA : A.WellFormed) (h : A.isDeterministic) :
    A.completion.isDeterministic := by
  have hstarts : A.starts.card == 1 := by
    rw [isDeterministic, Bool.and_eq_true] at h
    exact h.1
  have hold := Transitions.isDeterministic_iff.1 (transitions_isDeterministic h)
  have hnew : ∀ {p a q}, (p, a) ∈ A.missing ∨ p = A.numStates → ¬ A.transitions.contains p (.symbol a) q := by
    rintro p a q (hm | rfl) hq
    · obtain ⟨S, hS, _⟩ := Transitions.contains_iff.1 hq
      exact Option.some_ne_none S (hS.symm.trans (mem_missing.1 hm).2.2)
    · exact Nat.lt_irrefl _ (hA.transitions _ _ _ hq).1
  rw [isDeterministic, starts_completion, hstarts, Bool.true_and, Transitions.isDeterministic_iff]
  intro p l q hq
  rcases contains_completion.1 hq with hq | ⟨_, rfl, a, _, rfl, hp⟩
  · refine ⟨(hold p l q hq).1, fun r hr => ?_⟩
    rcases contains_completion.1 hr with hr | ⟨_, rfl, a, _, rfl, hp⟩
    · exact (hold p l q hq).2 r hr
    · exact absurd hq (hnew hp)
  · refine ⟨by simp, fun r hr => ?_⟩
    rcases contains_completion.1 hr with hr | ⟨_, rfl, _⟩
    · exact absurd hr (hnew hp)
    · rfl

private theorem not_path_sink (hA : A.WellFormed) {q : State} (hq : q < A.numStates) {word : List String} :
    ¬ A.Path A.numStates word q := by
  intro h
  obtain ⟨_, rfl⟩ := hA.path_of_le (Nat.le_refl _) h
  exact Nat.lt_irrefl _ hq

private theorem edge_of_edge_completion (hA : A.WellFormed) {p q r : State} {l : Label String}
    {word : List String} (hq : q < A.numStates) (edge : A.completion.Edge p l r) (rest : A.Path r word q) :
    A.Edge p l r := by
  obtain ⟨k, hk, h⟩ := edge
  rw [alphabet_completion] at hk
  rcases contains_completion.1 h with h | ⟨_, rfl, _⟩
  · exact ⟨k, hk, h⟩
  · exact absurd rest (hA.not_path_sink hq)

/-- Paths to the states that were there before do not come by the sink. -/
theorem path_completion_iff (hA : A.WellFormed) {p q : State} {word : List String} (hq : q < A.numStates) :
    A.completion.Path p word q ↔ A.Path p word q := by
  constructor
  · intro h
    induction h with
    | nil => exact .nil _
    | epsilon edge _ ih => exact .epsilon (hA.edge_of_edge_completion hq edge (ih hq)) (ih hq)
    | symbol edge _ ih => exact .symbol (hA.edge_of_edge_completion hq edge (ih hq)) (ih hq)
  · apply Path.mono
    rintro p l r ⟨k, hk, h⟩
    rw [← alphabet_completion] at hk
    exact ⟨k, hk, contains_completion.2 (Or.inl h)⟩

theorem accepts_completion (hA : A.WellFormed) (word : List String) :
    A.completion.accepts word = A.accepts word := by
  rw [Bool.eq_iff_iff, accepts_iff, accepts_iff, starts_completion, finals_completion]
  refine exists_congr fun p => exists_congr fun q => and_congr_right fun _ => and_congr_right fun hq => ?_
  exact hA.path_completion_iff (hA.finals_lt q hq)

end WellFormed

end RegularLanguages.Automaton
