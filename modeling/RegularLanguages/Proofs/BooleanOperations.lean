import RegularLanguages.Proofs.Product

/-!
Intersection and complement. Both check their operands and report the first check that is not passed. Otherwise the
intersection accepts what both operands accept, and the complement the words over the alphabet that its operand rejects.
-/
namespace RegularLanguages.Automaton

variable {A B : Automaton}

/-- What is required of an operand, in the order of the checks, each with the failure that reports it. -/
def operandChecks (A : Automaton) : List (Bool × Failure) :=
  [(A.isDeterministic, .notDeterministic), (A.isTotal, .notTotal)]

/-- The checks of an intersection: the first operand, the second one, and then the number of pairs. -/
def intersectionChecks (A B : Automaton) : List (Bool × Failure) :=
  A.operandChecks ++ B.operandChecks ++ [(decide (A.numStates * B.numStates ≤ maxStates), .tooManyStates)]

def firstFailure? (checks : List (Bool × Failure)) : Option Failure :=
  (checks.find? fun check => !check.1).map fun check => check.2

private theorem firstFailure?_eq_none_iff {checks : List (Bool × Failure)} :
    firstFailure? checks = none ↔ ∀ check ∈ checks, check.1 := by
  simp [firstFailure?]

theorem firstFailure?_append (checks rest : List (Bool × Failure)) :
    firstFailure? (checks ++ rest) = (firstFailure? checks).or (firstFailure? rest) := by
  rw [firstFailure?, List.find?_append, Option.map_or]
  rfl

theorem firstFailure?_intersectionChecks_eq_none_iff : firstFailure? (A.intersectionChecks B) = none ↔
    (A.isDeterministic ∧ A.isTotal) ∧ (B.isDeterministic ∧ B.isTotal) ∧ A.numStates * B.numStates ≤ maxStates := by
  rw [firstFailure?_eq_none_iff]
  simp [intersectionChecks, operandChecks, and_assoc]

/-- An operand is rejected with the first failure of its checks. -/
theorem requireTotal_eq_firstFailure? (A : Automaton) : A.requireTotal =
    match firstFailure? A.operandChecks with
    | some failure => .error failure
    | none => .ok () := by
  rw [requireTotal, operandChecks]
  cases A.isDeterministic with
  | false => rfl
  | true => cases A.isTotal <;> rfl

/-- So is an intersection. -/
theorem intersect_eq_firstFailure? (A B : Automaton) : A.intersect B =
    match firstFailure? (A.intersectionChecks B) with
    | some failure => .error failure
    | none => .ok (A.pairing B) := by
  rw [intersect, intersectionChecks, firstFailure?_append, firstFailure?_append, requireTotal_eq_firstFailure?,
    requireTotal_eq_firstFailure?]
  cases firstFailure? A.operandChecks with
  | some failure => rfl
  | none =>
    cases firstFailure? B.operandChecks with
    | some failure => rfl
    | none =>
      rw [product]
      by_cases hfit : A.numStates * B.numStates ≤ maxStates
      · rw [if_pos hfit, decide_eq_true hfit]
        rfl
      · rw [if_neg hfit, decide_eq_false hfit]
        rfl

/-- An intersection succeeds exactly when all checks are passed, and otherwise reports the first one that is not. It
accepts what both operands accept, is deterministic and total over the common symbols, and has a state for each pair. -/
theorem intersect_exact (hA : A.WellFormed) (hB : B.WellFormed) :
    ((∃ C, A.intersect B = .ok C) ↔ (A.isDeterministic ∧ A.isTotal) ∧ (B.isDeterministic ∧ B.isTotal) ∧
      A.numStates * B.numStates ≤ maxStates) ∧
    (∀ failure, A.intersect B = .error failure ↔ firstFailure? (A.intersectionChecks B) = some failure) ∧
    ∀ C, A.intersect B = .ok C → (∀ word, C.accepts word ↔ A.accepts word ∧ B.accepts word) ∧
      C.isDeterministic ∧ C.isTotal ∧ C.alphabet.names = A.alphabet.names.filter B.alphabet.contains ∧
      C.numStates = A.numStates * B.numStates := by
  rw [← firstFailure?_intersectionChecks_eq_none_iff, intersect_eq_firstFailure?]
  cases hchecks : firstFailure? (A.intersectionChecks B) with
  | some failure =>
    refine ⟨by simp, fun other => ?_, nofun⟩
    rw [Except.error.injEq, Option.some.injEq]
  | none =>
    obtain ⟨⟨hdetA, htotalA⟩, ⟨hdetB, htotalB⟩, _⟩ := firstFailure?_intersectionChecks_eq_none_iff.1 hchecks
    refine ⟨by simp, by simp, fun C hC => ?_⟩
    obtain rfl := Except.ok.inj hC
    have htotal := pairing_isTotal htotalA htotalB
    refine ⟨fun word => ?_, (isTotal_iff.1 htotal).1, htotal, names_pairing A B, rfl⟩
    rw [hA.accepts_pairing hB hdetA hdetB, Bool.and_eq_true]

/-- Words of even length whose length is not one more than a multiple of three. -/
theorem intersect_circle : (circle 2).WellFormed ∧ (circle 3).WellFormed ∧
    ∃ C, (circle 2).intersect (circle 3) = .ok C ∧ C.accepts ["a", "a"] ∧ C.accepts ["a", "a", "a", "a"] = false ∧
      C.isTotal ∧ C.alphabet.names = ["a"] ∧ C.numStates = 6 := by
  have hleft : (circle 2).WellFormed := circle_wellFormed (by decide)
  have hright : (circle 3).WellFormed := circle_wellFormed (by decide)
  obtain ⟨hok, _, hresult⟩ := intersect_exact hleft hright
  obtain ⟨C, hC⟩ := hok.2 (by decide +kernel)
  obtain ⟨hlanguage, _, htotal, hnames, hcount⟩ := hresult C hC
  refine ⟨hleft, hright, C, hC, (hlanguage _).2 (by decide +kernel), Bool.eq_false_iff.2 fun h => ?_, htotal, ?_,
    hcount⟩
  · exact absurd ((hlanguage _).1 h) (by decide +kernel)
  · rw [hnames]
    decide

/-- A complement is rejected as an operand is. -/
theorem complement_eq_firstFailure? (A : Automaton) : A.complement =
    match firstFailure? A.operandChecks with
    | some failure => .error failure
    | none => .ok A.flipFinals := by
  rw [complement, requireTotal_eq_firstFailure?]
  cases firstFailure? A.operandChecks <;> rfl

private theorem complement_of_not_deterministic (h : A.isDeterministic = false) :
    A.complement = .error .notDeterministic := by
  rw [complement_eq_firstFailure?, operandChecks, h]
  rfl

private theorem complement_of_not_total (hdet : A.isDeterministic) (h : A.isTotal = false) :
    A.complement = .error .notTotal := by
  rw [complement_eq_firstFailure?, operandChecks, hdet, h]
  rfl

theorem complement_of_total (h : A.isTotal) : A.complement = .ok A.flipFinals := by
  have hdet := (isTotal_iff.1 h).1
  rw [complement_eq_firstFailure?, operandChecks, hdet, h]
  rfl

private theorem accepts_flipFinals_determinize_completion {word : List String} :
    A.determinize.completion.flipFinals.accepts word ↔
      (∀ name ∈ word, name ∈ A.alphabet.names) ∧ ¬ A.accepts word := by
  have hwell := (determinize_wellFormed A).completion
  have halphabet : A.determinize.completion.alphabet = A.alphabet := alphabet_completion A.determinize
  rw [hwell.accepts_flipFinals (determinize_completion_isTotal A), halphabet, accepts_determinize_completion]

/-- A complement succeeds exactly for deterministic total automata, and accepts the words over the alphabet that the
automaton rejects. Every automaton is made deterministic and total by determinization and completion, unless there is
no room for the sink. -/
theorem complement_exact (hA : A.WellFormed) :
    (A.isDeterministic = false ∧ A.complement = .error .notDeterministic ∨
      A.isDeterministic ∧ A.isTotal = false ∧ A.complement = .error .notTotal ∨
      A.isDeterministic ∧ A.isTotal ∧ ∃ C, A.complement = .ok C ∧
        ∀ word, C.accepts word ↔ (∀ name ∈ word, name ∈ A.alphabet.names) ∧ ¬ A.accepts word) ∧
    (A.determinize.Full ∧ A.determinize.complete = .error .counterOverflow ∨
      ∃ D, A.determinize.complete = .ok D ∧ D.isDeterministic ∧ D.isTotal ∧ ∃ C, D.complement = .ok C ∧
        ∀ word, C.accepts word ↔ (∀ name ∈ word, name ∈ A.alphabet.names) ∧ ¬ A.accepts word) := by
  constructor
  · cases hdet : A.isDeterministic with
    | false => exact Or.inl ⟨rfl, complement_of_not_deterministic hdet⟩
    | true =>
      cases htotal : A.isTotal with
      | false => exact Or.inr (Or.inl ⟨rfl, rfl, complement_of_not_total hdet htotal⟩)
      | true =>
        refine Or.inr (Or.inr ⟨rfl, rfl, A.flipFinals, complement_of_total htotal, fun word => ?_⟩)
        exact hA.accepts_flipFinals htotal
  · refine A.determinize.complete_cases.imp_right fun ⟨_, hcomplete⟩ => ?_
    have htotal := determinize_completion_isTotal A
    have hdet := (isTotal_iff.1 htotal).1
    refine ⟨_, hcomplete, hdet, htotal, _, complement_of_total htotal, fun word => ?_⟩
    exact accepts_flipFinals_determinize_completion

/-- With a letter that no transition reads, the circle is not total before completion. -/
theorem complement_circle :
    (circleOver ["a", "b"] 2).WellFormed ∧ (circleOver ["a", "b"] 2).complement = .error .notTotal ∧
    ∃ D C, (circleOver ["a", "b"] 2).determinize.complete = .ok D ∧ D.complement = .ok C ∧
      C.accepts ["b"] ∧ C.accepts ["a", "a"] = false ∧ C.accepts ["c"] = false := by
  have hwell : (circleOver ["a", "b"] 2).WellFormed := circleOver_wellFormed (by decide) (by decide)
  obtain ⟨hcases, ⟨⟨_, hmany⟩, _⟩ | ⟨D, hD, _, _, C, hC, hlanguage⟩⟩ := complement_exact hwell
  · exact absurd hmany (by decide +kernel)
  refine ⟨hwell, ?_, D, C, hD, hC, (hlanguage _).2 (by decide +kernel), Bool.eq_false_iff.2 fun h => ?_,
    Bool.eq_false_iff.2 fun h => ?_⟩
  · rcases hcases with ⟨hdet, _⟩ | ⟨_, _, hfails⟩ | ⟨_, htotal, _⟩
    · exact absurd hdet (by decide +kernel)
    · exact hfails
    · exact absurd htotal (by decide +kernel)
  · exact absurd ((hlanguage _).1 h) (by decide +kernel)
  · exact absurd ((hlanguage _).1 h) (by decide +kernel)

end RegularLanguages.Automaton
