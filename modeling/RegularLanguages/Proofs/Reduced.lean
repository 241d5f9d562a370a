import Mathlib.Data.Fintype.Card
import RegularLanguages.Proofs.Runs
import RegularLanguages.Proofs.WellFormed

/-!
Reduced automata: words lead to all their states, the states accept different words, and no transition leads
where nothing is accepted. No deterministic automaton accepts the same words with fewer states.
-/
namespace RegularLanguages.Automaton

/-- Runs stay among the states. -/
def StaysBelow (A : Automaton) : Prop :=
  ∀ word q, A.after? A.starts.first? word = some q → q < A.numStates

theorem staysBelow_of_step {A : Automaton} (hstart : ∀ q, A.starts.first? = some q → q < A.numStates)
    (hnext : ∀ q a r, A.next? q a = some r → r < A.numStates) : A.StaysBelow := by
  suffices h : ∀ word p, (∀ q, p = some q → q < A.numStates) → ∀ q, A.after? p word = some q →
      q < A.numStates from fun word => h word _ hstart
  intro word
  induction word with
  | nil => exact fun p hp q hq => hp q hq
  | cons name word ih =>
    refine fun p _ => ih (A.step? p name) fun r hr => ?_
    obtain ⟨q, a, _, _, hnextq⟩ := step?_eq_some_iff.1 hr
    exact hnext q a r hnextq

theorem WellFormed.staysBelow {A : Automaton} (h : A.WellFormed) : A.StaysBelow :=
  staysBelow_of_step (fun q hq => h.starts_lt q (StateSet.first?_eq_some_iff.1 hq).1)
    fun _ _ _ => h.next_lt

theorem WellFormed.step?_lt {A : Automaton} (h : A.WellFormed) {q : Option State} {name : String} {r : State}
    (hr : A.step? q name = some r) : r < A.numStates := by
  obtain ⟨_, _, _, _, hnext⟩ := step?_eq_some_iff.1 hr
  exact h.next_lt hnext

/-- State 0 is the start. A start from which nothing is accepted is the only state. -/
structure Reduced (M : Automaton) : Prop where
  deterministic : M.isDeterministic
  first?_starts : M.starts.first? = some 0
  numStates_pos : 0 < M.numStates
  next_lt : ∀ q a r, M.next? q a = some r → r < M.numStates
  next_live : ∀ q a r, M.next? q a = some r → ∃ word, M.acceptsFrom (some r) word
  reached : ∀ q < M.numStates, ∃ word, M.after? (some 0) word = some q
  distinct : ∀ p < M.numStates, ∀ q < M.numStates,
    (∀ word, M.acceptsFrom (some p) word = M.acceptsFrom (some q) word) → p = q

namespace Reduced

variable {M : Automaton}

theorem staysBelow (hM : M.Reduced) : M.StaysBelow := by
  refine staysBelow_of_step (fun q hq => ?_) hM.next_lt
  obtain rfl := Option.some.inj (hM.first?_starts.symm.trans hq)
  exact hM.numStates_pos

theorem accepts_eq (hM : M.Reduced) (word : List String) :
    M.accepts word = M.acceptsFrom (some 0) word := by
  rw [accepts_eq_acceptsFrom hM.deterministic, hM.first?_starts]

theorem step_live {q : Option State} (hM : M.Reduced) {name : String} {r : State}
    (hr : M.step? q name = some r) : ∃ word, M.acceptsFrom (some r) word := by
  obtain ⟨p, a, _, _, hnext⟩ := step?_eq_some_iff.1 hr
  exact hM.next_live p a r hnext

/-- Some word is accepted from every state other than the start. -/
theorem live_of_ne_zero (hM : M.Reduced) {q : State} (hq : q < M.numStates) (hne : q ≠ 0) :
    ∃ word, M.acceptsFrom (some q) word := by
  obtain ⟨word, hword⟩ := hM.reached q hq
  rcases List.eq_nil_or_concat' word with rfl | ⟨front, name, rfl⟩
  · exact absurd (Option.some.inj hword).symm hne
  · rw [after?_append] at hword
    exact hM.step_live hword

private theorem live_or_single (hM : M.Reduced) :
    M.numStates = 1 ∨ ∀ q < M.numStates, ∃ word, M.acceptsFrom (some q) word := by
  have hpos := hM.numStates_pos
  by_cases hone : M.numStates = 1
  · exact Or.inl hone
  · refine Or.inr fun q hq => ?_
    by_cases hzero : q = 0
    · have hlt : 1 < M.numStates := by omega
      obtain ⟨front, hfront⟩ := hM.reached 1 hlt
      obtain ⟨rest, hrest⟩ := hM.live_of_ne_zero hlt (by decide)
      refine ⟨front ++ rest, ?_⟩
      rw [hzero, acceptsFrom_append, hfront]
      exact hrest
    · exact hM.live_of_ne_zero hq hzero

/-- The words that lead to different states lead to different states of any other automaton for the language,
for else the same words would be accepted after them. -/
theorem numStates_le (hM : M.Reduced) {B : Automaton} (hB : B.isDeterministic) (hstays : B.StaysBelow)
    (hlanguage : ∀ word, B.accepts word = M.accepts word) : M.numStates ≤ B.numStates := by
  have hresidual : ∀ front rest, B.acceptsFrom (B.after? B.starts.first? front) rest =
      M.acceptsFrom (M.after? (some 0) front) rest := fun front rest => by
    rw [← acceptsFrom_append, ← acceptsFrom_append, ← accepts_eq_acceptsFrom hB, hlanguage,
      hM.accepts_eq]
  rcases hM.live_or_single with hone | hlive
  · obtain ⟨s, hs, _⟩ := exists_start hB
    rw [hone]
    exact Nat.zero_lt_of_lt (hstays [] s hs)
  · choose front hfront using fun q : Fin M.numStates => hM.reached q q.isLt
    have hreaches : ∀ q : Fin M.numStates, ∃ r, B.after? B.starts.first? (front q) = some r := fun q => by
      obtain ⟨rest, hrest⟩ := hlive q q.isLt
      rw [← hfront q, ← hresidual] at hrest
      rw [← Option.isSome_iff_exists, ← Option.ne_none_iff_isSome]
      intro hnone
      rw [hnone, acceptsFrom_none] at hrest
      cases hrest
    choose image himage using hreaches
    have hinj : Function.Injective fun q : Fin M.numStates =>
        (⟨image q, hstays _ _ (himage q)⟩ : Fin B.numStates) := by
      intro p q hpq
      have heq : image p = image q := congrArg Fin.val hpq
      refine Fin.ext (hM.distinct p p.isLt q q.isLt fun rest => ?_)
      rw [← hfront p, ← hfront q, ← hresidual, ← hresidual, himage p, himage q, heq]
    simpa using Fintype.card_le_of_injective _ hinj

/-- Reduced automata for one language have the same number of states. -/
theorem numStates_eq {N : Automaton} (hM : M.Reduced) (hN : N.Reduced)
    (hlanguage : ∀ word, M.accepts word = N.accepts word) : M.numStates = N.numStates :=
  Nat.le_antisymm (hM.numStates_le hN.deterministic hN.staysBelow fun word => (hlanguage word).symm)
    (hN.numStates_le hM.deterministic hM.staysBelow hlanguage)

end Reduced

end RegularLanguages.Automaton
