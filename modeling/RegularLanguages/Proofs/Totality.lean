import RegularLanguages.Automaton.Product
import RegularLanguages.Proofs.Acceptance
import RegularLanguages.Proofs.Completion
import RegularLanguages.Proofs.Reduced

/-!
Total automata: words over the alphabet lead somewhere from every state, so the final states can be exchanged for the
others. Completion makes an automaton total.
-/
namespace RegularLanguages.Automaton

variable {A : Automaton}

private theorem allBelow_iff {p : Nat → Bool} {n : Nat} : allBelow p n ↔ ∀ q < n, p q := by
  induction n with
  | zero => exact iff_of_true rfl nofun
  | succ n ih =>
    rw [allBelow, Bool.and_eq_true, ih]
    constructor
    · rintro ⟨hlast, hrest⟩ q hq
      rcases Nat.lt_succ_iff_lt_or_eq.1 hq with hq | rfl
      · exact hrest q hq
      · exact hlast
    · exact fun h => ⟨h n (Nat.lt_succ_self n), fun q hq => h q (Nat.lt_succ_of_lt hq)⟩

/-- A deterministic automaton passes for total exactly when every symbol leads somewhere from every state. -/
theorem isTotal_iff : A.isTotal ↔ A.isDeterministic ∧ A.Gapless := by
  simp only [isTotal, Bool.and_eq_true, List.all_eq_true, allBelow_iff, Transitions.isSome_get?_iff, Alphabet.ids,
    List.mem_range]
  exact and_congr_right fun _ => ⟨fun h q hq a ha => h a ha q hq, fun h a ha q hq => h q hq a ha⟩

/-- In a total automaton every symbol of the alphabet leads from a state to a state. -/
theorem exists_step? (hT : A.isTotal) {name : String} (hname : name ∈ A.alphabet.names) {q : State}
    (hq : q < A.numStates) : ∃ r, A.step? (some q) name = some r := by
  obtain ⟨hdet, htargets⟩ := isTotal_iff.1 hT
  obtain ⟨r, hr⟩ := htargets q hq _ (Alphabet.idOf_lt_size hname)
  have hnext := (next?_eq_some_iff (transitions_isDeterministic hdet)).2 hr
  exact ⟨r, step?_eq_some_iff.2 ⟨q, _, rfl, Alphabet.id?_idOf hname, hnext⟩⟩

namespace WellFormed

theorem completion_isTotal (hA : A.WellFormed) (h : A.isDeterministic) : A.completion.isTotal :=
  isTotal_iff.2 ⟨hA.completion_isDeterministic h, completion_gapless A⟩

private theorem exists_after? (hA : A.WellFormed) (hT : A.isTotal) {word : List String}
    (hword : ∀ name ∈ word, name ∈ A.alphabet.names) {q : State} (hq : q < A.numStates) :
    ∃ r, A.after? (some q) word = some r := by
  induction word generalizing q with
  | nil => exact ⟨q, rfl⟩
  | cons name word ih =>
    obtain ⟨hname, hrest⟩ := List.forall_mem_cons.1 hword
    obtain ⟨r, hr⟩ := exists_step? hT hname hq
    obtain ⟨_, a, _, _, hnext⟩ := step?_eq_some_iff.1 hr
    rw [after?_cons, hr]
    exact ih hrest (hA.next_lt hnext)

/-- With the other states final, a total automaton accepts the other words over its alphabet. -/
theorem accepts_flipFinals (hA : A.WellFormed) (hT : A.isTotal) {word : List String} :
    A.flipFinals.accepts word ↔ (∀ name ∈ word, name ∈ A.alphabet.names) ∧ ¬ A.accepts word := by
  have hdet := (isTotal_iff.1 hT).1
  obtain ⟨s, hs, _⟩ := exists_start hdet
  have hflipped : A.flipFinals.accepts word = (A.after? (some s) word).any A.flipFinals.finals.contains := by
    rw [← hs]
    exact accepts_eq_acceptsFrom (A := A.flipFinals) hdet word
  have haccepts : A.accepts word = (A.after? (some s) word).any A.finals.contains := by
    rw [← hs]
    exact accepts_eq_acceptsFrom hdet word
  have hfinal : ∀ r, A.after? (some s) word = some r →
      (A.flipFinals.finals.contains r ↔ ¬ A.finals.contains r) := by
    intro r hr
    have hlt : r < A.numStates := hA.staysBelow word r (hs ▸ hr)
    simp [Automaton.flipFinals, hlt]
  rw [hflipped, haccepts, Option.any_eq_true]
  constructor
  · rintro ⟨r, hr, hflip⟩
    have hpath := (path_iff_after? (transitions_isDeterministic hdet)).2 hr
    refine ⟨hpath.mem_names, ?_⟩
    rw [hr]
    exact (hfinal r hr).1 hflip
  · rintro ⟨hword, hrejects⟩
    obtain ⟨r, hr⟩ := hA.exists_after? hT hword (hA.staysBelow [] s hs)
    rw [hr] at hrejects
    exact ⟨r, hr, (hfinal r hr).2 hrejects⟩

end WellFormed

/-- Whatever the automaton, completion adds no more than a sink and keeps the words accepted; every symbol then leads
somewhere from every state, the sink included, so a second completion changes nothing, and the first one does exactly
if something was missing. What is deterministic becomes total. It fails only for want of a number for the sink. -/
theorem complete_exact (hA : A.WellFormed) :
    A.Full ∧ A.complete = .error .counterOverflow ∨
      ¬ A.Full ∧ ∃ C, A.complete = .ok C ∧ A.AddsSink C ∧ (∀ word, C.accepts word = A.accepts word) ∧ C.Gapless ∧
        (A.isDeterministic → C.isDeterministic ∧ C.isTotal) ∧ C.complete = .ok C ∧ (C = A ↔ A.Gapless) := by
  refine A.complete_cases.imp_right fun ⟨hroom, hok⟩ => ⟨hroom, A.completion, hok, ?_⟩
  have hgapless := completion_gapless A
  exact ⟨hA.completion_addsSink, hA.accepts_completion, hgapless,
    fun h => ⟨hA.completion_isDeterministic h, hA.completion_isTotal h⟩, complete_of_gapless hgapless,
    completion_eq_self_iff⟩

/-- All numbers are taken by states without transitions. -/
def crowded : Automaton := { withAlphabet (.ofNames ["a"]) with numStates := maxStates }

theorem crowded_wellFormed : crowded.WellFormed := (withAlphabet_wellFormed _).addStates (Nat.zero_le _)

theorem crowded_full : crowded.Full := by
  refine ⟨fun hgapless => ?_, Nat.le_refl _⟩
  obtain ⟨r, hr⟩ := hgapless 0 (by decide) 0 (by decide)
  simp [crowded, withAlphabet] at hr

/-- With a letter that it does not read, the circle of two states gets a third one. The crowded automaton has as many
states as can be numbered, and nothing leads from them. -/
theorem complete_circle :
    ((circleOver ["a", "b"] 2).WellFormed ∧ (circleOver ["a", "b"] 2).isDeterministic ∧
      ∃ C, (circleOver ["a", "b"] 2).complete = .ok C ∧ C ≠ circleOver ["a", "b"] 2 ∧ C.numStates = 3 ∧ C.isTotal) ∧
    crowded.WellFormed ∧ crowded.complete = .error .counterOverflow := by
  have hwell : (circleOver ["a", "b"] 2).WellFormed := circleOver_wellFormed (by decide) (by decide)
  have hdet : (circleOver ["a", "b"] 2).isDeterministic := by decide
  constructor
  · rcases complete_exact hwell with ⟨⟨_, hmany⟩, _⟩ | ⟨_, C, hC, _, _, _, htotal, _, _⟩
    · exact absurd hmany (by decide)
    · have hcount : C.numStates = 3 := by
        rw [← of_complete hC]
        decide
      refine ⟨hwell, hdet, C, hC, fun h => ?_, hcount, (htotal hdet).2⟩
      rw [h] at hcount
      cases hcount
  · rcases complete_exact crowded_wellFormed with ⟨_, hfails⟩ | ⟨hroom, _⟩
    · exact ⟨crowded_wellFormed, hfails⟩
    · exact absurd crowded_full hroom

end RegularLanguages.Automaton
