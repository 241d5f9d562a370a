import RegularLanguages.Proofs.Determinization
import RegularLanguages.Proofs.Minimization
import RegularLanguages.Proofs.Pairing

/-!
Equivalence is equality of languages. In reduced automata for one language the states that common words lead to
are partners of each other alone, so the walk comes to all states exactly when the languages are equal.
-/
namespace RegularLanguages.Automaton

open Pairing

variable {M N : Automaton} {P : Pairing}

namespace Reduced

/-- Some word leads to `p` in one automaton and to `q` in the other. -/
def Partners (M N : Automaton) (p q : State) : Prop :=
  ∃ word, M.after? (some 0) word = some p ∧ N.after? (some 0) word = some q

theorem Partners.symm {p q : State} (h : Partners M N p q) : Partners N M q p := by
  obtain ⟨word, hp, hq⟩ := h
  exact ⟨word, hq, hp⟩

section Partners

variable (hM : M.Reduced) (hN : N.Reduced) (hlanguage : ∀ word, M.accepts word = N.accepts word)

include hM hN hlanguage

theorem acceptsFrom_after? (front rest : List String) :
    M.acceptsFrom (M.after? (some 0) front) rest = N.acceptsFrom (N.after? (some 0) front) rest := by
  rw [← acceptsFrom_append, ← acceptsFrom_append, ← hM.accepts_eq, ← hN.accepts_eq, hlanguage]

theorem Partners.acceptsFrom_eq {p q : State} (h : Partners M N p q) (word : List String) :
    M.acceptsFrom (some p) word = N.acceptsFrom (some q) word := by
  obtain ⟨front, hp, hq⟩ := h
  rw [← hp, ← hq, acceptsFrom_after? hM hN hlanguage]

theorem Partners.right_unique {p q q' : State} (h : Partners M N p q) (h' : Partners M N p q') :
    q = q' := by
  have hlt : ∀ {r s}, Partners M N r s → s < N.numStates := fun ⟨word, _, hs⟩ =>
    hN.staysBelow word _ (hN.first?_starts.symm ▸ hs)
  refine hN.distinct q (hlt h) q' (hlt h') fun word => ?_
  rw [← h.acceptsFrom_eq hM hN hlanguage, ← h'.acceptsFrom_eq hM hN hlanguage]

/-- No symbol leads on from one partner alone, since what it leads to accepts some word. -/
theorem Partners.next {p q : State} (h : Partners M N p q) (name : String) :
    Option.Rel (Partners M N) (M.nextByName? p name) (N.nextByName? q name) := by
  obtain ⟨front, hp, hq⟩ := h
  have hp' : M.after? (some 0) (front ++ [name]) = M.nextByName? p name := by
    rw [after?_append, hp]
    rfl
  have hq' : N.after? (some 0) (front ++ [name]) = N.nextByName? q name := by
    rw [after?_append, hq]
    rfl
  have hsame := acceptsFrom_after? hM hN hlanguage (front ++ [name])
  rw [hp', hq'] at hsame
  cases hr : M.nextByName? p name with
  | none =>
    cases hs : N.nextByName? q name with
    | none => exact .none
    | some s =>
      obtain ⟨word, hword⟩ := hN.step_live (q := some q) hs
      rw [← hs, ← hsame word, hr, acceptsFrom_none] at hword
      cases hword
  | some r =>
    cases hs : N.nextByName? q name with
    | none =>
      obtain ⟨word, hword⟩ := hM.step_live (q := some p) hr
      rw [← hr, hsame word, hs, acceptsFrom_none] at hword
      cases hword
    | some s => exact .some ⟨_, hp'.trans hr, hq'.trans hs⟩

end Partners

theorem agreeInStep_eq (hM : M.Reduced) (hN : N.Reduced) : M.agreeInStep N =
    (M.numStates == N.numStates &&
      (M.pairFrom? N M.numStates (.start 0 0)).any fun P => P.found.size == M.numStates) := by
  rw [agreeInStep, hM.first?_starts, hN.first?_starts]

private theorem found_size (hM : M.Reduced) (hP : M.Walk N 0 0 P)
    (hnames : ∀ name, name ∈ N.alphabet.names → name ∈ M.alphabet.names)
    (hstop : P.expanded = P.found.size ∨ P.expanded = M.numStates)
    (hfound : ∀ p q, (p, q) ∈ P.found → Partners M N p q) : P.found.size = M.numStates := by
  -- A walk along partners finds all states, each of them once.
  have hcard : (P.found.toList.map Prod.fst).toFinset.card = P.found.size := by
    rw [List.toFinset_card_of_nodup hP.consistent.nodup, List.length_map, Array.length_toList]
  have hle : P.found.size ≤ M.numStates := by
    rw [← hcard, ← Finset.card_range M.numStates]
    apply Finset.card_le_card
    intro p hp
    obtain ⟨⟨_, q⟩, hpq, rfl⟩ := List.mem_map.1 (List.mem_toFinset.1 hp)
    obtain ⟨word, hword, _⟩ := hfound _ _ (Array.mem_toList_iff.1 hpq)
    exact Finset.mem_range.2 (hM.staysBelow word _ (hM.first?_starts.symm ▸ hword))
  have hdone : P.expanded = P.found.size := by
    have hexpanded := hP.expanded_le
    omega
  have hge : M.numStates ≤ P.found.size := by
    rw [← hcard, ← Finset.card_range M.numStates]
    apply Finset.card_le_card
    intro p hp
    obtain ⟨word, hword⟩ := hM.reached p (Finset.mem_range.1 hp)
    have hafter := hP.after?_matches hdone hnames word (.some (Array.mem_of_getElem? hP.first))
    rw [hword] at hafter
    generalize N.after? (some 0) word = q at hafter
    cases hafter with
    | some hpq => exact List.mem_toFinset.2 (List.mem_map.2 ⟨_, Array.mem_toList_iff.2 hpq, rfl⟩)
  exact Nat.le_antisymm hle hge

/-- Reduced automata over the same names agree in step exactly when they accept the same words. -/
theorem agreeInStep_iff (hM : M.Reduced) (hN : N.Reduced)
    (hnames : ∀ name, name ∈ N.alphabet.names → name ∈ M.alphabet.names) :
    M.agreeInStep N ↔ ∀ word, M.accepts word = N.accepts word := by
  rw [hM.agreeInStep_eq hN, Bool.and_eq_true, beq_iff_eq, Option.any_eq_true]
  constructor
  · rintro ⟨_, P, hP, hsize⟩ word
    obtain ⟨hwalk, hstop⟩ := pairFrom?_walk M.numStates (start_walk 0 0) hP
    rw [beq_iff_eq] at hsize
    have hdone : P.expanded = P.found.size := by
      rcases hstop with h | h
      · exact h
      · rw [hsize, h]
        exact Nat.zero_add _
    rw [hM.accepts_eq, hN.accepts_eq, hwalk.acceptsFrom_eq hdone hnames]
  · intro hlanguage
    refine ⟨hM.numStates_eq hN hlanguage, ?_⟩
    obtain ⟨P, hP, hfound⟩ := exists_pairFrom? (R := Partners M N)
      (fun p q q' h h' => h.right_unique hM hN hlanguage h')
      (fun p p' q h h' => h.symm.right_unique hN hM (fun word => (hlanguage word).symm) h'.symm)
      (fun p q h => h.acceptsFrom_eq hM hN hlanguage [])
      (fun p q name h => h.next hM hN hlanguage name)
      M.numStates (start_walk 0 0) fun p q hpq => by
        obtain ⟨rfl, rfl⟩ : p = 0 ∧ q = 0 := by simpa [start] using hpq
        exact ⟨[], rfl, rfl⟩
    obtain ⟨hwalk, hstop⟩ := pairFrom?_walk M.numStates (start_walk 0 0) hP
    refine ⟨P, hP, beq_iff_eq.2 (found_size hM hwalk hnames ?_ hfound)⟩
    exact hstop.imp_right fun h => h.trans (Nat.zero_add _)

end Reduced

section Canonical

variable {A B : Automaton}

/-- Symbols that no transition uses do not change what is accepted. -/
theorem WellFormed.edge_widened_iff (hA : A.WellFormed) {p q : State} {l : Label String} :
    (A.widened B).Edge p l q ↔ A.Edge p l q :=
  hA.edge_setAlphabet_iff fun _ _ => Alphabet.id?_internAll

theorem WellFormed.accepts_widened (hA : A.WellFormed) (word : List String) :
    (A.widened B).accepts word = A.accepts word := by
  rw [Bool.eq_iff_iff, accepts_iff, accepts_iff]
  constructor
  · rintro ⟨p, q, hp, hq, h⟩
    exact ⟨p, q, hp, hq, h.mono fun _ _ _ => hA.edge_widened_iff.1⟩
  · rintro ⟨p, q, hp, hq, h⟩
    exact ⟨p, q, hp, hq, h.mono fun _ _ _ => hA.edge_widened_iff.2⟩

theorem WellFormed.canonical_reduced (hA : A.WellFormed) (B : Automaton) :
    ∃ M, A.canonical B = .ok M ∧ M.Reduced ∧
      (∀ name, name ∈ M.alphabet.names ↔ name ∈ A.alphabet.names ∨ name ∈ B.alphabet.names) ∧
      ∀ word, M.accepts word = A.accepts word := by
  obtain ⟨M, hM, hreduced, halphabet, hlanguage⟩ :=
    minimize_reduced (determinize_isDeterministic (A.widened B))
  refine ⟨M, hM, hreduced, fun name => ?_, fun word => ?_⟩
  · rw [halphabet]
    exact Alphabet.mem_names_internAll
  · rw [hlanguage, accepts_determinize, hA.accepts_widened]

/-- Equivalence is equality of languages. -/
theorem isEquivalent_iff (hA : A.WellFormed) (hB : B.WellFormed) :
    A.isEquivalent B ↔ ∀ word, A.accepts word = B.accepts word := by
  obtain ⟨M, hM, hMreduced, hMnames, hMlanguage⟩ := hA.canonical_reduced B
  obtain ⟨N, hN, hNreduced, hNnames, hNlanguage⟩ := hB.canonical_reduced A
  have hnames : ∀ name, name ∈ N.alphabet.names → name ∈ M.alphabet.names := fun name h =>
    (hMnames name).2 ((hNnames name).1 h).symm
  have hagree : A.isEquivalent B = M.agreeInStep N := by
    rw [isEquivalent, hM, hN]
  rw [hagree, hMreduced.agreeInStep_iff hNreduced hnames]
  simp only [hMlanguage, hNlanguage]

theorem isEquivalent_circle : (circle 4).isEquivalent (circle 2) ∧
    ∀ word, (circle 4).accepts word = (circle 2).accepts word := by
  have hequivalent : (circle 4).isEquivalent (circle 2) := by decide +kernel
  have hfour := circle_wellFormed (n := 4) (by decide)
  have htwo := circle_wellFormed (n := 2) (by decide)
  exact ⟨hequivalent, (isEquivalent_iff hfour htwo).1 hequivalent⟩

end Canonical

end RegularLanguages.Automaton
