import RegularLanguages.Proofs.Links

/-!
Automata that grow: the states that are there already keep their edges, and what is new does not lead back to them.
-/
namespace RegularLanguages.Automaton

/-- `B` has grown out of `A`: the old states keep their edges, and the new ones do not lead to them. -/
structure Extends (A B : Automaton) : Prop where
  le : A.numStates ≤ B.numStates
  wellFormed : B.WellFormed
  old : ∀ p l q, p < A.numStates → (B.Edge p l q ↔ A.Edge p l q)
  new : ∀ p l q, A.numStates ≤ p → B.Edge p l q → A.numStates ≤ q

def Fresh (A B : Automaton) (p : State) : Prop := A.numStates ≤ p ∧ p < B.numStates

namespace Extends

variable {A B C : Automaton} {p q : State} {word : List String}

theorem addStates (hA : A.WellFormed) {n : Nat} (hn : A.numStates ≤ n) :
    A.Extends { A with numStates := n } where
  le := hn
  wellFormed := hA.addStates hn
  old _ _ _ _ := Iff.rfl
  new _ _ _ hp edge := absurd (hA.edge_lt edge).1 (Nat.not_lt.2 hp)

theorem refl (hA : A.WellFormed) : A.Extends A := addStates hA (Nat.le_refl _)

theorem trans (h : A.Extends B) (g : B.Extends C) : A.Extends C where
  le := Nat.le_trans h.le g.le
  wellFormed := g.wellFormed
  old p l q hp := (g.old p l q (Nat.lt_of_lt_of_le hp h.le)).trans (h.old p l q hp)
  new p l q hp edge := by
    by_cases hpB : p < B.numStates
    · exact h.new p l q hp ((g.old p l q hpB).1 edge)
    · exact Nat.le_trans h.le (g.new p l q (Nat.not_lt.1 hpB) edge)

/-- More edges between new states. -/
theorem addEdges (h : A.Extends B) (hle : B.numStates ≤ C.numStates) (hC : C.WellFormed)
    {added : State → Label String → State → Prop}
    (hedges : ∀ p l q, C.Edge p l q ↔ B.Edge p l q ∨ added p l q)
    (hadded : ∀ p l q, added p l q → A.numStates ≤ p ∧ A.numStates ≤ q) : A.Extends C where
  le := Nat.le_trans h.le hle
  wellFormed := hC
  old p l q hp := by
    rw [hedges, ← h.old p l q hp]
    exact or_iff_left fun new => absurd (hadded p l q new).1 (Nat.not_le.2 hp)
  new p l q hp edge := by
    rcases (hedges p l q).1 edge with edge | new
    · exact h.new p l q hp edge
    · exact (hadded p l q new).2

theorem path_iff (h : A.Extends B) (hA : A.WellFormed) (hp : p < A.numStates) :
    B.Path p word q ↔ A.Path p word q := by
  constructor
  · intro hpath
    induction hpath with
    | nil => exact .nil _
    | epsilon edge _ ih =>
      have hedge := (h.old _ _ _ hp).1 edge
      exact .epsilon hedge (ih (hA.edge_lt hedge).2)
    | symbol edge _ ih =>
      have hedge := (h.old _ _ _ hp).1 edge
      exact .symbol hedge (ih (hA.edge_lt hedge).2)
  · exact Path.mono fun p l q edge => (h.old p l q (hA.edge_lt edge).1).2 edge

private theorem path_ge (h : A.Extends B) (hpath : B.Path p word q) (hp : A.numStates ≤ p) : A.numStates ≤ q := by
  induction hpath with
  | nil => exact hp
  | epsilon edge _ ih | symbol edge _ ih => exact ih (h.new _ _ _ hp edge)

/-- No path leads from what was there before to what is new, or back. -/
theorem not_path (h : A.Extends B) (hA : A.WellFormed) (hp : p < A.numStates) (hq : A.numStates ≤ q) :
    ¬ B.Path p word q ∧ ¬ B.Path q word p := by
  constructor
  · intro path
    exact Nat.not_lt.2 hq (hA.path_lt ((h.path_iff hA hp).1 path) hp)
  · intro path
    exact Nat.not_lt.2 (h.path_ge path hq) hp

/-- What was there before keeps its words. -/
theorem languageBetween_eq (h : A.Extends B) (hA : A.WellFormed) {S F : State → Prop}
    (hS : ∀ p, S p → p < A.numStates) : B.languageBetween S F = A.languageBetween S F := by
  ext word
  refine exists_congr fun p => exists_congr fun q => and_congr_right fun hp => and_congr_right fun _ => ?_
  exact h.path_iff hA (hS p hp)

theorem fresh (h : B.Extends C) (hp : A.Fresh B p) : A.Fresh C p :=
  ⟨hp.1, Nat.lt_of_lt_of_le hp.2 h.le⟩

theorem fresh_of_fresh (h : A.Extends B) (hp : B.Fresh C p) : A.Fresh C p :=
  ⟨Nat.le_trans h.le hp.1, hp.2⟩

end Extends

end RegularLanguages.Automaton
