import RegularLanguages.Proofs.Cycles
import RegularLanguages.Proofs.Walks

/-!
What the two checks for cycles decide: whether a state on a cycle can be reached, and whether one lies on the way to a
final state. Turn by turn, the search comes to its answer from every stack and all roots.
-/
namespace RegularLanguages

/-- The search for a cycle ends, and this is its answer. The rules are the turns it takes. Without a stack, it starts at the
next root, unless that root has been visited. With one, it follows the top frame: a state whose successors have all been
looked at leaves as done, and of the next successor the mark decides. -/
inductive Answers (next : State → List State) : Array Mark → List Frame → List State → Bool → Prop
  | exhausted (marks : Array Mark) : Answers next marks [] [] false
  | start {marks : Array Mark} {root : State} {roots : List State} {answer : Bool} (new : marks[root]? = some .unvisited)
    (rest : Answers next (marks.setIfInBounds root .onStack) [⟨root, next root⟩] roots answer) :
    Answers next marks [] (root :: roots) answer
  | skip {marks : Array Mark} {root : State} {roots : List State} {answer : Bool}
    (visited : marks[root]? ≠ some .unvisited) (rest : Answers next marks [] roots answer) :
    Answers next marks [] (root :: roots) answer
  | leave {marks : Array Mark} {q : State} {stack : List Frame} {roots : List State} {answer : Bool}
    (rest : Answers next (marks.setIfInBounds q .done) stack roots answer) :
    Answers next marks (⟨q, []⟩ :: stack) roots answer
  | close {marks : Array Mark} {q r : State} {pending : List State} {stack : List Frame} {roots : List State}
    (onStack : marks[r]? = some .onStack) : Answers next marks (⟨q, r :: pending⟩ :: stack) roots true
  | enter {marks : Array Mark} {q r : State} {pending : List State} {stack : List Frame} {roots : List State}
    {answer : Bool} (new : marks[r]? = some .unvisited)
    (rest : Answers next (marks.setIfInBounds r .onStack) (⟨r, next r⟩ :: ⟨q, pending⟩ :: stack) roots answer) :
    Answers next marks (⟨q, r :: pending⟩ :: stack) roots answer
  | pass {marks : Array Mark} {q r : State} {pending : List State} {stack : List Frame} {roots : List State}
    {answer : Bool} (off : marks[r]? ≠ some .onStack) (visited : marks[r]? ≠ some .unvisited)
    (rest : Answers next marks (⟨q, pending⟩ :: stack) roots answer) :
    Answers next marks (⟨q, r :: pending⟩ :: stack) roots answer

namespace Answers

open Automaton

variable {next : State → List State} {marks : Array Mark} {stack : List Frame} {roots : List State} {answer : Bool}

private theorem eq_isNone (h : Answers next marks stack roots answer) :
    answer = ((descend? next marks stack).bind fun later => descendAll? next later roots).isNone := by
  -- No turn changes what the search is going to answer.
  induction h with
  | exhausted => rw [descend?, Option.bind_some, descendAll?, Option.isNone_some]
  | start new _ ih => rw [descend?, Option.bind_some, descendAll?, if_pos new, ih]
  | skip visited _ ih => rw [descend?, Option.bind_some, descendAll?, if_neg visited, ih, descend?, Option.bind_some]
  | leave _ ih => rw [descend?, ih]
  | close onStack =>
    rw [descend?]
    split
    · rfl
    · cases onStack.symm.trans ‹_›
    · exact absurd onStack ‹_›
  | enter new _ ih =>
    rw [descend?, ih]
    split
    · cases new.symm.trans ‹_›
    · rfl
    · exact absurd new ‹_›
  | pass off visited _ ih =>
    rw [descend?, ih]
    split
    · exact absurd ‹_› off
    · exact absurd ‹_› visited
    · rfl

private theorem exists_of_roots (hroots : ∀ marks, ∃ answer, Answers next marks [] roots answer) (marks : Array Mark)
    (stack : List Frame) : ∃ answer, Answers next marks stack roots answer := by
  fun_induction descend? next marks stack with
  | case1 marks => exact hroots marks
  | case2 marks q stack ih =>
    obtain ⟨answer, h⟩ := ih
    exact ⟨answer, .leave h⟩
  | case3 marks q r pending stack onStack => exact ⟨true, .close onStack⟩
  | case4 marks q r pending stack new ih =>
    obtain ⟨answer, h⟩ := ih
    exact ⟨answer, .enter new h⟩
  | case5 marks q r pending stack off visited ih =>
    obtain ⟨answer, h⟩ := ih
    exact ⟨answer, .pass off visited h⟩

private theorem exists_answer (next : State → List State) (marks : Array Mark) (roots : List State) :
    ∃ answer, Answers next marks [] roots answer := by
  induction roots generalizing marks with
  | nil => exact ⟨false, .exhausted marks⟩
  | cons root roots ih =>
    by_cases hroot : marks[root]? = some .unvisited
    · obtain ⟨answer, h⟩ := exists_of_roots ih (marks.setIfInBounds root .onStack) [⟨root, next root⟩]
      exact ⟨answer, .start hroot h⟩
    · obtain ⟨answer, h⟩ := ih marks
      exact ⟨answer, .skip hroot h⟩

private theorem iff_isNone : Answers next marks [] roots answer ↔ answer = (descendAll? next marks roots).isNone := by
  have heq : ∀ answer, Answers next marks [] roots answer → answer = (descendAll? next marks roots).isNone := by
    intro answer h
    rw [h.eq_isNone, descend?, Option.bind_some]
  refine ⟨heq answer, fun h => ?_⟩
  obtain ⟨other, hother⟩ := exists_answer next marks roots
  rw [h, ← heq other hother]
  exact hother

end Answers

namespace Automaton

variable {A : Automaton} {S : StateSet} {p q : State}

theorem answers_iff_hasCycle {answer : Bool} :
    Answers (succeeding A.successors S) (.replicate A.numStates .unvisited) [] S.toList answer ↔ answer = A.hasCycle S :=
  Answers.iff_isNone

theorem EdgeWithin.step (h : A.EdgeWithin S p q) : A.Step p q := by
  obtain ⟨_, _, _, k, _, hk⟩ := h
  exact ⟨k, hk⟩

namespace WellFormed

/-- A cycle stays within a set that holds whatever lies between two visits to a member. -/
theorem exists_cycle_within_iff (hA : A.WellFormed) (hS : ∀ p q, S.contains p → Relation.ReflTransGen A.Step p q →
    Relation.ReflTransGen A.Step q p → S.contains q) :
    (∃ q, Relation.TransGen (A.EdgeWithin S) q q) ↔ ∃ q, S.contains q ∧ Relation.TransGen A.Step q q := by
  constructor
  · rintro ⟨q, hq⟩
    obtain ⟨_, hfirst, _⟩ := Relation.TransGen.head'_iff.1 hq
    exact ⟨q, hfirst.1, hq.lift id fun _ _ => EdgeWithin.step⟩
  · rintro ⟨q, hq, hcycle⟩
    suffices hwithin : ∀ r, Relation.TransGen A.Step q r → Relation.ReflTransGen A.Step r q →
        Relation.TransGen (A.EdgeWithin S) q r from ⟨q, hwithin q hcycle .refl⟩
    intro r hr
    induction hr with
    | single hlast =>
      intro hback
      exact .single ⟨hq, hS q _ hq (.single hlast) hback, hA.step_iff.1 hlast⟩
    | @tail s t hs hlast ih =>
      intro hback
      have hs' := hS q s hq hs.to_reflTransGen (hback.head hlast)
      have ht := hS q t hq (hs.tail hlast).to_reflTransGen hback
      exact (ih (hback.head hlast)).tail ⟨hs', ht, hA.step_iff.1 hlast⟩

theorem isAcyclic_iff (hA : A.WellFormed) :
    A.isAcyclic ↔ ∀ q, A.reachable.contains q → ¬ Relation.TransGen A.Step q q := by
  rw [isAcyclic, Bool.not_eq_true', Bool.eq_false_iff, Ne, hasCycle_iff fun _ => hA.reachable_lt,
    hA.exists_cycle_within_iff]
  · simp only [not_exists, not_and]
  · intro p q hp hpq _
    obtain ⟨s, hs, hsp⟩ := hA.reachable_iff_walk.1 hp
    exact hA.reachable_iff_walk.2 ⟨s, hs, hsp.trans hpq⟩

theorem isFinite_iff (hA : A.WellFormed) :
    A.isFinite ↔ ∀ q, A.useful.contains q → ¬ Relation.TransGen A.Step q q := by
  rw [isFinite, Bool.not_eq_true', Bool.eq_false_iff, Ne, hasCycle_iff fun _ => hA.useful_lt,
    hA.exists_cycle_within_iff]
  · simp only [not_exists, not_and]
  · intro p q hp hpq hqp
    obtain ⟨hreachable, hcoreachable⟩ := contains_useful.1 hp
    obtain ⟨s, hs, hsp⟩ := hA.reachable_iff_walk.1 hreachable
    obtain ⟨f, hf, hpf⟩ := hA.coreachable_iff_walk.1 hcoreachable
    exact contains_useful.2 ⟨hA.reachable_iff_walk.2 ⟨s, hs, hsp.trans hpq⟩,
      hA.coreachable_iff_walk.2 ⟨f, hf, hqp.trans hpf⟩⟩

end WellFormed

/-- An automaton is acyclic if and only if no state that walks from start states lead to lies on a cycle of transitions,
and it is finite if and only if none does that also lies on a walk to a final state. The search behind both checks ends
with one answer, whatever the set it is kept to. -/
theorem cycle_checks_exact (hA : A.WellFormed) :
    (A.isAcyclic ↔ ∀ p q, A.starts.contains p → Relation.ReflTransGen A.Step p q → ¬ Relation.TransGen A.Step q q) ∧
      (A.isFinite ↔ ∀ p q r, A.starts.contains p → Relation.ReflTransGen A.Step p q →
        A.finals.contains r → Relation.ReflTransGen A.Step q r → ¬ Relation.TransGen A.Step q q) ∧
      ∀ S answer, Answers (succeeding A.successors S) (.replicate A.numStates .unvisited) [] S.toList answer ↔
        answer = A.hasCycle S := by
  refine ⟨?_, ?_, fun _ _ => answers_iff_hasCycle⟩
  · rw [hA.isAcyclic_iff]
    simp only [hA.reachable_iff_walk]
    constructor
    · intro h p q hp hpq
      exact h q ⟨p, hp, hpq⟩
    · rintro h q ⟨p, hp, hpq⟩
      exact h p q hp hpq
  · rw [hA.isFinite_iff]
    simp only [contains_useful, hA.reachable_iff_walk, hA.coreachable_iff_walk]
    constructor
    · intro h p q r hp hpq hr hqr
      exact h q ⟨⟨p, hp, hpq⟩, r, hr, hqr⟩
    · rintro h q ⟨⟨p, hp, hpq⟩, r, hr, hqr⟩
      exact h p q r hp hpq hr hqr

/-- State 0 leads to the final state 1 and to state 2, which has an epsilon edge to itself. -/
def sideLoop : Automaton :=
  { circle 3 with
    finals := .singleton 1
    transitions := .ofList [⟨0, .symbol 0, 1⟩, ⟨0, .symbol 0, 2⟩, ⟨2, .epsilon, 2⟩] }

theorem sideLoop_wellFormed : sideLoop.WellFormed := by
  have hends : ∀ t ∈ ([⟨0, .symbol 0, 1⟩, ⟨0, .symbol 0, 2⟩, ⟨2, .epsilon, 2⟩] : List Transition),
      t.source < 3 ∧ (circle 3).knows t.label ∧ t.target < 3 := by decide
  have hcircle := circle_wellFormed (n := 3) (by decide)
  apply (hcircle.setFinals fun _ => StateSet.lt_of_contains_singleton (by decide)).setTransitions
  intro q l r h
  exact hends ⟨q, l, r⟩ (Transitions.contains_ofList.1 h)

private theorem isAcyclic_sideLoop : sideLoop.isAcyclic = false := by
  have hroots : sideLoop.reachable.toList = [0, 1, 2] := by decide +kernel
  have hnext : succeeding sideLoop.successors sideLoop.reachable 0 = [1, 2] ∧
      succeeding sideLoop.successors sideLoop.reachable 1 = [] ∧
      succeeding sideLoop.successors sideLoop.reachable 2 = [2] := by decide +kernel
  rw [isAcyclic, ← answers_iff_hasCycle.1 (?_ : Answers _ _ _ _ true), Bool.not_true]
  rw [hroots]
  apply Answers.start (by decide)
  rw [hnext.1]
  apply Answers.enter (by decide)
  rw [hnext.2.1]
  apply Answers.leave
  apply Answers.enter (by decide)
  rw [hnext.2.2]
  exact Answers.close (by decide)

private theorem isFinite_sideLoop : sideLoop.isFinite := by
  have hroots : sideLoop.useful.toList = [0, 1] := by decide +kernel
  have hnext : succeeding sideLoop.successors sideLoop.useful 0 = [1] ∧
      succeeding sideLoop.successors sideLoop.useful 1 = [] := by decide +kernel
  rw [isFinite, ← answers_iff_hasCycle.1 (?_ : Answers _ _ _ _ false), Bool.not_false]
  rw [hroots]
  apply Answers.start (by decide)
  rw [hnext.1]
  apply Answers.enter (by decide)
  rw [hnext.2]
  apply Answers.leave
  apply Answers.leave
  apply Answers.skip (by decide)
  exact Answers.exhausted _

/-- A cycle that can be reached but leads to no final state makes an automaton cyclic, and not infinite. -/
theorem cycle_checks_sideLoop : sideLoop.WellFormed ∧
    (¬ ∀ p q, sideLoop.starts.contains p → Relation.ReflTransGen sideLoop.Step p q →
      ¬ Relation.TransGen sideLoop.Step q q) ∧
    sideLoop.starts.contains 0 ∧ Relation.ReflTransGen sideLoop.Step 0 0 ∧ sideLoop.finals.contains 1 ∧
    Relation.ReflTransGen sideLoop.Step 0 1 ∧ ¬ Relation.TransGen sideLoop.Step 0 0 := by
  obtain ⟨hacyclic, hfinite, _⟩ := cycle_checks_exact sideLoop_wellFormed
  have hstart : sideLoop.starts.contains 0 := by decide
  have hfinal : sideLoop.finals.contains 1 := by decide
  have hstep : Relation.ReflTransGen sideLoop.Step 0 1 := .single ⟨.symbol 0, by decide +kernel⟩
  exact ⟨sideLoop_wellFormed, mt hacyclic.2 (Bool.eq_false_iff.1 isAcyclic_sideLoop), hstart, .refl, hfinal, hstep,
    hfinite.1 isFinite_sideLoop 0 0 1 hstart .refl hfinal hstep⟩

end Automaton

end RegularLanguages
