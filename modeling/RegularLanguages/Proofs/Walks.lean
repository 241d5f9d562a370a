import Mathlib.Data.Fintype.Pigeonhole
import RegularLanguages.Proofs.Enumeration
import RegularLanguages.Proofs.Reversal
import RegularLanguages.Proofs.Thompson

/-!
Walks along transitions, whatever these read. The searches find the states on walks from start states and to final states,
and reversal exchanges the two. A word that leads somewhere can be shortened until it has fewer symbols than there are
states, so an automaton that accepts any word accepts a short one.
-/
namespace RegularLanguages.Automaton

def Step (A : Automaton) (p q : State) : Prop := ∃ l, A.transitions.contains p l q

variable {A : Automaton} {p q : State} {word : List String}

private theorem step_reverse : A.reverse.Step p q ↔ A.Step q p := exists_congr fun _ => contains_reverse

theorem walk_reverse : Relation.ReflTransGen A.reverse.Step p q ↔ Relation.ReflTransGen A.Step q p := by
  have hswap : A.reverse.Step = Function.swap A.Step := by
    funext p q
    exact propext step_reverse
  rw [hswap, Relation.reflTransGen_swap]

namespace WellFormed

/-- All labels in use have names, so every step is an edge. -/
theorem step_iff (hA : A.WellFormed) : A.Step p q ↔ ∃ l, A.Edge p l q := by
  rw [edge_iff_of_knows]
  exact exists_congr fun l => ⟨fun h => ⟨(hA.transitions p l q h).2.1, h⟩, And.right⟩

theorem walk_iff (hA : A.WellFormed) : Relation.ReflTransGen A.Step p q ↔ ∃ word, A.Path p word q := by
  have hedges : A.Step = fun p q => ∃ l, A.Edge p l q := by
    funext p q
    exact propext hA.step_iff
  rw [hedges, exists_path_iff]

theorem reachable_iff_walk (hA : A.WellFormed) :
    A.reachable.contains q ↔ ∃ p, A.starts.contains p ∧ Relation.ReflTransGen A.Step p q := by
  simp only [contains_reachable, hA.walk_iff, exists_and_left]

theorem coreachable_iff_walk (hA : A.WellFormed) :
    A.coreachable.contains p ↔ ∃ q, A.finals.contains q ∧ Relation.ReflTransGen A.Step p q := by
  simp only [hA.contains_coreachable, hA.walk_iff, exists_and_left]

theorem reachable_reverse (hA : A.WellFormed) : A.reverse.reachable = A.coreachable := by
  refine StateSet.eq_of_contains_iff fun q => ?_
  rw [hA.reverse.reachable_iff_walk, hA.coreachable_iff_walk]
  simp only [walk_reverse]
  rfl

theorem coreachable_reverse (hA : A.WellFormed) : A.reverse.coreachable = A.reachable := by
  refine StateSet.eq_of_contains_iff fun q => ?_
  rw [hA.reverse.coreachable_iff_walk, hA.reachable_iff_walk]
  simp only [walk_reverse]
  rfl

private theorem exists_shorter (hA : A.WellFormed) (hp : p < A.numStates) (h : A.Path p word q)
    (hlong : A.numStates ≤ word.length) : ∃ shorter, A.Path p shorter q ∧ shorter.length < word.length := by
  -- A word of at least as many symbols as there are states passes through some state two times, and what is read
  -- in between can be left out.
  have hcut : ∀ i : Fin (word.length + 1), ∃ s : Fin A.numStates,
      A.Path p (word.take i) s ∧ A.Path s (word.drop i) q := by
    intro i
    rw [← List.take_append_drop i word] at h
    obtain ⟨s, hfront, hrest⟩ := h.split
    exact ⟨⟨s, hA.path_lt hfront hp⟩, hfront, hrest⟩
  choose middle hfront hrest using hcut
  have hcard : Fintype.card (Fin A.numStates) < Fintype.card (Fin (word.length + 1)) := by
    rw [Fintype.card_fin, Fintype.card_fin]
    omega
  obtain ⟨i, j, hne, hsame⟩ := Fintype.exists_ne_map_eq_of_card_lt middle hcard
  have hskip : ∀ i j : Fin (word.length + 1), i < j → middle i = middle j →
      ∃ shorter, A.Path p shorter q ∧ shorter.length < word.length := by
    intro i j hij hsame
    have hpath := (hfront i).append (hsame ▸ hrest j)
    refine ⟨_, hpath, ?_⟩
    rw [List.length_append, List.length_take, List.length_drop]
    omega
  rcases Nat.lt_or_gt_of_ne (Fin.val_ne_of_ne hne) with hij | hij
  · exact hskip i j hij hsame
  · exact hskip j i hij hsame.symm

private theorem exists_short_path (hA : A.WellFormed) (hp : p < A.numStates) (h : A.Path p word q) :
    ∃ short, A.Path p short q ∧ short.length < A.numStates := by
  induction hn : word.length using Nat.strong_induction_on generalizing word with
  | _ n ih =>
    by_cases hshort : word.length < A.numStates
    · exact ⟨word, h, hshort⟩
    · obtain ⟨shorter, hshorter, hlt⟩ := hA.exists_shorter hp h (Nat.not_lt.1 hshort)
      exact ih shorter.length (hn ▸ hlt) hshorter rfl

theorem acceptedWords_eq_nil_iff (hA : A.WellFormed) : A.acceptedWords A.numStates = [] ↔ A.isEmpty := by
  rw [isEmpty_iff, List.eq_nil_iff_forall_not_mem]
  simp only [(acceptedWords_exact A A.numStates).1]
  constructor
  · intro h word
    refine Bool.eq_false_iff.2 fun haccepts => ?_
    obtain ⟨p, q, hp, hq, hpath⟩ := accepts_iff.1 haccepts
    obtain ⟨short, hshort, hlt⟩ := hA.exists_short_path (hA.starts_lt p hp) hpath
    exact h short ⟨Nat.le_of_lt hlt, accepts_iff.2 ⟨p, q, hp, hq, hshort⟩⟩
  · intro h word hword
    rw [h word] at hword
    cases hword.2

end WellFormed

/-- The reachable states are those on walks from start states, the coreachable ones those on walks to final states, and the
useful ones are both; reversal exchanges reachable and coreachable states. An automaton is empty if and only if it accepts
no word, and it is enough to look at words with at most as many symbols as there are states. -/
theorem reachability_exact (hA : A.WellFormed) :
    (∀ q, A.reachable.contains q ↔ ∃ p, A.starts.contains p ∧ Relation.ReflTransGen A.Step p q) ∧
      (∀ p, A.coreachable.contains p ↔ ∃ q, A.finals.contains q ∧ Relation.ReflTransGen A.Step p q) ∧
      (∀ q, A.useful.contains q ↔ A.reachable.contains q ∧ A.coreachable.contains q) ∧
      A.reverse.reachable = A.coreachable ∧ A.reverse.coreachable = A.reachable ∧
      (A.isEmpty ↔ ∀ word, A.accepts word = false) ∧ (A.isEmpty ↔ A.acceptedWords A.numStates = []) :=
  ⟨fun _ => hA.reachable_iff_walk, fun _ => hA.coreachable_iff_walk, fun _ => contains_useful, hA.reachable_reverse,
    hA.coreachable_reverse, isEmpty_iff, hA.acceptedWords_eq_nil_iff.symm⟩

/-- The automaton of `a∅` reads a symbol, but no final state comes after it, not even with words of four symbols. -/
theorem reachability_thompson :
    (Expression.concatenation (.symbol "a") .empty).thompson.WellFormed ∧
    (∃ p, (Expression.concatenation (.symbol "a") .empty).thompson.starts.contains p ∧
      Relation.ReflTransGen (Expression.concatenation (.symbol "a") .empty).thompson.Step p 2) ∧
    (¬ ∃ q, (Expression.concatenation (.symbol "a") .empty).thompson.finals.contains q ∧
      Relation.ReflTransGen (Expression.concatenation (.symbol "a") .empty).thompson.Step 2 q) ∧
    (∀ word, (Expression.concatenation (.symbol "a") .empty).thompson.accepts word = false) ∧
    (Expression.concatenation (.symbol "a") .empty).thompson.acceptedWords 4 = [] := by
  have hwell := Expression.thompson_wellFormed (.concatenation (.symbol "a") .empty)
  obtain ⟨hreachable, hcoreachable, _, _, _, hwords, hshort⟩ := reachability_exact hwell
  have hempty : (Expression.concatenation (.symbol "a") .empty).thompson.isEmpty := by decide +kernel
  have hfound : (Expression.concatenation (.symbol "a") .empty).thompson.reachable.contains 2 := by decide +kernel
  have hdead : (Expression.concatenation (.symbol "a") .empty).thompson.coreachable.contains 2 = false := by decide +kernel
  exact ⟨hwell, (hreachable 2).1 hfound, mt (hcoreachable 2).2 (Bool.eq_false_iff.1 hdead), hwords.1 hempty,
    hshort.1 hempty⟩

end RegularLanguages.Automaton
