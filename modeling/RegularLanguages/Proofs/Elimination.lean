import RegularLanguages.Proofs.ExpressionGraphs
import RegularLanguages.Proofs.Reachability

/-!
The expression that state elimination leaves denotes the accepted words: the graph of an automaton has the words
of its paths, from an entry before the start states to an exit after the final states.
-/
namespace RegularLanguages.Automaton

open ExpressionGraph

variable {A : Automaton}

theorem mem_reads_expressionGraph {p q : Nat} {word : List String} :
    word ∈ A.expressionGraph.reads p q ↔
      (A.useful.contains p ∧ A.useful.contains q ∧
        ∃ l, A.Edge p l q ∧ word ∈ (labelExpression l).language) ∨
      (p = A.numStates ∧ A.starts.contains q ∧ A.useful.contains q ∧ word = []) ∨
      (q = A.numStates + 1 ∧ A.finals.contains p ∧ A.useful.contains p ∧ word = []) := by
  rw [expressionGraph, mem_reads_foldl_add, reads_empty, or_iff_right (Language.notMem_zero _)]
  simp only [List.mem_append, or_and_right, exists_or, or_assoc]
  refine or_congr ?_ (or_congr ?_ ?_)
  · simp only [List.mem_filterMap, Transitions.mem_toList]
    constructor
    · rintro ⟨_, ⟨t, ht, h⟩, hword⟩
      split at h
      · rename_i huseful
        obtain ⟨l, hl, he⟩ := Option.map_eq_some_iff.1 h
        cases he
        rw [Bool.and_eq_true] at huseful
        exact ⟨huseful.1, huseful.2, l, ⟨t.label, hl, ht⟩, hword⟩
      · cases h
    · rintro ⟨hp, hq, l, ⟨k, hk, ht⟩, hword⟩
      exact ⟨_, ⟨⟨p, k, q⟩, ht, by simp [hp, hq, hk]⟩, hword⟩
  · simp only [List.mem_map, StateSet.mem_toList, StateSet.contains_inter, Bool.and_eq_true,
      Prod.mk.injEq]
    constructor
    · rintro ⟨_, ⟨r, ⟨hs, hu⟩, rfl, rfl, rfl⟩, hword⟩
      exact ⟨rfl, hs, hu, hword⟩
    · rintro ⟨rfl, hs, hu, hword⟩
      exact ⟨_, ⟨q, ⟨hs, hu⟩, rfl, rfl, rfl⟩, hword⟩
  · simp only [List.mem_map, StateSet.mem_toList, StateSet.contains_inter, Bool.and_eq_true,
      Prod.mk.injEq]
    constructor
    · rintro ⟨_, ⟨r, ⟨hf, hu⟩, rfl, rfl, rfl⟩, hword⟩
      exact ⟨rfl, hf, hu, hword⟩
    · rintro ⟨rfl, hf, hu, hword⟩
      exact ⟨_, ⟨p, ⟨hf, hu⟩, rfl, rfl, rfl⟩, hword⟩

theorem spans_expressionGraph (A : Automaton) :
    A.expressionGraph.Spans A.numStates A.useful.toList (A.numStates + 1) := by
  intro p q word hword
  simp only [StateSet.mem_toList]
  rcases mem_reads_expressionGraph.1 hword with ⟨hp, hq, _⟩ | ⟨rfl, _, hq, _⟩ | ⟨rfl, _, hp, _⟩
  · exact ⟨Or.inr hp, Or.inr hq⟩
  · exact ⟨Or.inl rfl, Or.inr hq⟩
  · exact ⟨Or.inr hp, Or.inl rfl⟩

private theorem Path.of_edge {p q : State} {l : Label String} {word : List String} (edge : A.Edge p l q)
    (hword : word ∈ (labelExpression l).language) : A.Path p word q := by
  cases l with
  | epsilon =>
    obtain rfl := Expression.mem_language_epsilon.1 hword
    exact .single_epsilon edge
  | symbol name =>
    obtain rfl := Expression.mem_language_symbol.1 hword
    exact .single_symbol edge

-- From a state, a path of the graph follows transitions and goes to the exit from a final state.
private theorem path_of_graph_path (hA : A.WellFormed) {p r : Nat} {word : List String}
    (h : A.expressionGraph.Path p word r) (hr : r = A.numStates + 1) (hp : p < A.numStates) :
    ∃ q, A.finals.contains q ∧ A.Path p word q := by
  induction h with
  | nil => omega
  | @cons p s r u v edge rest ih =>
    rcases mem_reads_expressionGraph.1 edge with ⟨_, hs, l, hedge, hu⟩ | ⟨rfl, _⟩ | ⟨rfl, hf, _, rfl⟩
    · obtain ⟨q, hq, hpath⟩ := ih hr (hA.useful_lt hs)
      exact ⟨q, hq, (Path.of_edge hedge hu).append hpath⟩
    · exact absurd hp (Nat.lt_irrefl _)
    · cases rest with
      | nil => exact ⟨p, hf, .nil p⟩
      | cons edge' _ =>
        obtain ⟨he | hu, _⟩ := A.spans_expressionGraph _ _ _ edge'
        · exact absurd he (Nat.succ_ne_self _)
        · exact absurd (hA.useful_lt (StateSet.mem_toList.1 hu)) (Nat.not_succ_lt_self)

private theorem graph_path_cons (hA : A.WellFormed) {p q : State} {l : Label String}
    {u v : List String} (edge : A.Edge p l q) (hu : u ∈ (labelExpression l).language)
    (hp : A.reachable.contains p) (hq : A.useful.contains q)
    (rest : A.expressionGraph.Path q v (A.numStates + 1)) :
    A.useful.contains p ∧ A.expressionGraph.Path p (u ++ v) (A.numStates + 1) := by
  have hcoreachable := hA.coreachable_of_path (Path.of_edge edge hu) (contains_useful.1 hq).2
  have hpuseful := contains_useful.2 ⟨hp, hcoreachable⟩
  exact ⟨hpuseful, .cons (mem_reads_expressionGraph.2 (Or.inl ⟨hpuseful, hq, l, edge, hu⟩)) rest⟩

-- States on a path from a reachable state to a final state are useful, so the graph has the path, too.
private theorem graph_path_of_path (hA : A.WellFormed) {p q : State} {word : List String}
    (h : A.Path p word q) (hp : A.reachable.contains p) (hq : A.finals.contains q) :
    A.useful.contains p ∧ A.expressionGraph.Path p word (A.numStates + 1) := by
  induction h with
  | nil q =>
    have hcoreachable := hA.contains_coreachable.2 ⟨q, [], hq, .nil q⟩
    have huseful := contains_useful.2 ⟨hp, hcoreachable⟩
    exact ⟨huseful, .single (mem_reads_expressionGraph.2 (Or.inr (Or.inr ⟨rfl, hq, huseful, rfl⟩)))⟩
  | epsilon edge _ ih =>
    obtain ⟨huseful, hgraph⟩ := ih (reachable_of_path (.single_epsilon edge) hp) hq
    exact graph_path_cons hA edge (Expression.mem_language_epsilon.2 rfl) hp huseful hgraph
  | symbol edge _ ih =>
    obtain ⟨huseful, hgraph⟩ := ih (reachable_of_path (.single_symbol edge) hp) hq
    exact graph_path_cons hA edge (Expression.mem_language_symbol.2 rfl) hp huseful hgraph

/-- The words along the paths from the entry to the exit are the accepted ones. -/
theorem WellFormed.path_expressionGraph_iff (hA : A.WellFormed) {word : List String} :
    A.expressionGraph.Path A.numStates word (A.numStates + 1) ↔ A.accepts word := by
  rw [accepts_iff]
  constructor
  · intro h
    generalize he : A.numStates + 1 = exit at h
    generalize hn : A.numStates = entry at h
    cases h with
    | nil => exact absurd (he.trans hn.symm) (Nat.succ_ne_self _)
    | @cons _ s _ u v edge rest =>
      subst hn
      rcases mem_reads_expressionGraph.1 edge with ⟨hu, _⟩ | ⟨_, hs, hu, rfl⟩ | ⟨_, _, hu, _⟩
      · exact absurd (hA.useful_lt hu) (Nat.lt_irrefl _)
      · obtain ⟨q, hq, hpath⟩ := path_of_graph_path hA rest he.symm (hA.useful_lt hu)
        exact ⟨s, q, hs, hq, hpath⟩
      · exact absurd (hA.useful_lt hu) (Nat.lt_irrefl _)
  · rintro ⟨p, q, hp, hq, h⟩
    have hreach : A.reachable.contains p := contains_reachable.2 ⟨p, [], hp, .nil p⟩
    obtain ⟨huseful, hgraph⟩ := graph_path_of_path hA h hreach hq
    have hedge : [] ∈ A.expressionGraph.reads A.numStates p :=
      mem_reads_expressionGraph.2 (Or.inr (Or.inl ⟨rfl, hp, huseful, rfl⟩))
    exact .cons hedge hgraph

/-- In either order of elimination, the expression of an automaton denotes the words that it accepts. -/
theorem mem_language_toExpression (hA : A.WellFormed) (order : EliminationOrder) (word : List String) :
    word ∈ (A.toExpression order).language ↔ A.accepts word := by
  have hinner : ∀ n, A.numStates ≤ n → n ∉ A.useful.toList := fun n hn h =>
    Nat.not_lt.2 hn (hA.useful_lt (StateSet.mem_toList.1 h))
  obtain ⟨hspans, hpaths⟩ := eliminateAll_spec order A.useful.toList.length A.spans_expressionGraph
    (Nat.le_refl _) (hinner _ (Nat.le_refl _)) (hinner _ (Nat.le_succ _))
  have hlabel : (A.toExpression order).language =
      (A.expressionGraph.eliminateAll order A.useful.toList.length A.useful.toList).1.reads
        A.numStates (A.numStates + 1) := by
    change (((A.expressionGraph.eliminateAll order A.useful.toList.length A.useful.toList).1.label?
      A.numStates (A.numStates + 1)).getD .empty).language = _
    rw [reads]
    cases (A.expressionGraph.eliminateAll order A.useful.toList.length A.useful.toList).1.label?
      A.numStates (A.numStates + 1) <;> rfl
  rw [hlabel, ← hspans.path_iff_mem_reads (Nat.ne_of_lt (Nat.lt_succ_self _)), hpaths,
    hA.path_expressionGraph_iff]

theorem language_toExpression_circle : ["a", "a"] ∈ ((circle 2).toExpression .fewestEdges).language ∧
    ["a"] ∉ ((circle 2).toExpression .insertion).language := by
  have hcircle := circle_wellFormed (n := 2) (by decide)
  refine ⟨(mem_language_toExpression hcircle _ _).2 (by decide), fun h => ?_⟩
  have haccepts := (mem_language_toExpression hcircle _ _).1 h
  exact absurd haccepts (by decide)

end RegularLanguages.Automaton
