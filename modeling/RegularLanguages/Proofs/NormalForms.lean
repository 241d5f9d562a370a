import RegularLanguages.Proofs.Elimination

/-!
What state elimination leaves is in normal form. The simplifying constructors keep expressions simplified, so all labels of
the graph are simplified at any time; and a simplified expression denotes some word, so `empty` is left only if there is
none.
-/
namespace RegularLanguages

namespace Expression

/-- Nothing is left to simplify: no `empty` anywhere, no factor `epsilon`, no union of two equal expressions, and no star
of `epsilon` or of a star. -/
def Simplified : Expression → Prop
  | empty => False
  | epsilon | symbol _ => True
  | concatenation l r => l ≠ epsilon ∧ r ≠ epsilon ∧ l.Simplified ∧ r.Simplified
  | union l r => l ≠ r ∧ l.Simplified ∧ r.Simplified
  | kleeneStar e => e ≠ epsilon ∧ (∀ f, e ≠ kleeneStar f) ∧ e.Simplified

def leaves : Expression → List String
  | empty | epsilon => []
  | symbol name => [name]
  | concatenation l r | union l r => l.leaves ++ r.leaves
  | kleeneStar e => e.leaves

variable {e l r : Expression}

namespace Simplified

theorem concat (hl : l.Simplified) (hr : r.Simplified) : (l.concat r).Simplified := by
  fun_cases Expression.concat l r with
  | case1 => exact hl
  | case2 => exact hr
  | case3 => exact hr
  | case4 => exact hl
  | case5 _ _ _ _ hl' hr' => exact ⟨hl', hr', hl, hr⟩

theorem alternative (hl : l.Simplified) (hr : r.Simplified) : (l.alternative r).Simplified := by
  fun_cases Expression.alternative l r with
  | case1 => exact hr
  | case2 => exact hl
  | case3 => exact hl
  | case4 _ _ _ _ hne => exact ⟨hne, hl, hr⟩

theorem iterate (he : e.Simplified) : e.iterate.Simplified := by
  fun_cases Expression.iterate e with
  | case1 => exact trivial
  | case2 => exact trivial
  | case3 => exact he
  | case4 _ _ hepsilon hstar => exact ⟨hepsilon, hstar, he⟩

private theorem exists_mem_language (he : e.Simplified) : ∃ word, word ∈ e.language := by
  induction e with
  | empty => cases he
  | epsilon => exact ⟨[], rfl⟩
  | symbol name => exact ⟨[name], rfl⟩
  | concatenation l r ihl ihr =>
    obtain ⟨_, _, hl, hr⟩ := he
    obtain ⟨u, hu⟩ := ihl hl
    obtain ⟨v, hv⟩ := ihr hr
    exact ⟨u ++ v, Language.append_mem_mul hu hv⟩
  | union l r ihl _ =>
    obtain ⟨u, hu⟩ := ihl he.2.1
    exact ⟨u, Or.inl hu⟩
  | kleeneStar e => exact ⟨[], Language.nil_mem_kstar _⟩

end Simplified

private theorem leaves_concat_subset (l r : Expression) : (l.concat r).leaves ⊆ l.leaves ++ r.leaves := by
  fun_cases concat l r with
  | case1 => exact List.nil_subset _
  | case2 => exact List.nil_subset _
  | case3 => exact List.subset_append_right _ _
  | case4 => exact List.subset_append_left _ _
  | case5 => exact List.Subset.refl _

private theorem leaves_alternative_subset (l r : Expression) : (l.alternative r).leaves ⊆ l.leaves ++ r.leaves := by
  fun_cases alternative l r with
  | case1 => exact List.subset_append_right _ _
  | case2 => exact List.subset_append_left _ _
  | case3 => exact List.subset_append_left _ _
  | case4 => exact List.Subset.refl _

private theorem leaves_iterate (e : Expression) : e.iterate.leaves = e.leaves := by
  fun_cases iterate e <;> rfl

/-- Simplified, with symbols that have a property. -/
structure Clean (P : String → Prop) (e : Expression) : Prop where
  simplified : e.Simplified
  leaves : ∀ name ∈ e.leaves, P name

namespace Clean

variable {P : String → Prop}

theorem epsilon : Clean P .epsilon := ⟨trivial, List.forall_mem_nil P⟩

theorem concat (hl : l.Clean P) (hr : r.Clean P) : (l.concat r).Clean P :=
  ⟨hl.simplified.concat hr.simplified, fun name h =>
    (List.mem_append.1 (leaves_concat_subset l r h)).elim (hl.leaves name) (hr.leaves name)⟩

theorem alternative (hl : l.Clean P) (hr : r.Clean P) : (l.alternative r).Clean P :=
  ⟨hl.simplified.alternative hr.simplified, fun name h =>
    (List.mem_append.1 (leaves_alternative_subset l r h)).elim (hl.leaves name) (hr.leaves name)⟩

theorem iterate (he : e.Clean P) : e.iterate.Clean P :=
  ⟨he.simplified.iterate, fun name h => he.leaves name (leaves_iterate e ▸ h)⟩

end Clean

end Expression

namespace ExpressionGraph

open Expression

variable {G : ExpressionGraph} {P : String → Prop}

/-- All labels are simplified, with symbols that have a property. -/
def Clean (P : String → Prop) (G : ExpressionGraph) : Prop := ∀ p q e, G.label? p q = some e → e.Clean P

namespace Clean

theorem filter (h : G.Clean P) (f : Nat × Nat → Bool) : (G.filter f).Clean P := by
  intro p q e he
  rw [label?_filter] at he
  split at he
  · exact h p q e he
  · cases he

theorem put (h : G.Clean P) {label : Expression} (hlabel : label.Clean P) (s t : Nat) : (G.put s t label).Clean P := by
  intro p q e he
  rw [label?_put] at he
  split at he
  · exact Option.some.inj he ▸ hlabel
  · exact h p q e he

theorem add (h : G.Clean P) {label : Expression} (hlabel : label.Clean P) (s t : Nat) : (G.add s t label).Clean P := by
  rw [ExpressionGraph.add]
  split
  · rename_i existing hexisting
    exact h.put ((h s t existing hexisting).alternative hlabel) s t
  · exact h.put hlabel s t

theorem addAll {edges : List (Nat × Nat × Expression)} (h : G.Clean P) (hedges : ∀ e ∈ edges, e.2.2.Clean P) :
    (edges.foldl (fun G e => G.add e.1 e.2.1 e.2.2) G).Clean P := by
  induction edges generalizing G with
  | nil => exact h
  | cons edge edges ih =>
    obtain ⟨hedge, hedges⟩ := List.forall_mem_cons.1 hedges
    exact ih (h.add hedge _ _) hedges

theorem repetition (h : G.Clean P) (k : Nat) : (G.repetition k).Clean P := by
  rw [ExpressionGraph.repetition]
  split
  · rename_i e he
    exact (h k k e he).iterate
  · exact .epsilon

theorem eliminate (h : G.Clean P) (k : Nat) : (G.eliminate k).Clean P := by
  apply (h.filter fun e => e.1 != k && e.2 != k).addAll
  intro edge hedge
  obtain ⟨i, hi, hmem⟩ := List.mem_flatMap.1 hedge
  obtain ⟨o, ho, rfl⟩ := List.mem_map.1 hmem
  have hinto := h _ _ _ (mem_incoming.1 hi).2
  have hout := h _ _ _ (mem_outgoing.1 ho).2
  exact hinto.concat ((h.repetition k).concat hout)

/-- Whatever is eliminated, in whatever order, the labels stay clean. -/
theorem eliminateAll (h : G.Clean P) (order : EliminationOrder) (count : Nat) (nodes : List Nat) :
    (G.eliminateAll order count nodes).1.Clean P := by
  induction count generalizing G nodes with
  | zero => exact h
  | succ count ih =>
    rw [ExpressionGraph.eliminateAll]
    split
    · exact h
    · exact ih (h.eliminate _) _

private theorem empty_or_label (h : G.Clean P) (p q : Nat) :
    (G.label? p q).getD .empty = .empty ∨ ((G.label? p q).getD .empty).Clean P := by
  cases hlabel : G.label? p q with
  | none => exact Or.inl rfl
  | some e => exact Or.inr (h p q e hlabel)

end Clean

end ExpressionGraph

namespace Automaton

open Expression

variable {A : Automaton}

def ReadsUsefully (A : Automaton) (name : String) : Prop :=
  ∃ p q, A.useful.contains p ∧ A.useful.contains q ∧ A.Edge p (.symbol name) q

private theorem expressionGraph_clean (A : Automaton) : A.expressionGraph.Clean A.ReadsUsefully := by
  have hempty : (∅ : ExpressionGraph).Clean A.ReadsUsefully := fun _ _ _ h => nomatch h
  apply hempty.addAll
  intro edge hedge
  rw [List.mem_append, List.mem_append] at hedge
  rcases hedge with (hinner | hentry) | hexit
  · obtain ⟨t, ht, hsome⟩ := List.mem_filterMap.1 hinner
    split at hsome
    · rename_i huseful
      rw [Bool.and_eq_true] at huseful
      obtain ⟨l, hl, rfl⟩ := Option.map_eq_some_iff.1 hsome
      cases l with
      | epsilon => exact .epsilon
      | symbol name =>
        refine ⟨trivial, fun other hother => ?_⟩
        obtain rfl := List.mem_singleton.1 hother
        exact ⟨t.source, t.target, huseful.1, huseful.2, t.label, hl, Transitions.mem_toList.1 ht⟩
    · cases hsome
  · obtain ⟨q, _, rfl⟩ := List.mem_map.1 hentry
    exact .epsilon
  · obtain ⟨q, _, rfl⟩ := List.mem_map.1 hexit
    exact .epsilon

/-- The expression is the label of an edge that is left, unless there is none. -/
theorem toExpression_clean (A : Automaton) (order : EliminationOrder) :
    A.toExpression order = .empty ∨ (A.toExpression order).Clean A.ReadsUsefully :=
  (A.expressionGraph_clean.eliminateAll order A.useful.toList.length A.useful.toList).empty_or_label _ _

/-- In either order, state elimination answers `empty` if and only if no word is accepted. Any other answer is simplified,
and its symbols are read by transitions between useful states. -/
theorem toExpression_normal (hA : A.WellFormed) (order : EliminationOrder) :
    (A.toExpression order = .empty ↔ ∀ word, A.accepts word = false) ∧
      (A.toExpression order ≠ .empty → (A.toExpression order).Simplified ∧
        ∀ name ∈ (A.toExpression order).leaves, ∃ p q, A.useful.contains p ∧ A.useful.contains q ∧
          A.Edge p (.symbol name) q) := by
  constructor
  · constructor
    · intro hempty word
      rw [Bool.eq_false_iff, Ne, ← mem_language_toExpression hA order, hempty]
      exact Language.notMem_zero word
    · intro h
      refine (A.toExpression_clean order).resolve_right fun hclean => ?_
      obtain ⟨word, hword⟩ := hclean.simplified.exists_mem_language
      rw [mem_language_toExpression hA, h word] at hword
      cases hword
  · intro hne
    have hclean := (A.toExpression_clean order).resolve_left hne
    exact ⟨hclean.simplified, hclean.leaves⟩

/-- The circle of two states reads one letter, which is at every leaf of its expression. -/
theorem toExpression_normal_circle : (circle 2).WellFormed ∧ (circle 2).accepts [] ∧
    (circle 2).toExpression .insertion ≠ .empty ∧ ((circle 2).toExpression .insertion).Simplified ∧
    ((circle 2).toExpression .insertion).leaves = ["a", "a", "a", "a"] ∧
    ∃ p q, (circle 2).useful.contains p ∧ (circle 2).useful.contains q ∧ (circle 2).Edge p (.symbol "a") q := by
  have hcircle := circle_wellFormed (n := 2) (by decide)
  obtain ⟨hempty, hnormal⟩ := toExpression_normal hcircle .insertion
  have haccepts : (circle 2).accepts [] := by decide
  have hne : (circle 2).toExpression .insertion ≠ .empty := by
    intro h
    rw [hempty.1 h] at haccepts
    cases haccepts
  have hleaves : ((circle 2).toExpression .insertion).leaves = ["a", "a", "a", "a"] := by decide +kernel
  obtain ⟨hsimplified, hread⟩ := hnormal hne
  exact ⟨hcircle, haccepts, hne, hsimplified, hleaves, hread "a" (by rw [hleaves]; decide)⟩

end Automaton

end RegularLanguages
