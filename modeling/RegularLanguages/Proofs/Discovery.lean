import Mathlib.Data.List.ReduceOption
import RegularLanguages.Proofs.Listing
import RegularLanguages.Proofs.Numbering

/-!
The order of discovery. An exploration gives the next number to whatever its rows come to first, and the relation of its
rows lists transitions by source and symbol. So the numbers of states follow from the order in which transitions are
listed.
-/
namespace RegularLanguages

/-- The numbers of a list are below `n` or come up for the first time in ascending order: `n`, then `n + 1`, until all
below `m` are known. -/
inductive Introduces : Nat → List Nat → Nat → Prop
  | nil (n : Nat) : Introduces n [] n
  | old {n m i : Nat} {rest : List Nat} (known : i < n) (tail : Introduces n rest m) : Introduces n (i :: rest) m
  | new {n m : Nat} {rest : List Nat} (tail : Introduces (n + 1) rest m) : Introduces n (n :: rest) m

namespace Introduces

variable {k m n : Nat} {l l' : List Nat}

theorem append (h : Introduces n l m) (h' : Introduces m l' k) : Introduces n (l ++ l') k := by
  induction h with
  | nil => exact h'
  | old known _ ih => exact .old known (ih h')
  | new _ ih => exact .new (ih h')

private theorem mem_of_lt {front rest : List Nat} {j : Nat} (h : Introduces n (front ++ j :: rest) m) {i : Nat} (hi : i < j) :
    i < n ∨ i ∈ front := by
  induction front generalizing n with
  | nil =>
    cases h with
    | old known => exact Or.inl (Nat.lt_trans hi known)
    | new => exact Or.inl hi
  | cons k front ih =>
    cases h with
    | old _ tail => exact (ih tail).imp_right (List.mem_cons_of_mem _)
    | new tail =>
      rcases ih tail with hlt | hmem
      · rcases Nat.lt_succ_iff_lt_or_eq.1 hlt with hlt | rfl
        · exact Or.inl hlt
        · exact Or.inr List.mem_cons_self
      · exact Or.inr (List.mem_cons_of_mem _ hmem)

end Introduces

namespace Exploration

variable {α : Type} {key : α → Nat} {next : α → List (Option α)} {x : α} {E : Exploration α}

def hits (rows : List (List (Option Nat))) : List Nat := rows.flatMap List.reduceOption

private theorem locate_introduces (hE : E.Indexed key) (y : α) :
    Introduces E.found.size [(E.locate key y).2] (E.locate key y).1.found.size := by
  unfold locate
  split
  · rename_i i hi
    obtain ⟨_, hfound, _⟩ := (hE _ _).1 hi
    exact .old (Array.getElem?_eq_some_iff.1 hfound).1 (.nil _)
  · refine .new ?_
    rw [← Array.size_push]
    exact .nil _

variable (hkey : Function.Injective key)

include hkey

private theorem locateAll_introduces (hE : E.Indexed key) (successors : List (Option α)) :
    Introduces E.found.size (E.locateAll key successors).2.reduceOption (E.locateAll key successors).1.found.size := by
  induction successors generalizing E with
  | nil => exact .nil _
  | cons s rest ih =>
    cases s with
    | none => exact ih hE
    | some y => exact (locate_introduces hE y).append (ih (locate_spec hkey hE y).1.indexed)

private theorem run_introduces (steps : Nat) (hE : Sound key next x E) (h : Introduces 1 (hits E.rows.toList) E.found.size) :
    Introduces 1 (hits (run key next steps E).rows.toList) (run key next steps E).found.size := by
  induction steps generalizing E with
  | zero => exact h
  | succ steps ih =>
    rw [run]
    split
    · exact h
    · rename_i y hy
      refine ih (advance_sound hkey hE hy) ?_
      have hrows : (E.advance key (next y)).rows.toList = E.rows.toList ++ [(E.locateAll key (next y)).2] := by
        change ((E.locateAll key (next y)).1.rows.push _).toList = _
        rw [(locateAll_spec hkey hE.indexed (next y)).1.rows, Array.toList_push]
      rw [hrows, hits, List.flatMap_append, List.flatMap_singleton]
      exact h.append (locateAll_introduces hkey hE.indexed (next y))

/-- Positions are given out in the order in which the rows come to them. -/
theorem explore_introduces (bound : Nat) :
    Introduces 1 (hits (explore key next bound x).rows.toList) (explore key next bound x).found.size :=
  run_introduces hkey bound (start_sound key next x) (.nil 1)

end Exploration

/-- Earlier in the order of sources, and of symbols for one source. -/
def Transition.Before (s t : Transition) : Prop :=
  s.source < t.source ∨ s.source = t.source ∧ s.label.rank < t.label.rank

private theorem Transition.Before.key_ne {s t : Transition} (h : s.Before t) : (s.source, s.label) ≠ (t.source, t.label) := by
  intro he
  obtain ⟨hsource, hlabel⟩ := Prod.mk.inj he
  rcases h with h | ⟨_, h⟩
  · exact Nat.ne_of_lt h hsource
  · exact Nat.ne_of_lt h (congrArg Label.rank hlabel)

private theorem pairwise_zipIdx {α : Type} (l : List α) : l.zipIdx.Pairwise fun a b => a.2 < b.2 := by
  refine List.pairwise_map.1 ?_
  rw [List.zipIdx_map_snd]
  exact List.pairwise_lt_range' 1

namespace Transitions

def rowSteps (source : State) (row : List (Option State)) : List Transition :=
  row.zipIdx.filterMap fun t => t.1.map fun target => ⟨source, .symbol t.2, target⟩

theorem source_of_mem_rowSteps {source : State} {row : List (Option State)} {t : Transition}
    (h : t ∈ rowSteps source row) : t.source = source := by
  obtain ⟨_, _, ht⟩ := List.mem_filterMap.1 h
  obtain ⟨_, _, rfl⟩ := Option.map_eq_some_iff.1 ht
  rfl

private theorem pairwise_rowSteps (source : State) (row : List (Option State)) :
    (rowSteps source row).Pairwise Transition.Before := by
  refine List.pairwise_filterMap.2 ((pairwise_zipIdx row).imp fun {a b} hlt s hs t ht => ?_)
  obtain ⟨_, _, rfl⟩ := Option.map_eq_some_iff.1 hs
  obtain ⟨_, _, rfl⟩ := Option.map_eq_some_iff.1 ht
  exact Or.inr ⟨rfl, Nat.succ_lt_succ hlt⟩

private theorem map_target_rowSteps (source : State) (row : List (Option State)) :
    (rowSteps source row).map Transition.target = row.reduceOption := by
  have htarget : ∀ t : Option State × Nat,
      (t.1.map fun target => (⟨source, .symbol t.2, target⟩ : Transition)).map Transition.target = t.1 := by
    rintro ⟨s, a⟩
    cases s <;> rfl
  rw [rowSteps, List.map_filterMap]
  simp only [htarget]
  rw [← Function.id_comp Prod.fst, ← List.filterMap_map, List.zipIdx_map_fst]
  rfl

theorem pairwise_rows (rows : List (List (Option State))) :
    (rows.zipIdx.flatMap fun r => rowSteps r.2 r.1).Pairwise Transition.Before := by
  refine List.pairwise_flatMap.2 ⟨fun r _ => pairwise_rowSteps r.2 r.1, ?_⟩
  refine (pairwise_zipIdx rows).imp fun {a b} hlt s hs t ht => Or.inl ?_
  rw [source_of_mem_rowSteps hs, source_of_mem_rowSteps ht]
  exact hlt

/-- Rows are listed one after the other. -/
theorem toList_ofRows (rows : List (List (Option State))) :
    (ofRows rows).toList = rows.zipIdx.flatMap fun r => rowSteps r.2 r.1 := by
  refine toList_ofList (List.pairwise_map.2 ?_)
  exact (pairwise_rows rows).imp Transition.Before.key_ne

private theorem map_target_ofRows (rows : List (List (Option State))) :
    (ofRows rows).toList.map Transition.target = Exploration.hits rows := by
  rw [toList_ofRows, List.map_flatMap, Exploration.hits]
  simp only [map_target_rowSteps]
  rw [← List.flatMap_map Prod.fst, List.zipIdx_map_fst]

end Transitions

namespace Automaton

/-- Transitions are listed by source and then by symbol, and before one of them leads to a state, others have led to all
states of smaller numbers, except to the first. -/
structure InDiscoveryOrder (D : Automaton) : Prop where
  sorted : D.transitions.toList.Pairwise Transition.Before
  discovered : ∀ front t rest, D.transitions.toList = front ++ t :: rest →
    ∀ q < t.target, q = 0 ∨ ∃ s ∈ front, s.target = q

theorem BreadthFirst.inDiscoveryOrder {D : Automaton} (h : D.BreadthFirst) : D.InDiscoveryOrder := by
  obtain ⟨α, key, next, bound, x, hkey, hD, _⟩ := h
  refine ⟨?_, fun front t rest hlist q hq => ?_⟩
  · rw [hD.transitions_eq, Transitions.toList_ofRows]
    exact Transitions.pairwise_rows _
  · have htargets := congrArg (List.map Transition.target) hlist
    rw [hD.transitions_eq, Transitions.map_target_ofRows, List.map_append, List.map_cons] at htargets
    have hintroduces : Introduces 1 (Exploration.hits (Exploration.explore key next bound x).rows.toList)
        (Exploration.explore key next bound x).found.size := Exploration.explore_introduces hkey bound
    rw [htargets] at hintroduces
    rcases hintroduces.mem_of_lt hq with hlt | hmem
    · exact Or.inl (Nat.lt_one_iff.1 hlt)
    · exact Or.inr (List.mem_map.1 hmem)

end Automaton

end RegularLanguages
