import RegularLanguages.Proofs.Embedding
import RegularLanguages.Proofs.Growth

/-!
Union and concatenation. Copies of two automata side by side have no edges between them, so a run goes from one to the
other only along the links that are added: into either copy for a union, out of the first into the second for a chain.
-/
namespace RegularLanguages.Automaton

open Computability

variable {A B R : Automaton} {p q s : State} {word : List String}

private theorem WellFormed.extends_embed (hR : R.WellFormed) (hA : A.WellFormed) : R.Extends (R.embed A) where
  le := Nat.le_add_right _ _
  wellFormed := hR.embed hA
  old p l q hp := by
    rw [hR.edge_embed_iff hA]
    apply or_iff_left
    intro ⟨s, t, _, he, _⟩
    exact Nat.not_lt.2 (Nat.le_add_right R.numStates s) (he ▸ hp)
  new p l q hp edge := by
    rcases (hR.edge_embed_iff hA).1 edge with edge | ⟨s, t, _, _, rfl⟩
    · exact absurd (hR.edge_lt edge).1 (Nat.not_lt.2 hp)
    · exact Nat.le_add_right R.numStates t

/-- From a copied state the edges are copies. -/
theorem WellFormed.edge_embed_add_iff (hR : R.WellFormed) (hA : A.WellFormed) {l : Label String} :
    (R.embed A).Edge (R.numStates + s) l q ↔ ∃ t, A.Edge s l t ∧ q = R.numStates + t := by
  rw [hR.edge_embed_iff hA]
  constructor
  · rintro (edge | ⟨s', t, edge, hs, ht⟩)
    · exact absurd (hR.edge_lt edge).1 (Nat.not_lt.2 (Nat.le_add_right _ s))
    · obtain rfl := Nat.add_left_cancel hs
      exact ⟨t, edge, ht⟩
  · intro ⟨t, edge, ht⟩
    exact Or.inr ⟨s, t, edge, rfl, ht⟩

/-- A path from a copied state is the copy of a path. -/
theorem WellFormed.path_embed_add_iff (hR : R.WellFormed) (hA : A.WellFormed) :
    (R.embed A).Path (R.numStates + s) word q ↔ ∃ t, A.Path s word t ∧ q = R.numStates + t := by
  constructor
  · intro h
    generalize hp : R.numStates + s = p at h
    induction h generalizing s with
    | nil => exact ⟨s, .nil s, hp.symm⟩
    | epsilon edge _ ih =>
      subst hp
      obtain ⟨t, hedge, ht⟩ := (hR.edge_embed_add_iff hA).1 edge
      obtain ⟨r, hpath, hr⟩ := ih ht.symm
      exact ⟨r, .epsilon hedge hpath, hr⟩
    | symbol edge _ ih =>
      subst hp
      obtain ⟨t, hedge, ht⟩ := (hR.edge_embed_add_iff hA).1 edge
      obtain ⟨r, hpath, hr⟩ := ih ht.symm
      exact ⟨r, .symbol hedge hpath, hr⟩
  · intro ⟨t, path, ht⟩
    subst ht
    induction path with
    | nil => exact .nil _
    | epsilon edge _ ih => exact .epsilon ((hR.edge_embed_add_iff hA).2 ⟨_, edge, rfl⟩) ih
    | symbol edge _ ih => exact .symbol ((hR.edge_embed_add_iff hA).2 ⟨_, edge, rfl⟩) ih

/-- The symbols of `A`, and after them those of `B` that `A` lacks. -/
theorem names_sideBySide (A B : Automaton) : (A.sideBySide B).alphabet.names =
    A.alphabet.names ++ B.alphabet.names.filter fun name => !A.alphabet.contains name := by
  have hfirst : (Alphabet.internAll ∅ A.alphabet.names).names = A.alphabet.names :=
    Alphabet.names_ofNames A.alphabet.nodup
  have hboth := Alphabet.names_internAll (A := Alphabet.internAll ∅ A.alphabet.names) B.alphabet.nodup
  simp only [Alphabet.contains, hfirst] at hboth
  exact hboth

theorem lt_numStates_sideBySide {S T : StateSet} (hS : ∀ q : Nat, S.contains q → q < A.numStates)
    (hT : ∀ q : Nat, T.contains q → q < B.numStates) :
    ∀ q : Nat, S.contains q ∨ (T.shift A.numStates).contains q → q < (A.sideBySide B).numStates := by
  intro q hq
  rw [numStates_sideBySide]
  rcases hq with hq | hq
  · exact Nat.lt_add_right _ (hS q hq)
  · exact StateSet.lt_of_contains_shift hT hq

/-- The final states of the first copy are linked to the start states of the second. -/
theorem chain_linkedBy (A B : Automaton) :
    LinkedBy (fun p q => A.finals.contains p ∧ (B.starts.shift A.numStates).contains q) (A.sideBySide B)
      (A.chain B) := by
  have hlinks := linkAll_linkedBy (A.sideBySide B) A.finals.toList (B.starts.toList.map (A.numStates + ·))
  simp only [StateSet.mem_toList, StateSet.mem_map_toList] at hlinks
  exact hlinks

/-- The final states of the first copy stay final if `B` accepts the empty word. -/
theorem contains_finals_chain : (A.chain B).finals.contains q ↔
    (B.finals.shift A.numStates).contains q ∨ B.accepts [] ∧ A.finals.contains q := by
  change (B.finals.shift A.numStates ∪ if B.accepts [] then A.finals else ∅).contains q ↔ _
  cases hempty : B.accepts [] <;> simp

/-- A new state is linked to the start states of both copies. -/
theorem disjointUnion_linkedBy (A B : Automaton) :
    LinkedBy (fun p q => p = A.numStates + B.numStates ∧
      (A.starts.contains q ∨ (B.starts.shift A.numStates).contains q)) (A.sideBySide B) (A.disjointUnion B) := by
  have hlinks := linkAll_linkedBy (A.sideBySide B) [A.numStates + B.numStates]
    (A.starts.toList ++ B.starts.toList.map (A.numStates + ·))
  simp only [List.mem_singleton, List.mem_append, StateSet.mem_toList, StateSet.mem_map_toList] at hlinks
  exact hlinks

section Copies

variable (hA : A.WellFormed) (hB : B.WellFormed)

include hA hB

/-- The second copy grows out of the first. -/
theorem extends_sideBySide : ((∅ : Automaton).embed A).Extends (A.sideBySide B) := hA.embed_empty.extends_embed hB

/-- The copies hang together in themselves only. -/
theorem not_path_sideBySide (hp : p < A.numStates) (hq : A.numStates ≤ q) :
    ¬ (A.sideBySide B).Path p word q ∧ ¬ (A.sideBySide B).Path q word p := by
  rw [← numStates_embed_empty A] at hp hq
  exact (extends_sideBySide hA hB).not_path hA.embed_empty hp hq

theorem mem_languageBetween_left :
    word ∈ (A.sideBySide B).languageBetween (fun p => A.starts.contains p) (fun q => A.finals.contains q) ↔
      A.accepts word := by
  have hstarts : ∀ p, A.starts.contains p → p < ((∅ : Automaton).embed A).numStates := by
    intro p hp
    rw [numStates_embed_empty]
    exact hA.starts_lt p hp
  rw [(extends_sideBySide hA hB).languageBetween_eq hA.embed_empty hstarts]
  exact mem_languageBetween_embed_empty hA

theorem mem_languageBetween_right :
    word ∈ (A.sideBySide B).languageBetween (fun p => (B.starts.shift A.numStates).contains p)
      (fun q => (B.finals.shift A.numStates).contains q) ↔ B.accepts word := by
  have hpath : ∀ s q, (A.sideBySide B).Path (A.numStates + s) word q ↔
      ∃ t, B.Path s word t ∧ q = A.numStates + t := by
    intro s q
    rw [← numStates_embed_empty A]
    exact hA.embed_empty.path_embed_add_iff hB
  rw [accepts_iff]
  constructor
  · intro ⟨p, q, hp, hq, path⟩
    obtain ⟨s, hs, rfl⟩ := StateSet.contains_shift_iff.1 hp
    obtain ⟨t, ht, rfl⟩ := StateSet.contains_shift_iff.1 hq
    obtain ⟨t', path, he⟩ := (hpath s _).1 path
    obtain rfl := Nat.add_left_cancel he
    exact ⟨s, t, hs, ht, path⟩
  · intro ⟨s, t, hs, ht, path⟩
    have hmoved := (hpath s (A.numStates + t)).2 ⟨t, path, rfl⟩
    exact ⟨_, _, StateSet.contains_shift_iff.2 ⟨s, hs, rfl⟩, StateSet.contains_shift_iff.2 ⟨t, ht, rfl⟩, hmoved⟩

/-- No path leads from the start states of one copy to the final states of the other. -/
theorem apart_sideBySide :
    (∀ p q word, A.starts.contains p → (B.finals.shift A.numStates).contains q → ¬ (A.sideBySide B).Path p word q) ∧
      ∀ p q word, (B.starts.shift A.numStates).contains p → A.finals.contains q →
        ¬ (A.sideBySide B).Path p word q := by
  constructor
  · intro p q word hp hq
    obtain ⟨t, _, rfl⟩ := StateSet.contains_shift_iff.1 hq
    exact (not_path_sideBySide hA hB (hA.starts_lt p hp) (Nat.le_add_right A.numStates t)).1
  · intro p q word hp hq
    obtain ⟨s, _, rfl⟩ := StateSet.contains_shift_iff.1 hp
    exact (not_path_sideBySide hA hB (hA.finals_lt q hq) (Nat.le_add_right A.numStates s)).2

/-- A run through a chain that ends in the second copy crosses over once. -/
theorem exists_path_chain_iff :
    (∃ p q, A.starts.contains p ∧ (B.finals.shift A.numStates).contains q ∧ (A.chain B).Path p word q) ↔
      ∃ u v, word = u ++ v ∧ A.accepts u ∧ B.accepts v := by
  obtain ⟨hapart, hback⟩ := apart_sideBySide hA hB
  simp only [(chain_linkedBy A B).path_iff_hops]
  rw [hops_chain (fun _ _ => Iff.rfl) hapart hback, Language.mem_mul]
  simp only [mem_languageBetween_left hA hB, mem_languageBetween_right hA hB]
  constructor
  · intro ⟨u, hu, v, hv, he⟩
    exact ⟨u, v, he.symm, hu, hv⟩
  · intro ⟨u, v, he, hu, hv⟩
    exact ⟨u, hu, v, hv, he.symm⟩

private theorem accepts_of_path_chain (hp : A.starts.contains p) (hq : A.finals.contains q) (path : (A.chain B).Path p word q) :
    A.accepts word := by
  have hback := (apart_sideBySide hA hB).2
  have hhops := (chain_linkedBy A B).path_iff_hops.1 path
  have hstays : (A.sideBySide B).Path p word q := (hops_back (fun _ _ => Iff.rfl) hback hq).1 hhops
  exact (mem_languageBetween_left hA hB).1 ⟨p, q, hp, hq, hstays⟩

theorem accepts_chain_iff :
    (A.chain B).accepts word ↔ ∃ u v, word = u ++ v ∧ A.accepts u ∧ B.accepts v := by
  have hstarts : (A.chain B).starts = A.starts := rfl
  rw [accepts_iff, hstarts]
  constructor
  · intro ⟨p, q, hp, hq, path⟩
    rcases contains_finals_chain.1 hq with hq | ⟨hempty, hq⟩
    · exact (exists_path_chain_iff hA hB).1 ⟨p, q, hp, hq, path⟩
    · have hword : A.accepts word := accepts_of_path_chain hA hB hp hq path
      exact ⟨word, [], (List.append_nil word).symm, hword, hempty⟩
  · intro h
    obtain ⟨p, q, hp, hq, path⟩ := (exists_path_chain_iff hA hB).2 h
    exact ⟨p, q, hp, contains_finals_chain.2 (Or.inl hq), path⟩

/-- A run through a union leaves the new state for one of the copies, and stays there. -/
theorem accepts_disjointUnion_iff : (A.disjointUnion B).accepts word ↔ A.accepts word ∨ B.accepts word := by
  obtain ⟨hapart, hback⟩ := apart_sideBySide hA hB
  have hfork : (∃ q, (A.finals.contains q ∨ (B.finals.shift A.numStates).contains q) ∧
      (A.disjointUnion B).Path (A.numStates + B.numStates) word q) ↔ A.accepts word ∨ B.accepts word := by
    simp only [(disjointUnion_linkedBy A B).path_iff_hops]
    rw [(hA.sideBySide hB).hops_fork (numStates_sideBySide A B).le (lt_numStates_sideBySide hA.starts_lt hB.starts_lt)
      (lt_numStates_sideBySide hA.finals_lt hB.finals_lt) fun _ _ => Iff.rfl, languageBetween_or hapart hback,
      Language.mem_add, mem_languageBetween_left hA hB, mem_languageBetween_right hA hB]
  have hstarts : (A.disjointUnion B).starts = .singleton (A.numStates + B.numStates) := rfl
  have hfinals : (A.disjointUnion B).finals = A.finals ∪ B.finals.shift A.numStates := rfl
  rw [accepts_iff, hstarts, hfinals, ← hfork]
  simp only [StateSet.contains_singleton, StateSet.contains_union, decide_eq_true_eq, Bool.or_eq_true]
  constructor
  · intro ⟨p, q, hp, hq, path⟩
    subst hp
    exact ⟨q, hq, path⟩
  · intro ⟨q, hq, path⟩
    exact ⟨_, q, rfl, hq, path⟩

end Copies

/-- Concatenation fails only when the states of both cannot be numbered together. Otherwise it accepts the words of `A`
followed by words of `B`. -/
theorem concatenate_exact (hA : A.WellFormed) (hB : B.WellFormed) :
    maxStates < A.numStates + B.numStates ∧ A.concatenate B = .error .counterOverflow ∨
      A.numStates + B.numStates ≤ maxStates ∧ ∃ C, A.concatenate B = .ok C ∧
        ∀ word, C.accepts word ↔ ∃ u v, word = u ++ v ∧ A.accepts u ∧ B.accepts v := by
  apply withinBounds_cases
  intro word
  exact accepts_chain_iff hA hB

/-- Words of even length over one letter, then words of even length over another one that has the same number. The
second operand has the first letter too, under another number. -/
theorem concatenate_circle : (circle 2).WellFormed ∧
    (circleOver ["b", "a"] 2).WellFormed ∧ ∃ C, (circle 2).concatenate (circleOver ["b", "a"] 2) = .ok C ∧
      C.accepts ["a", "a", "b", "b"] ∧ C.accepts [] ∧ C.accepts ["b"] = false := by
  have hleft : (circle 2).WellFormed := circle_wellFormed (by decide)
  have hright : (circleOver ["b", "a"] 2).WellFormed := circleOver_wellFormed (by decide) (by decide)
  refine ⟨hleft, hright, ?_⟩
  rcases concatenate_exact hleft hright with ⟨hmany, _⟩ | ⟨_, C, hC, hlanguage⟩
  · exact absurd hmany (by decide)
  · refine ⟨C, hC, ?_, ?_, Bool.eq_false_iff.2 fun h => ?_⟩
    · exact (hlanguage _).2 ⟨["a", "a"], ["b", "b"], rfl, by decide +kernel⟩
    · exact (hlanguage _).2 ⟨[], [], rfl, by decide +kernel⟩
    · obtain ⟨u, v, hword, hu, hv⟩ := (hlanguage _).1 h
      rcases List.append_eq_singleton_iff.1 hword.symm with ⟨rfl, rfl⟩ | ⟨rfl, rfl⟩
      · exact absurd hv (by decide +kernel)
      · exact absurd hu (by decide +kernel)

/-- A union fails only when the states of both and one more cannot be numbered. Otherwise it accepts what `A` or `B`
accepts, and has the symbols of `A`, followed by those of `B` that `A` lacks. -/
theorem union_exact (hA : A.WellFormed) (hB : B.WellFormed) :
    maxStates < A.numStates + B.numStates + 1 ∧ A.union B = .error .counterOverflow ∨
      A.numStates + B.numStates + 1 ≤ maxStates ∧ ∃ C, A.union B = .ok C ∧
        (∀ word, C.accepts word ↔ A.accepts word ∨ B.accepts word) ∧
        C.alphabet.names = A.alphabet.names ++ B.alphabet.names.filter fun name => !A.alphabet.contains name := by
  apply withinBounds_cases
  refine ⟨fun word => ?_, names_sideBySide A B⟩
  exact accepts_disjointUnion_iff hA hB

/-- The letter that each operand reads has the number zero there. -/
theorem union_circle : (circle 2).WellFormed ∧
    (circleOver ["b", "a"] 3).WellFormed ∧ ∃ C, (circle 2).union (circleOver ["b", "a"] 3) = .ok C ∧
      C.accepts ["a", "a"] ∧ C.accepts ["b", "b", "b"] ∧ C.accepts ["a", "b"] = false ∧
      C.alphabet.names = ["a", "b"] := by
  have hleft : (circle 2).WellFormed := circle_wellFormed (by decide)
  have hright : (circleOver ["b", "a"] 3).WellFormed := circleOver_wellFormed (by decide) (by decide)
  refine ⟨hleft, hright, ?_⟩
  rcases union_exact hleft hright with ⟨hmany, _⟩ | ⟨_, C, hC, hlanguage, hnames⟩
  · exact absurd hmany (by decide)
  · refine ⟨C, hC, (hlanguage _).2 (Or.inl (by decide +kernel)), (hlanguage _).2 (Or.inr (by decide +kernel)),
      Bool.eq_false_iff.2 fun h => ?_, hnames⟩
    exact absurd ((hlanguage _).1 h) (by decide +kernel)

end RegularLanguages.Automaton
