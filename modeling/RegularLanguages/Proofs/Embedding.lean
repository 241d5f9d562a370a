import RegularLanguages.Automaton.Algebra
import RegularLanguages.Proofs.Links

/-!
Copies of one automaton inside another, and the automata that are made of such copies and of epsilon edges between them.
-/
namespace RegularLanguages.Automaton

variable {A B R : Automaton}

/-- The copy of a transition has both ends moved and its symbol renumbered. -/
theorem contains_embed {p q : State} {l : Label SymbolId} :
    (R.embed A).transitions.contains p l q ↔ R.transitions.contains p l q ∨
      ∃ s k t, A.transitions.contains s k t ∧ p = R.numStates + s ∧
        l = A.relabel (R.alphabet.internAll A.alphabet.names) k ∧ q = R.numStates + t := by
  change (R.transitions.addAll _).contains p l q ↔ _
  rw [Transitions.contains_addAll, List.mem_map]
  refine or_congr_right ?_
  constructor
  · rintro ⟨t, ht, h⟩
    cases h
    exact ⟨t.source, t.label, t.target, Transitions.mem_toList.1 ht, rfl, rfl, rfl⟩
  · rintro ⟨s, k, t, h, rfl, rfl, rfl⟩
    exact ⟨⟨s, k, t⟩, Transitions.mem_toList (t := ⟨s, k, t⟩).2 h, rfl⟩

private theorem knows_relabel {k : Label SymbolId} (hk : A.knows k) :
    (R.embed A).knows (A.relabel (R.alphabet.internAll A.alphabet.names) k) := by
  cases k with
  | epsilon => rfl
  | symbol a =>
    obtain ⟨name, hname⟩ := Alphabet.exists_name (of_decide_eq_true hk)
    rw [Alphabet.id?_eq_some_iff] at hname
    rw [relabel, hname, Option.getD_some]
    have hmem : name ∈ (R.alphabet.internAll A.alphabet.names).names :=
      Alphabet.mem_names_internAll.2 (Or.inr (List.mem_of_getElem? hname))
    exact decide_eq_true (Alphabet.idOf_lt_size hmem)

/-- A copied label keeps its name. -/
theorem resolve_relabel {k : Label SymbolId} {l : Label String} (h : A.alphabet.resolve k = some l) :
    (R.alphabet.internAll A.alphabet.names).resolve (A.relabel (R.alphabet.internAll A.alphabet.names) k) =
      some l := by
  cases k with
  | epsilon => exact h
  | symbol a =>
    obtain ⟨name, hname, rfl⟩ := Option.map_eq_some_iff.1 h
    rw [relabel, hname, Option.getD_some]
    exact Alphabet.resolve_idOf (Alphabet.mem_names_internAll.2 (Or.inr (List.mem_of_getElem? hname)))

/-- By the names of their labels, the edges are those of `R` and the moved ones of `A`. -/
theorem WellFormed.edge_embed_iff (hR : R.WellFormed) (hA : A.WellFormed) {p q : State} {l : Label String} :
    (R.embed A).Edge p l q ↔
      R.Edge p l q ∨ ∃ s t, A.Edge s l t ∧ p = R.numStates + s ∧ q = R.numStates + t := by
  have hold : ({ R with alphabet := R.alphabet.internAll A.alphabet.names } : Automaton).Edge p l q ↔ R.Edge p l q :=
    hR.edge_setAlphabet_iff fun _ _ => Alphabet.id?_internAll
  rw [← hold]
  constructor
  · rintro ⟨k, hk, h⟩
    rcases contains_embed.1 h with h | ⟨s, j, t, hmoved, rfl, rfl, rfl⟩
    · exact Or.inl ⟨k, hk, h⟩
    · obtain ⟨l', hl'⟩ := knows_iff.1 (hA.transitions s j t hmoved).2.1
      obtain rfl := Option.some.inj ((resolve_relabel hl').symm.trans hk)
      exact Or.inr ⟨s, t, ⟨j, hl', hmoved⟩, rfl, rfl⟩
  · rintro (⟨k, hk, h⟩ | ⟨s, t, ⟨j, hj, hmoved⟩, rfl, rfl⟩)
    · exact ⟨k, hk, contains_embed.2 (Or.inl h)⟩
    · exact ⟨_, resolve_relabel hj, contains_embed.2 (Or.inr ⟨s, j, t, hmoved, rfl, rfl, rfl⟩)⟩

/-- A copy in nothing has the same edges. -/
theorem WellFormed.edge_embed_empty_iff (hA : A.WellFormed) {p q : State} {l : Label String} :
    ((∅ : Automaton).embed A).Edge p l q ↔ A.Edge p l q := by
  have hempty : (∅ : Automaton).WellFormed := withAlphabet_wellFormed ∅
  have hcount : (∅ : Automaton).numStates = 0 := rfl
  rw [hempty.edge_embed_iff hA, hcount]
  constructor
  · rintro (edge | ⟨s, t, edge, rfl, rfl⟩)
    · exact absurd (hempty.edge_lt edge).1 (Nat.not_lt_zero p)
    · rwa [Nat.zero_add, Nat.zero_add]
  · exact fun edge => Or.inr ⟨p, q, edge, (Nat.zero_add p).symm, (Nat.zero_add q).symm⟩

theorem mem_languageBetween_embed_empty (hA : A.WellFormed) {word : List String} :
    word ∈ ((∅ : Automaton).embed A).languageBetween (fun p => A.starts.contains p) (fun q => A.finals.contains q) ↔
      A.accepts word := by
  have hpaths : ∀ p q, ((∅ : Automaton).embed A).Path p word q ↔ A.Path p word q := fun p q =>
    ⟨Path.mono fun _ _ _ => hA.edge_embed_empty_iff.1, Path.mono fun _ _ _ => hA.edge_embed_empty_iff.2⟩
  rw [accepts_iff]
  simp only [← hpaths]
  rfl

theorem linkAll_eq (A : Automaton) (sources targets : List State) :
    ∃ edges : List (State × State), (∀ p q, (p, q) ∈ edges ↔ p ∈ sources ∧ q ∈ targets) ∧
      A.linkAll sources targets =
        { A with transitions := A.transitions.addAll (edges.map fun e => ⟨e.1, .epsilon, e.2⟩) } := by
  refine ⟨sources.flatMap fun q => targets.map fun r => (q, r), fun p q => by simp, ?_⟩
  simp [linkAll, List.map_flatMap, Function.comp_def]

theorem linkAll_linkedBy (A : Automaton) (sources targets : List State) :
    LinkedBy (fun p q => p ∈ sources ∧ q ∈ targets) A (A.linkAll sources targets) := by
  obtain ⟨edges, hedges, heq⟩ := linkAll_eq A sources targets
  intro p l q
  rw [heq]
  exact (linkedBy_addAll A edges p l q).trans (or_congr_right (and_congr_right fun _ => hedges p q))

theorem numStates_embed_empty (A : Automaton) : ((∅ : Automaton).embed A).numStates = A.numStates :=
  Nat.zero_add A.numStates

def sideBySide (A B : Automaton) : Automaton := ((∅ : Automaton).embed A).embed B

theorem numStates_sideBySide (A B : Automaton) : (A.sideBySide B).numStates = A.numStates + B.numStates :=
  congrArg (· + B.numStates) (numStates_embed_empty A)

section
variable {C : Automaton}

theorem of_union (h : A.union B = .ok C) : A.disjointUnion B = C := of_withinBounds h

theorem of_concatenate (h : A.concatenate B = .ok C) : A.chain B = C := of_withinBounds h

theorem of_kleeneStar (h : A.kleeneStar = .ok C) : A.loop = C := of_withinBounds h

end

namespace WellFormed

theorem embed (hR : R.WellFormed) (hA : A.WellFormed) : (R.embed A).WellFormed := by
  have hle : R.numStates ≤ (R.embed A).numStates := Nat.le_add_right _ _
  have hcopy : ∀ {q}, q < A.numStates → R.numStates + q < (R.embed A).numStates := fun h => Nat.add_lt_add_left h _
  refine ⟨fun q hq => ?_, fun q hq => ?_, fun p l q h => ?_, fun q name hq => ?_⟩
  · exact Nat.lt_of_lt_of_le (hR.starts_lt q hq) hle
  · exact Nat.lt_of_lt_of_le (hR.finals_lt q hq) hle
  · rcases contains_embed.1 h with h | ⟨s, k, t, hmoved, rfl, rfl, rfl⟩
    · obtain ⟨hp, hl, hq⟩ := hR.transitions p l q h
      exact ⟨Nat.lt_of_lt_of_le hp hle, knows_mono (Alphabet.size_le_internAll _) hl, Nat.lt_of_lt_of_le hq hle⟩
    · obtain ⟨hs, hk, ht⟩ := hA.transitions s k t hmoved
      exact ⟨hcopy hs, knows_relabel hk, hcopy ht⟩
  · rcases StateNames.mem_of_name?_setAll hq with h | h
    · obtain ⟨⟨s, other⟩, hs, he⟩ := List.mem_map.1 h
      cases he
      exact hcopy (StateNames.mem_below.1 hs).1
    · exact Nat.lt_of_lt_of_le (hR.names_lt q name h) hle

theorem linkAll (hA : A.WellFormed) {sources targets : List State} (hsources : ∀ q ∈ sources, q < A.numStates)
    (htargets : ∀ q ∈ targets, q < A.numStates) : (A.linkAll sources targets).WellFormed := by
  obtain ⟨edges, hedges, heq⟩ := linkAll_eq A sources targets
  rw [heq]
  refine hA.addLinks fun e he => ?_
  obtain ⟨hs, ht⟩ := (hedges e.1 e.2).1 he
  exact ⟨hsources _ hs, htargets _ ht⟩

theorem embed_empty (hA : A.WellFormed) : ((∅ : Automaton).embed A).WellFormed :=
  (withAlphabet_wellFormed ∅).embed hA

theorem sideBySide (hA : A.WellFormed) (hB : B.WellFormed) : (A.sideBySide B).WellFormed := hA.embed_empty.embed hB

private theorem mem_starts_lt (hA : A.WellFormed) : ∀ q ∈ A.starts.toList, q < A.numStates :=
  fun q hq => hA.starts_lt q (StateSet.mem_toList.1 hq)

private theorem mem_finals_lt (hA : A.WellFormed) : ∀ q ∈ A.finals.toList, q < A.numStates :=
  fun q hq => hA.finals_lt q (StateSet.mem_toList.1 hq)

private theorem moved_starts_lt (hB : B.WellFormed) (offset : Nat) :
    ∀ q ∈ B.starts.toList.map (offset + ·), q < offset + B.numStates :=
  fun _ hq => StateSet.lt_of_contains_shift hB.starts_lt (StateSet.mem_map_toList.1 hq)

theorem disjointUnion (hA : A.WellFormed) (hB : B.WellFormed) : (A.disjointUnion B).WellFormed := by
  have hcopies : (A.sideBySide B).WellFormed := hA.sideBySide hB
  have hcount := numStates_sideBySide A B
  have hleft : ∀ {q}, q < A.numStates → q < A.numStates + B.numStates + 1 := fun h => by omega
  have hstart : ∀ q ∈ [A.numStates + B.numStates], q < A.numStates + B.numStates + 1 := by simp
  have htargets : ∀ q ∈ A.starts.toList ++ B.starts.toList.map (A.numStates + ·),
      q < A.numStates + B.numStates + 1 := by
    intro q hq
    rcases List.mem_append.1 hq with hq | hq
    · exact hleft (hA.mem_starts_lt q hq)
    · exact Nat.lt_succ_of_lt (hB.moved_starts_lt A.numStates q hq)
  have hraised := hcopies.addStates (n := A.numStates + B.numStates + 1) (by rw [hcount]; exact Nat.le_succ _)
  have hlinked := (hraised.linkAll hstart htargets).setStarts fun _ =>
    StateSet.lt_of_contains_singleton (hstart _ List.mem_cons_self)
  refine hlinked.setFinals fun q hq => ?_
  rcases StateSet.contains_union_iff.1 hq with hq | hq
  · exact hleft (hA.finals_lt q hq)
  · exact Nat.lt_succ_of_lt (StateSet.lt_of_contains_shift hB.finals_lt hq)

theorem chain (hA : A.WellFormed) (hB : B.WellFormed) : (A.chain B).WellFormed := by
  have hcopies : (A.sideBySide B).WellFormed := hA.sideBySide hB
  have hcount := numStates_sideBySide A B
  have hleft : ∀ {q}, q < A.numStates → q < (A.sideBySide B).numStates := by
    intro q hq
    rw [hcount]
    exact Nat.lt_add_right _ hq
  have hright : ∀ {q}, q < A.numStates + B.numStates → q < (A.sideBySide B).numStates := by
    intro q hq
    rwa [hcount]
  have hlinked := hcopies.linkAll (fun q hq => hleft (hA.mem_finals_lt q hq))
    fun q hq => hright (hB.moved_starts_lt A.numStates q hq)
  refine (hlinked.setStarts (S := A.starts) fun q hq => hleft (hA.starts_lt q hq)).setFinals fun q hq => ?_
  rcases StateSet.contains_union_iff.1 hq with hq | hq
  · exact hright (StateSet.lt_of_contains_shift hB.finals_lt hq)
  · split at hq
    · exact hleft (hA.finals_lt q hq)
    · simp at hq

theorem loop (hA : A.WellFormed) : A.loop.WellFormed := by
  have hinner : ∀ {q}, q < A.numStates → q < A.numStates + 2 := fun h => Nat.lt_add_right 2 h
  have hentry : ∀ q ∈ [A.numStates], q < A.numStates + 2 := by simp
  have hexit : A.numStates + 1 < A.numStates + 2 := Nat.lt_succ_self _
  have hinto : ∀ q ∈ (A.numStates + 1) :: A.starts.toList, q < A.numStates + 2 :=
    List.forall_mem_cons.2 ⟨hexit, fun q hq => hinner (hA.mem_starts_lt q hq)⟩
  have hfinals : ∀ q ∈ A.finals.toList, q < A.numStates + 2 := fun q hq => hinner (hA.mem_finals_lt q hq)
  have hout : ∀ q ∈ A.starts.toList ++ [A.numStates + 1], q < A.numStates + 2 := by
    intro q hq
    exact hinto q (List.mem_cons.2 ((List.mem_append.1 hq).symm.imp_left List.mem_singleton.1))
  have hraised := hA.embed_empty.addStates (n := A.numStates + 2)
    ((numStates_embed_empty A).le.trans (Nat.le_add_right _ 2))
  have hlinked := (hraised.linkAll hentry hinto).linkAll hfinals hout
  exact (hlinked.setStarts fun _ => StateSet.lt_of_contains_singleton (hentry _ List.mem_cons_self)).setFinals
    fun _ => StateSet.lt_of_contains_singleton hexit

theorem union (hA : A.WellFormed) (hB : B.WellFormed) {C : Automaton} (h : A.union B = .ok C) : C.WellFormed :=
  of_union h ▸ hA.disjointUnion hB

theorem concatenate (hA : A.WellFormed) (hB : B.WellFormed) {C : Automaton} (h : A.concatenate B = .ok C) :
    C.WellFormed :=
  of_concatenate h ▸ hA.chain hB

theorem kleeneStar (hA : A.WellFormed) {C : Automaton} (h : A.kleeneStar = .ok C) : C.WellFormed :=
  of_kleeneStar h ▸ hA.loop

end WellFormed

/-- The circle with epsilon edges between its first two states, both ways and from each to itself. -/
def linkedCircle (n : Nat) : Automaton := (circle n).linkAll [0, 1] [0, 1]

theorem linkedCircle_wellFormed {n : Nat} (hn : 1 < n) : (linkedCircle n).WellFormed := by
  have hends : ∀ q ∈ [0, 1], q < n := by
    simp only [List.forall_mem_cons, List.not_mem_nil, false_implies, implies_true, and_true]
    exact ⟨Nat.lt_of_succ_lt hn, hn⟩
  exact (circle_wellFormed (Nat.lt_of_succ_lt hn)).linkAll hends hends

end RegularLanguages.Automaton
