import RegularLanguages.Automaton.Reachability
import RegularLanguages.Proofs.Paths
import RegularLanguages.Proofs.WellFormed

/-!
The searches find the states on paths: the reachable ones after a start state, the coreachable ones before a
final state, and the useful ones in between.
-/
namespace RegularLanguages.Automaton

variable {A : Automaton}

/-- The labels that are known are those that have a name. -/
theorem knows_iff {k : Label SymbolId} : A.knows k ↔ ∃ l, A.alphabet.resolve k = some l := by
  cases k with
  | epsilon => exact iff_of_true rfl ⟨.epsilon, rfl⟩
  | symbol a =>
    constructor
    · intro h
      obtain ⟨name, hname⟩ := Alphabet.exists_name (of_decide_eq_true h)
      exact ⟨.symbol name, congrArg (Option.map Label.symbol) (Alphabet.id?_eq_some_iff.1 hname)⟩
    · rintro ⟨l, hl⟩
      obtain ⟨name, hname, _⟩ := Option.map_eq_some_iff.1 hl
      exact decide_eq_true (Alphabet.lt_size_of_id? (Alphabet.id?_eq_some_iff.2 hname))

theorem edge_iff_of_knows {p q : State} :
    (∃ l, A.Edge p l q) ↔ ∃ k, A.knows k ∧ A.transitions.contains p k q := by
  simp only [knows_iff]
  constructor
  · rintro ⟨l, k, hk, h⟩
    exact ⟨k, ⟨l, hk⟩, h⟩
  · rintro ⟨k, ⟨l, hk⟩, h⟩
    exact ⟨l, k, hk, h⟩

/-- Some word leads from `p` to `q` exactly when edges do. -/
theorem exists_path_iff {p q : State} :
    (∃ word, A.Path p word q) ↔ Relation.ReflTransGen (fun p q => ∃ l, A.Edge p l q) p q := by
  constructor
  · rintro ⟨word, h⟩
    induction h with
    | nil => exact .refl
    | epsilon edge _ ih => exact ih.head ⟨_, edge⟩
    | symbol edge _ ih => exact ih.head ⟨_, edge⟩
  · intro h
    induction h using Relation.ReflTransGen.head_induction_on with
    | refl => exact ⟨[], .nil q⟩
    | head edge _ ih =>
      obtain ⟨l, edge⟩ := edge
      obtain ⟨word, h⟩ := ih
      cases l with
      | epsilon => exact ⟨word, .epsilon edge h⟩
      | symbol name => exact ⟨name :: word, .symbol edge h⟩

theorem contains_successors {p q : State} :
    (A.successors.find p).contains q ↔ ∃ l, A.Edge p l q := by
  rw [edge_iff_of_knows]
  simp only [successors, StateMap.contains_find_ofList, List.mem_map, List.mem_filter, Prod.exists,
    Transitions.mem_entries, Prod.mk.injEq, Transitions.contains_iff]
  constructor
  · rintro ⟨S, ⟨p, k, S, ⟨hS, hk⟩, rfl, rfl⟩, hq⟩
    exact ⟨k, hk, S, hS, hq⟩
  · rintro ⟨k, hk, S, hS, hq⟩
    exact ⟨S, ⟨p, k, S, ⟨hS, hk⟩, rfl, rfl⟩, hq⟩

theorem contains_predecessors {p q : State} :
    (A.predecessors.find q).contains p ↔ ∃ k, A.transitions.contains p k q := by
  simp only [predecessors, StateMap.contains_find_ofList, List.mem_map, Transitions.mem_toList,
    Prod.mk.injEq]
  constructor
  · rintro ⟨_, ⟨t, ht, rfl, rfl⟩, hp⟩
    obtain rfl : t.source = p := by simpa using hp
    exact ⟨t.label, ht⟩
  · rintro ⟨k, h⟩
    exact ⟨_, ⟨⟨p, k, q⟩, h, rfl, rfl⟩, by simp⟩

theorem contains_reachable {q : State} :
    A.reachable.contains q ↔ ∃ p word, A.starts.contains p ∧ A.Path p word q := by
  have hsearch : A.reachable.contains q ↔
      ∃ p, A.starts.contains p ∧ StateSet.Reaches A.successors.find p q := by
    apply StateSet.contains_saturate (Finset.range A.transitions.width)
    · intro p q hq
      obtain ⟨_, k, _, h⟩ := contains_successors.1 hq
      exact Finset.mem_range.2 (Transitions.lt_width h)
    · simp
  simp only [hsearch, StateSet.Reaches, contains_successors, ← exists_path_iff]
  constructor
  · rintro ⟨p, hp, word, h⟩
    exact ⟨p, word, hp, h⟩
  · rintro ⟨p, word, hp, h⟩
    exact ⟨p, hp, word, h⟩

/-- The search goes backwards along all transitions, so their symbols must be known. -/
theorem WellFormed.contains_coreachable (hA : A.WellFormed) {p : State} :
    A.coreachable.contains p ↔ ∃ q word, A.finals.contains q ∧ A.Path p word q := by
  have hsearch : A.coreachable.contains p ↔
      ∃ q, A.finals.contains q ∧ StateSet.Reaches A.predecessors.find q p := by
    apply StateSet.contains_saturate (A.transitions.keys.map Prod.fst).toFinset
    · intro q p hp
      obtain ⟨k, h⟩ := contains_predecessors.1 hp
      exact List.mem_toFinset.2 (List.mem_map.2 ⟨_, Transitions.mem_keys_iff.2 ⟨q, h⟩, rfl⟩)
    · refine Nat.lt_succ_of_le ((List.toFinset_card_le _).trans ?_)
      rw [List.length_map]
  have hedges : (fun p q => (A.predecessors.find p).contains q = true) =
      Function.swap fun p q => ∃ l, A.Edge p l q := by
    funext q p
    change _ = ∃ l, A.Edge p l q
    rw [edge_iff_of_knows, eq_iff_iff, contains_predecessors]
    constructor
    · rintro ⟨k, h⟩
      exact ⟨k, (hA.transitions p k q h).2.1, h⟩
    · rintro ⟨k, _, h⟩
      exact ⟨k, h⟩
  rw [hsearch, StateSet.Reaches, hedges]
  constructor
  · rintro ⟨q, hq, h⟩
    obtain ⟨word, h⟩ := exists_path_iff.2 (Relation.reflTransGen_swap.1 h)
    exact ⟨q, word, hq, h⟩
  · rintro ⟨q, word, hq, h⟩
    exact ⟨q, hq, Relation.reflTransGen_swap.2 (exists_path_iff.1 ⟨word, h⟩)⟩

theorem reachable_of_path {p q : State} {word : List String} (h : A.Path p word q)
    (hp : A.reachable.contains p) : A.reachable.contains q := by
  obtain ⟨s, front, hs, hfront⟩ := contains_reachable.1 hp
  exact contains_reachable.2 ⟨s, _, hs, hfront.append h⟩

theorem WellFormed.coreachable_of_path (hA : A.WellFormed) {p q : State} {word : List String}
    (h : A.Path p word q) (hq : A.coreachable.contains q) : A.coreachable.contains p := by
  obtain ⟨f, rest, hf, hrest⟩ := hA.contains_coreachable.1 hq
  exact hA.contains_coreachable.2 ⟨f, _, hf, h.append hrest⟩

theorem contains_useful {q : State} :
    A.useful.contains q ↔ A.reachable.contains q ∧ A.coreachable.contains q := by
  rw [useful, StateSet.contains_inter, Bool.and_eq_true]

/-- An automaton is empty exactly if it accepts no word. -/
theorem isEmpty_iff : A.isEmpty ↔ ∀ word, A.accepts word = false := by
  simp only [isEmpty, Bool.not_eq_true', Bool.eq_false_iff, Ne, StateSet.meets_iff, contains_reachable, accepts_iff]
  constructor
  · rintro h word ⟨p, q, hp, hq, hpath⟩
    exact h ⟨q, ⟨p, word, hp, hpath⟩, hq⟩
  · rintro h ⟨q, ⟨p, word, hp, hpath⟩, hq⟩
    exact h word ⟨p, q, hp, hq, hpath⟩

theorem WellFormed.path_lt (hA : A.WellFormed) {p q : State} {word : List String} (h : A.Path p word q)
    (hp : p < A.numStates) : q < A.numStates := by
  induction h with
  | nil => exact hp
  | epsilon edge _ ih | symbol edge _ ih => exact ih (hA.edge_lt edge).2

theorem WellFormed.configuration_lt (hA : A.WellFormed) {word : List String} {q : State}
    (hq : (A.configuration word).contains q) : q < A.numStates := by
  obtain ⟨p, hp, h⟩ := contains_configuration.1 hq
  exact hA.path_lt h (hA.starts_lt p hp)

theorem WellFormed.reachable_lt (hA : A.WellFormed) {q : State} (hq : A.reachable.contains q) :
    q < A.numStates := by
  obtain ⟨p, word, hp, h⟩ := contains_reachable.1 hq
  exact hA.path_lt h (hA.starts_lt p hp)

theorem WellFormed.coreachable_lt (hA : A.WellFormed) {p : State} (hp : A.coreachable.contains p) :
    p < A.numStates := by
  obtain ⟨q, word, hq, h⟩ := hA.contains_coreachable.1 hp
  refine Nat.lt_of_not_le fun hle => ?_
  obtain ⟨_, rfl⟩ := hA.path_of_le hle h
  exact Nat.not_lt.2 hle (hA.finals_lt q hq)

theorem WellFormed.useful_lt (hA : A.WellFormed) {q : State} (hq : A.useful.contains q) :
    q < A.numStates :=
  hA.reachable_lt (contains_useful.1 hq).1

end RegularLanguages.Automaton
