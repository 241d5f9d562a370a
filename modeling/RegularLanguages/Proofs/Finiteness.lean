import Mathlib.Data.Set.Finite.Lattice
import Mathlib.Order.WellFounded
import RegularLanguages.Proofs.Cycles
import RegularLanguages.Proofs.EpsilonRemoval
import RegularLanguages.Proofs.Thompson

/-!
Finiteness of languages. Without a cycle among the useful states every state accepts finitely many words, and a useful
cycle that reads a symbol can be passed any number of times.
-/
namespace RegularLanguages

def Label.before : Label String → List String → List String
  | epsilon, word => word
  | symbol name, word => name :: word

namespace Automaton

variable {A : Automaton}

private theorem finite_edges (A : Automaton) (p : State) : { e : Label String × State | A.Edge p e.1 e.2 }.Finite := by
  refine ((A.labelledTransitions.map Prod.snd).finite_toSet).subset ?_
  rintro ⟨l, q⟩ ⟨k, hk, h⟩
  refine List.mem_map.2 ⟨(p, l, q), List.mem_filterMap.2 ⟨⟨p, k, q⟩, Transitions.mem_toList.2 h, ?_⟩, rfl⟩
  simp [hk]

private theorem Path.cons_edge {p q r : State} {l : Label String} {word : List String} (edge : A.Edge p l q)
    (rest : A.Path q word r) : A.Path p (l.before word) r := by
  cases l with
  | epsilon => exact .epsilon edge rest
  | symbol name => exact .symbol edge rest

private theorem exists_edge_of_mem_languageFrom {p : State} {word : List String} (h : word ∈ A.languageFrom p) :
    word = [] ∨ ∃ l q rest, A.Edge p l q ∧ rest ∈ A.languageFrom q ∧ l.before rest = word := by
  obtain ⟨f, hf, hpath⟩ := h
  cases hpath with
  | nil => exact Or.inl rfl
  | epsilon edge rest => exact Or.inr ⟨.epsilon, _, _, edge, ⟨f, hf, rest⟩, rfl⟩
  | symbol edge rest => exact Or.inr ⟨.symbol _, _, _, edge, ⟨f, hf, rest⟩, rfl⟩

namespace WellFormed

private theorem coreachable_of_mem_languageFrom (hA : A.WellFormed) {p : State} {word : List String}
    (h : word ∈ A.languageFrom p) : A.coreachable.contains p := by
  obtain ⟨f, hf, hpath⟩ := h
  exact hA.contains_coreachable.2 ⟨f, word, hf, hpath⟩

private theorem edgeWithin_useful (hA : A.WellFormed) {p q : State} {l : Label String} {word : List String}
    (hp : A.reachable.contains p) (edge : A.Edge p l q) (hq : word ∈ A.languageFrom q) :
    A.EdgeWithin A.useful p q := by
  have hcoreachable := hA.coreachable_of_mem_languageFrom hq
  have hstep : A.Path p (l.before []) q := .cons_edge edge (.nil q)
  refine ⟨contains_useful.2 ⟨hp, hA.coreachable_of_path hstep hcoreachable⟩, ?_, l, edge⟩
  exact contains_useful.2 ⟨reachable_of_path hstep hp, hcoreachable⟩

private theorem languageFrom_finite_of_edges (hA : A.WellFormed) {p : State} (hp : A.reachable.contains p)
    (h : ∀ q, A.EdgeWithin A.useful p q → (A.languageFrom q).Finite) : (A.languageFrom p).Finite := by
  have hedges : ∀ e ∈ { e : Label String × State | A.Edge p e.1 e.2 },
      (e.1.before '' A.languageFrom e.2).Finite := by
    rintro ⟨l, q⟩ edge
    rcases (A.languageFrom q).eq_empty_or_nonempty with hempty | ⟨word, hword⟩
    · rw [hempty, Set.image_empty]
      exact Set.finite_empty
    · exact (h q (hA.edgeWithin_useful hp edge hword)).image _
  refine (((A.finite_edges p).biUnion hedges).insert []).subset fun word hword => ?_
  rcases exists_edge_of_mem_languageFrom hword with rfl | ⟨l, q, rest, edge, hrest, rfl⟩
  · exact Set.mem_insert _ _
  · exact Set.mem_insert_of_mem _ (Set.mem_biUnion (x := (l, q)) edge ⟨rest, hrest, rfl⟩)

/-- Without a cycle among the useful states, epsilon edges counted, the language is finite. -/
theorem finite_of_isFinite (hA : A.WellFormed) (h : A.isFinite) : { word | A.accepts word }.Finite := by
  have hacyclic : A.hasCycle A.useful = false := by
    rwa [isFinite, Bool.not_eq_true'] at h
  have hstates : ∀ p, A.reachable.contains p → (A.languageFrom p).Finite :=
    induction_of_not_hasCycle (fun _ => hA.useful_lt) hacyclic fun p ih hp => hA.languageFrom_finite_of_edges hp fun q hedge =>
      ih q hedge (contains_useful.1 hedge.2.1).1
  have hstarts : { p | A.starts.contains p }.Finite :=
    (A.starts.toList.finite_toSet).subset fun p hp => StateSet.mem_toList.2 hp
  refine (hstarts.biUnion fun p hp => hstates p (contains_reachable.2 ⟨p, [], hp, .nil p⟩)).subset fun word hword => ?_
  obtain ⟨p, hp, hlanguage⟩ := accepts_iff_languageFrom.1 hword
  exact Set.mem_biUnion hp hlanguage

end WellFormed

private theorem Path.repeated {q : State} {word : List String} (h : A.Path q word q) (n : Nat) :
    A.Path q (List.replicate n word).flatten q := by
  induction n with
  | zero => exact .nil q
  | succ n ih =>
    rw [List.replicate_succ, List.flatten_cons]
    exact h.append ih

private theorem exists_word_of_transGen (hsymbols : ∀ p q, ¬ A.Edge p .epsilon q) {S : StateSet} {p q : State}
    (h : Relation.TransGen (A.EdgeWithin S) p q) : ∃ word, word ≠ [] ∧ A.Path p word q := by
  have hedge : ∀ {r s}, A.EdgeWithin S r s → ∃ name, A.Path r [name] s := by
    rintro r s ⟨_, _, l, edge⟩
    cases l with
    | epsilon => exact absurd edge (hsymbols r s)
    | symbol name => exact ⟨name, .single_symbol edge⟩
  induction h with
  | single hlast =>
    obtain ⟨name, hname⟩ := hedge hlast
    exact ⟨[name], List.cons_ne_nil _ _, hname⟩
  | tail _ hlast ih =>
    obtain ⟨word, _, hword⟩ := ih
    obtain ⟨name, hname⟩ := hedge hlast
    exact ⟨word ++ [name], by simp, hword.append hname⟩

/-- Different numbers of passes through a useful cycle make accepted words of different lengths. -/
theorem infinite_of_cycle {p q f : State} {front word rest : List String} (hp : A.starts.contains p)
    (hf : A.finals.contains f) (hfront : A.Path p front q) (hcycle : A.Path q word q) (hword : word ≠ [])
    (hrest : A.Path q rest f) : { word | A.accepts word }.Infinite := by
  refine Set.infinite_of_injective_forall_mem (f := fun n => front ++ (List.replicate n word).flatten ++ rest) ?_ ?_
  · intro m n hmn
    have hlength := congrArg List.length hmn
    simp only [List.length_append, List.length_flatten, List.map_replicate, List.sum_replicate_nat] at hlength
    have hmul : m * word.length = n * word.length := by omega
    exact Nat.eq_of_mul_eq_mul_right (List.length_pos_iff.2 hword) hmul
  · intro n
    exact accepts_iff.2 ⟨p, f, hp, hf, (hfront.append (hcycle.repeated n)).append hrest⟩

/-- Where all edges read symbols, a cycle among the useful states makes the language infinite. -/
theorem WellFormed.isFinite_of_finite (hA : A.WellFormed) (hsymbols : ∀ p q, ¬ A.Edge p .epsilon q)
    (h : { word | A.accepts word }.Finite) : A.isFinite := by
  rw [isFinite, Bool.not_eq_true', Bool.eq_false_iff]
  intro hcycle
  obtain ⟨q, hq⟩ := (hasCycle_iff fun _ => hA.useful_lt).1 hcycle
  obtain ⟨word, hne, hword⟩ := exists_word_of_transGen hsymbols hq
  obtain ⟨_, ⟨huseful, _⟩, _⟩ := Relation.TransGen.head'_iff.1 hq
  obtain ⟨hreachable, hcoreachable⟩ := contains_useful.1 huseful
  obtain ⟨p, front, hp, hfront⟩ := contains_reachable.1 hreachable
  obtain ⟨f, rest, hf, hrest⟩ := hA.contains_coreachable.1 hcoreachable
  exact infinite_of_cycle hp hf hfront hword hne hrest h

/-- A language is finite exactly when no useful states form a cycle once the epsilon edges are removed, and always when
none do before. -/
theorem language_finite_iff (hA : A.WellFormed) :
    ({ word | A.accepts word }.Finite ↔ A.removeEpsilon.isFinite) ∧
      (A.isFinite → { word | A.accepts word }.Finite) := by
  have hlanguage : { word | A.removeEpsilon.accepts word } = { word | A.accepts word } :=
    Set.ext fun word => by
      change A.removeEpsilon.accepts word ↔ A.accepts word
      rw [hA.accepts_removeEpsilon]
  refine ⟨⟨fun h => ?_, fun h => ?_⟩, hA.finite_of_isFinite⟩
  · rw [← hlanguage] at h
    exact hA.removeEpsilon.isFinite_of_finite not_edge_epsilon_removeEpsilon h
  · rw [← hlanguage]
    exact hA.removeEpsilon.finite_of_isFinite h

private theorem WellFormed.isFinite_of_forward (hA : A.WellFormed)
    (h : ∀ p < A.numStates, ∀ q ∈ succeeding A.successors A.useful p, p < q) : A.isFinite := by
  rw [isFinite, Bool.not_eq_true', Bool.eq_false_iff]
  intro hcycle
  obtain ⟨q, hq⟩ := (hasCycle_iff fun _ => hA.useful_lt).1 hcycle
  have hlt : Relation.TransGen (fun p r => p < r) q q :=
    hq.lift id fun p r hedge => h p (hA.useful_lt hedge.1) r (edgeWithin_iff.1 hedge).2
  rw [Relation.transGen_eq_self] at hlt
  exact Nat.lt_irrefl q hlt

private theorem WellFormed.not_isFinite_of_cycle (hA : A.WellFormed) {q : State}
    (h : Relation.TransGen (A.EdgeWithin A.useful) q q) : A.isFinite = false := by
  rw [isFinite, Bool.not_eq_false']
  exact (hasCycle_iff fun _ => hA.useful_lt).2 ⟨q, h⟩

/-- The automaton of `ε*` has a cycle but finitely many words; that of `a*` has infinitely many. -/
theorem language_finite_thompson :
    (Expression.kleeneStar .epsilon).thompson.WellFormed ∧ (Expression.kleeneStar .epsilon).thompson.isFinite = false ∧
    { word | (Expression.kleeneStar .epsilon).thompson.accepts word }.Finite ∧
    { word | (Expression.kleeneStar (.symbol "a")).thompson.accepts word }.Infinite ∧
    (Expression.symbol "a").thompson.isFinite ∧ { word | (Expression.symbol "a").thompson.accepts word }.Finite := by
  have hepsilon := (Expression.kleeneStar .epsilon).thompson_wellFormed
  have hstar := (Expression.kleeneStar (.symbol "a")).thompson_wellFormed
  have hsymbol := (Expression.symbol "a").thompson_wellFormed
  have hpassed : (Expression.kleeneStar .epsilon).thompson.isFinite = false :=
    hepsilon.not_isFinite_of_cycle (q := 0) <|
      .head (edgeWithin_iff.2 (by decide +kernel : _ ∧ 1 ∈ _)) (.single (edgeWithin_iff.2 (by decide +kernel)))
  have hlooped : (Expression.kleeneStar (.symbol "a")).thompson.removeEpsilon.isFinite = false :=
    hstar.removeEpsilon.not_isFinite_of_cycle (q := 1) (.single (edgeWithin_iff.2 (by decide +kernel)))
  have hread : (Expression.symbol "a").thompson.isFinite := hsymbol.isFinite_of_forward (by decide +kernel)
  refine ⟨hepsilon, hpassed, ?_, ?_, hread, (language_finite_iff hsymbol).2 hread⟩
  · exact (language_finite_iff hepsilon).1.2 (hepsilon.removeEpsilon.isFinite_of_forward (by decide +kernel))
  · intro h
    exact Bool.eq_false_iff.1 hlooped ((language_finite_iff hstar).1.1 h)

end Automaton

end RegularLanguages
