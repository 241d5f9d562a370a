import RegularLanguages.Expression.Thompson
import RegularLanguages.Proofs.Growth
import RegularLanguages.Proofs.Languages

/-!
The automaton of an expression accepts the words of its language. All fragments grow in one automaton; a new
fragment leaves the older ones as they are, and it is not connected to them before its edges are added.
-/
namespace RegularLanguages

namespace Automaton

private theorem path_iff_of_single_edge {A : Automaton} {s t : State} {name : String} {word : List String} (hne : s ≠ t)
    (hs : ∀ l q, A.Edge s l q ↔ l = .symbol name ∧ q = t) (ht : ∀ l q, ¬ A.Edge t l q) :
    A.Path s word t ↔ word = [name] := by
  constructor
  · intro path
    cases path with
    | nil => exact absurd rfl hne
    | epsilon edge => cases ((hs _ _).1 edge).1
    | symbol edge rest =>
      obtain ⟨hl, rfl⟩ := (hs _ _).1 edge
      cases hl
      cases rest with
      | nil => rfl
      | epsilon edge | symbol edge => exact absurd edge (ht _ _)
  · rintro rfl
    exact .single_symbol ((hs _ _).2 ⟨rfl, rfl⟩)

end Automaton

namespace Expression

open Automaton

variable {A B A₁ A₂ : Automaton} {e l r : Expression} {f g : Fragment} {p q : State} {word : List String}

def stateCount : Expression → Nat
  | empty | epsilon | symbol _ => 2
  | concatenation l r => l.stateCount + r.stateCount
  | union l r => l.stateCount + r.stateCount + 2
  | kleeneStar e => e.stateCount + 2

theorem link_linkedBy (A : Automaton) (edges : List (State × State)) :
    LinkedBy (fun p q => (p, q) ∈ edges) A (link A edges) := linkedBy_addAll A edges

/-- `link` between states that are new since `A`. -/
theorem extends_link (h : A.Extends B) {edges : List (State × State)}
    (hedges : ∀ e ∈ edges, A.Fresh B e.1 ∧ A.Fresh B e.2) : A.Extends (link B edges) := by
  have hwell : (link B edges).WellFormed :=
    h.wellFormed.addLinks fun e he => ⟨(hedges e he).1.2, (hedges e he).2.2⟩
  refine h.addEdges (Nat.le_refl _) hwell (link_linkedBy B edges) ?_
  rintro p l q ⟨_, he⟩
  exact ⟨(hedges _ he).1.1, (hedges _ he).2.1⟩

private theorem linkSymbol_wellFormed (hA : A.WellFormed) {s t : State} (name : String) (hs : s < A.numStates)
    (ht : t < A.numStates) : (linkSymbol A s name t).WellFormed := by
  have hgrown := hA.addSymbol name
  refine hgrown.setTransitions fun p l q h => ?_
  rcases Transitions.contains_add.1 h with h | ⟨rfl, rfl, rfl⟩
  · exact hgrown.transitions p l q h
  · exact ⟨hs, decide_eq_true (Alphabet.idOf_lt_size (Alphabet.mem_names_intern.2 (Or.inr rfl))), ht⟩

theorem edge_linkSymbol_iff (hA : A.WellFormed) {s t : State} {name : String} {l : Label String} :
    (linkSymbol A s name t).Edge p l q ↔ A.Edge p l q ∨ p = s ∧ l = .symbol name ∧ q = t := by
  have hname := Alphabet.resolve_idOf (A := A.alphabet.intern name) (Alphabet.mem_names_intern.2 (Or.inr rfl))
  have hold : (A.addSymbol name).1.Edge p l q ↔ A.Edge p l q :=
    hA.edge_setAlphabet_iff fun _ _ => Alphabet.id?_intern
  rw [← hold]
  constructor
  · rintro ⟨k, hk, h⟩
    rcases Transitions.contains_add.1 h with h | ⟨rfl, rfl, rfl⟩
    · exact Or.inl ⟨k, hk, h⟩
    · exact Or.inr ⟨rfl, Option.some.inj (hk.symm.trans hname), rfl⟩
  · rintro (⟨k, hk, h⟩ | ⟨rfl, rfl, rfl⟩)
    · exact ⟨k, hk, Transitions.contains_add.2 (Or.inl h)⟩
    · exact ⟨_, hname, Transitions.contains_add.2 (Or.inr ⟨rfl, rfl, rfl⟩)⟩

theorem extends_newFragment (hA : A.WellFormed) : A.Extends (newFragment A).1 :=
  Extends.addStates hA (Nat.le_add_right _ 2)

theorem fresh_newFragment (A : Automaton) :
    A.Fresh (newFragment A).1 (newFragment A).2.entry ∧ A.Fresh (newFragment A).1 (newFragment A).2.exit :=
  ⟨⟨Nat.le_refl _, Nat.lt_add_of_pos_right Nat.two_pos⟩, Nat.le_succ _, Nat.lt_succ_self _⟩

/-- `link` after `newFragment`. -/
theorem link_newFragment_linkedBy (A : Automaton) (edges : List (State × State)) :
    LinkedBy (fun p q => (p, q) ∈ edges) A (link (newFragment A).1 edges) := linkedBy_addAll A edges

/-- `B` is `A` with a fragment for `e`, whose words lead from its entry to its exit. -/
structure Assembled (e : Expression) (A B : Automaton) (f : Fragment) : Prop extends A.Extends B where
  numStates_eq : B.numStates = A.numStates + e.stateCount
  entry : A.Fresh B f.entry
  exit : A.Fresh B f.exit
  path_iff_mem : ∀ word, B.Path f.entry word f.exit ↔ word ∈ e.language

namespace Assembled

theorem empty (hA : A.WellFormed) : Assembled .empty A (newFragment A).1 (newFragment A).2 where
  toExtends := extends_newFragment hA
  numStates_eq := rfl
  entry := (fresh_newFragment A).1
  exit := (fresh_newFragment A).2
  path_iff_mem word := by
    refine iff_of_false (fun path => ?_) (Language.notMem_zero word)
    obtain ⟨_, h⟩ := hA.path_of_le (Nat.le_refl _) ((path_congr (newFragment A).1 A rfl rfl).1 path)
    exact Nat.succ_ne_self _ h

theorem epsilon (hA : A.WellFormed) :
    Assembled .epsilon A (link (newFragment A).1 [(A.numStates, A.numStates + 1)]) (newFragment A).2 where
  toExtends := by
    refine extends_link (extends_newFragment hA) fun e he => ?_
    obtain rfl := List.mem_singleton.1 he
    exact fresh_newFragment A
  numStates_eq := rfl
  entry := (fresh_newFragment A).1
  exit := (fresh_newFragment A).2
  path_iff_mem word := by
    rw [(link_newFragment_linkedBy A _).path_iff_hops, mem_language_epsilon]
    change Hops _ A A.numStates word (A.numStates + 1) ↔ _
    rw [hA.hops_iff_of_le (Nat.le_refl _)]
    simp [hA.hops_iff_of_not_links (p := A.numStates + 1) (Nat.le_succ _)]

theorem symbol (hA : A.WellFormed) (name : String) :
    Assembled (.symbol name) A (linkSymbol (newFragment A).1 A.numStates name (A.numStates + 1))
      (newFragment A).2 where
  toExtends := by
    have hnew := extends_newFragment hA
    obtain ⟨⟨hentry, hs⟩, hexit, ht⟩ := fresh_newFragment A
    refine hnew.addEdges (Nat.le_refl _) (linkSymbol_wellFormed hnew.wellFormed name hs ht)
      (fun _ _ _ => edge_linkSymbol_iff hnew.wellFormed) ?_
    rintro p l q ⟨rfl, _, rfl⟩
    exact ⟨hentry, hexit⟩
  numStates_eq := rfl
  entry := (fresh_newFragment A).1
  exit := (fresh_newFragment A).2
  path_iff_mem word := by
    have hedge : ∀ p l q, A.numStates ≤ p →
        ((linkSymbol (newFragment A).1 A.numStates name (A.numStates + 1)).Edge p l q ↔
          p = A.numStates ∧ l = .symbol name ∧ q = A.numStates + 1) := by
      intro p l q hp
      refine (edge_linkSymbol_iff (extends_newFragment hA).wellFormed).trans (or_iff_right fun edge => ?_)
      exact Nat.not_lt.2 hp (hA.edge_lt edge).1
    refine path_iff_of_single_edge (Nat.succ_ne_self _).symm (fun l q => ?_) fun l q edge => ?_
    · exact (hedge _ l q (Nat.le_refl _)).trans (and_iff_right rfl)
    · exact Nat.succ_ne_self _ ((hedge _ l q (Nat.le_succ _)).1 edge).1

/-- A fragment keeps its words when the automaton grows. -/
theorem languageBetween_eq (h : Assembled e A B f) {C : Automaton} (hC : B.Extends C) :
    C.languageBetween (· = f.entry) (· = f.exit) = e.language := by
  ext word
  rw [mem_languageBetween_eq, hC.path_iff h.wellFormed h.entry.2, h.path_iff_mem]

section Pair

variable (hl : Assembled l A A₁ f) (hr : Assembled r A₁ A₂ g)

include hl hr

/-- No path leads from the entry of one fragment to the exit of another. -/
theorem apart :
    (∀ p q word, p = f.entry → q = g.exit → ¬ A₂.Path p word q) ∧
      ∀ p q word, p = g.entry → q = f.exit → ¬ A₂.Path p word q := by
  constructor
  · rintro _ _ word rfl rfl
    exact (hr.toExtends.not_path hl.wellFormed hl.entry.2 hr.exit.1).1
  · rintro _ _ word rfl rfl
    exact (hr.toExtends.not_path hl.wellFormed hl.exit.2 hr.entry.1).2

theorem concatenation : Assembled (.concatenation l r) A (link A₂ [(f.exit, g.entry)]) ⟨f.entry, g.exit⟩ where
  toExtends := by
    refine extends_link (hl.toExtends.trans hr.toExtends) ?_
    simpa using ⟨hr.fresh hl.exit, hl.fresh_of_fresh hr.entry⟩
  numStates_eq := by
    change A₂.numStates = _
    rw [hr.numStates_eq, hl.numStates_eq, stateCount, Nat.add_assoc]
  entry := hr.fresh hl.entry
  exit := hl.fresh_of_fresh hr.exit
  path_iff_mem word := by
    have hlinks : ∀ p q, (p, q) ∈ [(f.exit, g.entry)] ↔ p = f.exit ∧ q = g.entry := by simp
    obtain ⟨hapart, hback⟩ := hl.apart hr
    rw [(link_linkedBy A₂ _).path_iff_hops, language, ← hl.languageBetween_eq hr.toExtends,
      ← hr.languageBetween_eq (.refl hr.wellFormed), ← hops_chain hlinks hapart hback]
    simp

private theorem languageBetween_pair : A₂.languageBetween (fun p => p = f.entry ∨ p = g.entry)
    (fun q => q = f.exit ∨ q = g.exit) = l.language + r.language := by
  obtain ⟨hapart, hback⟩ := hl.apart hr
  rw [languageBetween_or hapart hback, ← hl.languageBetween_eq hr.toExtends,
    ← hr.languageBetween_eq (.refl hr.wellFormed)]

theorem union : Assembled (.union l r) A
    (link (newFragment A₂).1 [(A₂.numStates, f.entry), (f.exit, A₂.numStates + 1), (A₂.numStates, g.entry),
      (g.exit, A₂.numStates + 1)]) (newFragment A₂).2 where
  toExtends := by
    have hnew := extends_newFragment hr.wellFormed
    have hpair := hl.toExtends.trans hr.toExtends
    have hh : A.Fresh (newFragment A₂).1 A₂.numStates := hpair.fresh_of_fresh (fresh_newFragment A₂).1
    have hk : A.Fresh (newFragment A₂).1 (A₂.numStates + 1) := hpair.fresh_of_fresh (fresh_newFragment A₂).2
    have hf : ∀ {p}, A.Fresh A₁ p → A.Fresh (newFragment A₂).1 p := (hr.trans hnew).fresh
    have hg : ∀ {p}, A₁.Fresh A₂ p → A.Fresh (newFragment A₂).1 p := fun hp => hnew.fresh (hl.fresh_of_fresh hp)
    refine extends_link (hpair.trans hnew) ?_
    simp only [List.forall_mem_cons]
    exact ⟨⟨hh, hf hl.entry⟩, ⟨hf hl.exit, hk⟩, ⟨hh, hg hr.entry⟩, ⟨hg hr.exit, hk⟩, nofun⟩
  numStates_eq := by
    change A₂.numStates + 2 = _
    rw [hr.numStates_eq, hl.numStates_eq, stateCount, Nat.add_assoc, Nat.add_assoc, Nat.add_assoc]
  entry := (hl.toExtends.trans hr.toExtends).fresh_of_fresh (fresh_newFragment A₂).1
  exit := (hl.toExtends.trans hr.toExtends).fresh_of_fresh (fresh_newFragment A₂).2
  path_iff_mem word := by
    rw [(link_newFragment_linkedBy A₂ _).path_iff_hops, language, ← hl.languageBetween_pair hr]
    refine hops_bracket hr.wellFormed (Nat.le_refl _) (Nat.le_succ _) (Nat.succ_ne_self _).symm ?_ ?_
      fun p q => ?_
    · rintro _ (rfl | rfl)
      · exact (hr.fresh hl.entry).2
      · exact hr.entry.2
    · rintro _ (rfl | rfl)
      · exact (hr.fresh hl.exit).2
      · exact hr.exit.2
    · simp only [List.mem_cons, List.not_mem_nil, Prod.mk.injEq, newFragment, or_false]
      tauto

end Pair

theorem kleeneStar (h : Assembled e A B f) : Assembled (.kleeneStar e) A
    (link (newFragment B).1 [(B.numStates, f.entry), (B.numStates, B.numStates + 1), (f.exit, f.entry),
      (f.exit, B.numStates + 1)]) (newFragment B).2 where
  toExtends := by
    have hnew := extends_newFragment h.wellFormed
    have hh : A.Fresh (newFragment B).1 B.numStates := h.fresh_of_fresh (fresh_newFragment B).1
    have hk : A.Fresh (newFragment B).1 (B.numStates + 1) := h.fresh_of_fresh (fresh_newFragment B).2
    refine extends_link (h.trans hnew) ?_
    simp only [List.forall_mem_cons]
    exact ⟨⟨hh, hnew.fresh h.entry⟩, ⟨hh, hk⟩, ⟨hnew.fresh h.exit, hnew.fresh h.entry⟩,
      ⟨hnew.fresh h.exit, hk⟩, nofun⟩
  numStates_eq := by
    change B.numStates + 2 = _
    rw [h.numStates_eq, stateCount, Nat.add_assoc]
  entry := h.fresh_of_fresh (fresh_newFragment B).1
  exit := h.fresh_of_fresh (fresh_newFragment B).2
  path_iff_mem word := by
    rw [(link_newFragment_linkedBy B _).path_iff_hops, language, ← h.languageBetween_eq (.refl h.wellFormed)]
    refine hops_loop h.wellFormed (Nat.le_refl _) (Nat.le_succ _) (Nat.succ_ne_self _).symm ?_ fun p q => ?_
    · rintro _ rfl
      exact h.entry.2
    · simp only [List.mem_cons, List.not_mem_nil, Prod.mk.injEq, newFragment, or_false]
      tauto

end Assembled

theorem assembled (e : Expression) (hA : A.WellFormed) : Assembled e A (e.assemble A).1 (e.assemble A).2 := by
  induction e generalizing A with
  | empty => exact .empty hA
  | epsilon => exact .epsilon hA
  | symbol name => exact .symbol hA name
  | concatenation l r ihl ihr => exact (ihl hA).concatenation (ihr (ihl hA).wellFormed)
  | union l r ihl ihr => exact (ihl hA).union (ihr (ihl hA).wellFormed)
  | kleeneStar e ih => exact (ih hA).kleeneStar

theorem assembled_empty (e : Expression) : Assembled e ∅ (e.assemble ∅).1 (e.assemble ∅).2 :=
  assembled e (withAlphabet_wellFormed ∅)

theorem numStates_thompson (e : Expression) : e.thompson.numStates = e.stateCount :=
  (assembled_empty e).numStates_eq.trans (Nat.zero_add _)

@[simp] theorem starts_thompson (e : Expression) : e.thompson.starts = .singleton (e.assemble ∅).2.entry := rfl

@[simp] theorem finals_thompson (e : Expression) : e.thompson.finals = .singleton (e.assemble ∅).2.exit := rfl

theorem thompson_wellFormed (e : Expression) : e.thompson.WellFormed := by
  have h := assembled_empty e
  exact ⟨fun _ => StateSet.lt_of_contains_singleton h.entry.2, fun _ => StateSet.lt_of_contains_singleton h.exit.2,
    h.wellFormed.transitions, h.wellFormed.names_lt⟩

theorem of_toAutomaton (h : e.toAutomaton = .ok A) : e.thompson = A := by
  simp only [toAutomaton] at h
  split at h
  · exact Except.ok.inj h
  · cases h

theorem toAutomaton_wellFormed (h : e.toAutomaton = .ok A) : A.WellFormed := of_toAutomaton h ▸ e.thompson_wellFormed

theorem accepts_thompson_iff (e : Expression) (word : List String) :
    e.thompson.accepts word ↔ word ∈ e.language := by
  rw [accepts_iff, ← (assembled_empty e).path_iff_mem]
  simp [path_congr e.thompson (e.assemble ∅).1 rfl rfl]

/-- An expression becomes an automaton that accepts the words of its language, provided that the states can be
numbered. -/
theorem toAutomaton_exact (e : Expression) :
    ∃ A : Automaton, A.numStates = e.stateCount ∧ (∀ word, A.accepts word ↔ word ∈ e.language) ∧
      (e.toAutomaton = if e.stateCount ≤ maxStates then .ok A else .error .counterOverflow) ∧
      ∀ word, e.accepts word =
        if e.stateCount ≤ maxStates then .ok (A.accepts word) else .error .counterOverflow := by
  have hautomaton : e.toAutomaton = if e.stateCount ≤ maxStates then .ok e.thompson else .error .counterOverflow := by
    rw [toAutomaton, ← numStates_thompson]
  refine ⟨e.thompson, e.numStates_thompson, e.accepts_thompson_iff, hautomaton, fun word => ?_⟩
  rw [accepts, hautomaton]
  split <;> rfl

example : (kleeneStar (concatenation (symbol "a") (symbol "b"))).accepts ["a", "b", "a", "b"] = .ok true := by decide

end Expression

end RegularLanguages
