import RegularLanguages.Proofs.Listing
import RegularLanguages.Proofs.Thompson

/-!
The size and the shape of the automaton of an expression. Nothing enters the entry of a fragment and nothing leaves its
exit, until edges are added there; so each edge that is added leaves a state that nothing has left by then, no edge is
added two times, and the numbers of states and transitions can be told from the nodes of the expression.
-/
namespace RegularLanguages

open Automaton

/-- Nothing enters the entry and nothing leaves the exit. -/
structure Fragment.Clean (A : Automaton) (f : Fragment) : Prop where
  ne : f.entry ≠ f.exit
  not_enter : ∀ p l, ¬ A.Edge p l f.entry
  not_leave : ∀ l q, ¬ A.Edge f.exit l q

namespace Expression

inductive Kind
  | empty
  | epsilon
  | symbol
  | concatenation
  | union
  | kleeneStar
  deriving DecidableEq

def kind : Expression → Kind
  | empty => .empty
  | epsilon => .epsilon
  | symbol _ => .symbol
  | concatenation _ _ => .concatenation
  | union _ _ => .union
  | kleeneStar _ => .kleeneStar

def count (k : Kind) (e : Expression) : Nat :=
  (if e.kind = k then 1 else 0) +
    match e with
    | empty | epsilon | symbol _ => 0
    | concatenation l r | union l r => l.count k + r.count k
    | kleeneStar e => e.count k

def numLeaves (e : Expression) : Nat := e.count .empty + e.count .epsilon + e.count .symbol

def edgeCount (e : Expression) : Nat :=
  e.count .epsilon + e.count .symbol + e.count .concatenation + 4 * (e.count .union + e.count .kleeneStar)

variable {A B C A₁ A₂ : Automaton} {e l r : Expression} {f g : Fragment} {p q : State}

private theorem stateCount_eq (e : Expression) : e.stateCount = 2 * (e.numLeaves + e.count .union + e.count .kleeneStar) := by
  unfold numLeaves
  induction e with
  | empty | epsilon | symbol name => simp [stateCount, count, kind]
  | concatenation l r ihl ihr =>
    simp only [stateCount, ihl, ihr, count, kind, reduceCtorEq, if_false]
    omega
  | union l r ihl ihr =>
    simp only [stateCount, ihl, ihr, count, kind, reduceCtorEq, if_false, if_true]
    omega
  | kleeneStar e ih =>
    simp only [stateCount, ih, count, kind, reduceCtorEq, if_false, if_true]
    omega

/-- What is no state has no edge. -/
theorem not_edge_of_le (hA : A.WellFormed) (hp : A.numStates ≤ p) (l : Label String) (q : State) :
    ¬ A.Edge p l q ∧ ¬ A.Edge q l p :=
  ⟨fun edge => Nat.not_lt.2 hp (hA.edge_lt edge).1, fun edge => Nat.not_lt.2 hp (hA.edge_lt edge).2⟩

/-- Where no edge leaves a state, no transition does. -/
theorem not_contains_of_not_edge (hA : A.WellFormed) (h : ∀ l q, ¬ A.Edge p l q) (k : Label SymbolId) (q : State) :
    ¬ A.transitions.contains p k q := by
  intro hp
  obtain ⟨l, edge⟩ := edge_iff_of_knows.2 ⟨k, (hA.transitions p k q hp).2.1, hp⟩
  exact h l q edge

/-- Edges out of states that nothing leaves are new. -/
theorem size_link (hA : A.WellFormed) {edges : List (State × State)} (hnodup : edges.Nodup)
    (hnew : ∀ e ∈ edges, ∀ l q, ¬ A.Edge e.1 l q) :
    (link A edges).transitions.size = A.transitions.size + edges.length := by
  have hdistinct : (edges.map fun e => (⟨e.1, .epsilon, e.2⟩ : Transition)).Nodup := by
    refine hnodup.map fun d e h => ?_
    exact Prod.ext (congrArg Transition.source h) (congrArg Transition.target h)
  have habsent : ∀ t ∈ edges.map fun e => (⟨e.1, .epsilon, e.2⟩ : Transition),
      ¬ A.transitions.contains t.source t.label t.target := by
    intro t ht
    obtain ⟨e, he, rfl⟩ := List.mem_map.1 ht
    exact not_contains_of_not_edge hA (hnew e he) .epsilon e.2
  exact (Transitions.size_addAll_of_new hdistinct habsent).trans (congrArg _ (List.length_map _))

end Expression

namespace Fragment.Clean

open Expression

variable {A B : Automaton} {f g : Fragment}

/-- Growth does not touch a fragment. -/
theorem grow (h : f.Clean A) (hB : A.Extends B) (hentry : f.entry < A.numStates) (hexit : f.exit < A.numStates) :
    f.Clean B where
  ne := h.ne
  not_enter p l edge := by
    by_cases hp : p < A.numStates
    · exact h.not_enter p l ((hB.old p l f.entry hp).1 edge)
    · exact Nat.not_lt.2 (hB.new p l f.entry (Nat.not_lt.1 hp) edge) hentry
  not_leave l q edge := h.not_leave l q ((hB.old f.exit l q hexit).1 edge)

/-- Nor do links that neither enter its entry nor leave its exit. -/
theorem link (h : f.Clean A) {edges : List (State × State)} (hedges : ∀ e ∈ edges, e.2 ≠ f.entry ∧ e.1 ≠ f.exit) :
    f.Clean (link A edges) where
  ne := h.ne
  not_enter p l edge := by
    rcases (link_linkedBy A edges p l f.entry).1 edge with edge | ⟨_, hlink⟩
    · exact h.not_enter p l edge
    · exact (hedges _ hlink).1 rfl
  not_leave l q edge := by
    rcases (link_linkedBy A edges f.exit l q).1 edge with edge | ⟨_, hlink⟩
    · exact h.not_leave l q edge
    · exact (hedges _ hlink).2 rfl

theorem newFragment (hA : A.WellFormed) : (newFragment A).2.Clean (newFragment A).1 where
  ne := (Nat.succ_ne_self _).symm
  not_enter p l := (not_edge_of_le hA (Nat.le_refl _) l p).2
  not_leave l q := (not_edge_of_le hA (Nat.le_succ _) l q).1

end Fragment.Clean

namespace Expression

variable {A B A₁ A₂ : Automaton} {e l r : Expression} {f g : Fragment}

/-- Edges at a new fragment: none enters its entry or leaves its exit, and each leaves a state that nothing has left. -/
theorem link_newFragment_measured (hA : A.WellFormed) (edges : List (State × State)) (hnodup : edges.Nodup)
    (hsources : ∀ e ∈ edges, e.1 ≠ A.numStates + 1 ∧ ∀ l q, ¬ A.Edge e.1 l q)
    (htargets : ∀ e ∈ edges, e.2 ≠ A.numStates) :
    (newFragment A).2.Clean (link (newFragment A).1 edges) ∧
      (link (newFragment A).1 edges).transitions.size = A.transitions.size + edges.length := by
  constructor
  · exact Fragment.Clean.link (.newFragment hA) fun e he => ⟨htargets e he, (hsources e he).1⟩
  · exact size_link (extends_newFragment hA).wellFormed hnodup fun e he => (hsources e he).2

/-- `B` is `A` with a clean fragment for `e` that has the edges of its nodes and no others. -/
structure Measured (e : Expression) (A B : Automaton) (f : Fragment) : Prop extends Assembled e A B f where
  clean : f.Clean B
  size_eq : B.transitions.size = A.transitions.size + e.edgeCount

namespace Measured

theorem empty (hA : A.WellFormed) : Measured .empty A (newFragment A).1 (newFragment A).2 where
  toAssembled := .empty hA
  clean := .newFragment hA
  size_eq := rfl

theorem epsilon (hA : A.WellFormed) :
    Measured .epsilon A (link (newFragment A).1 [(A.numStates, A.numStates + 1)]) (newFragment A).2 := by
  have hnew : ∀ l q, ¬ A.Edge A.numStates l q := fun l q => (not_edge_of_le hA (Nat.le_refl _) l q).1
  obtain ⟨hclean, hsize⟩ := link_newFragment_measured hA [(A.numStates, A.numStates + 1)] (List.nodup_singleton _)
    (List.forall_mem_singleton.2 ⟨(Nat.succ_ne_self _).symm, hnew⟩)
    (List.forall_mem_singleton.2 (Nat.succ_ne_self _))
  exact ⟨.epsilon hA, hclean, hsize⟩

theorem symbol (hA : A.WellFormed) (name : String) :
    Measured (.symbol name) A (linkSymbol (newFragment A).1 A.numStates name (A.numStates + 1))
      (newFragment A).2 where
  toAssembled := .symbol hA name
  clean := by
    have hwell := (extends_newFragment hA).wellFormed
    have hclean : (newFragment A).2.Clean (newFragment A).1 := .newFragment hA
    refine ⟨hclean.ne, fun p l edge => ?_, fun l q edge => ?_⟩
    · rcases (edge_linkSymbol_iff hwell).1 edge with edge | ⟨_, _, htarget⟩
      · exact hclean.not_enter p l edge
      · exact Nat.succ_ne_self _ htarget.symm
    · rcases (edge_linkSymbol_iff hwell).1 edge with edge | ⟨hsource, _⟩
      · exact hclean.not_leave l q edge
      · exact Nat.succ_ne_self _ hsource
  size_eq := by
    refine Transitions.size_add_of_new fun h => ?_
    exact Nat.lt_irrefl _ (hA.transitions _ _ _ h).1

section Pair

variable (hl : Measured l A A₁ f) (hr : Measured r A₁ A₂ g)

include hl hr

/-- The first of two fragments is as clean after the second one has been added, and shares no state with it. -/
theorem first : f.Clean A₂ ∧ f.entry ≠ g.entry ∧ f.exit ≠ g.exit ∧ f.entry ≠ g.exit := by
  have hapart : ∀ {p q : State}, p < A₁.numStates → A₁.numStates ≤ q → p ≠ q := fun hp hq =>
    Nat.ne_of_lt (Nat.lt_of_lt_of_le hp hq)
  exact ⟨hl.clean.grow hr.toExtends hl.entry.2 hl.exit.2, hapart hl.entry.2 hr.entry.1,
    hapart hl.exit.2 hr.exit.1, hapart hl.entry.2 hr.exit.1⟩

theorem concatenation : Measured (.concatenation l r) A (link A₂ [(f.exit, g.entry)]) ⟨f.entry, g.exit⟩ where
  toAssembled := hl.toAssembled.concatenation hr.toAssembled
  clean := by
    obtain ⟨hfirst, hentries, hexits, hends⟩ := hl.first hr
    have hboth : Fragment.Clean A₂ ⟨f.entry, g.exit⟩ := ⟨hends, hfirst.not_enter, hr.clean.not_leave⟩
    exact hboth.link (List.forall_mem_singleton.2 ⟨hentries.symm, hexits⟩)
  size_eq := by
    have hlink := size_link hr.wellFormed (List.nodup_singleton (f.exit, g.entry))
      (List.forall_mem_singleton.2 (hl.first hr).1.not_leave)
    rw [hlink, hr.size_eq, hl.size_eq]
    simp only [edgeCount, count, kind, reduceCtorEq, if_false, if_true, List.length_singleton]
    omega

theorem union : Measured (.union l r) A
    (link (newFragment A₂).1 [(A₂.numStates, f.entry), (f.exit, A₂.numStates + 1), (A₂.numStates, g.entry),
      (g.exit, A₂.numStates + 1)]) (newFragment A₂).2 := by
  obtain ⟨hfirst, hentries, hexits, _⟩ := hl.first hr
  have hf : f.entry ≠ A₂.numStates := Nat.ne_of_lt (Nat.lt_of_lt_of_le hl.entry.2 hr.le)
  have hf' : f.exit < A₂.numStates := Nat.lt_of_lt_of_le hl.exit.2 hr.le
  have hg : g.entry ≠ A₂.numStates := Nat.ne_of_lt hr.entry.2
  have hg' : g.exit < A₂.numStates := hr.exit.2
  have hlast : ∀ {p : State}, p < A₂.numStates → p ≠ A₂.numStates + 1 := fun hp => Nat.ne_of_lt (Nat.lt_succ_of_lt hp)
  have hnew : ∀ l q, ¬ A₂.Edge A₂.numStates l q := fun l q => (not_edge_of_le hr.wellFormed (Nat.le_refl _) l q).1
  obtain ⟨hclean, hsize⟩ := link_newFragment_measured hr.wellFormed
    [(A₂.numStates, f.entry), (f.exit, A₂.numStates + 1), (A₂.numStates, g.entry), (g.exit, A₂.numStates + 1)]
    (by simp [hentries, hexits, (Nat.ne_of_lt hf').symm, (Nat.ne_of_lt hg').symm, Nat.ne_of_lt hf'])
    (by simpa using ⟨hnew, ⟨hlast hf', hfirst.not_leave⟩, hnew, hlast hg', hr.clean.not_leave⟩)
    (by simpa using ⟨hf, hg⟩)
  refine ⟨hl.toAssembled.union hr.toAssembled, hclean, ?_⟩
  rw [hsize, hr.size_eq, hl.size_eq]
  simp only [edgeCount, count, kind, reduceCtorEq, if_false, if_true, List.length_cons, List.length_nil]
  omega

end Pair

theorem kleeneStar (h : Measured e A B f) : Measured (.kleeneStar e) A
    (link (newFragment B).1 [(B.numStates, f.entry), (B.numStates, B.numStates + 1), (f.exit, f.entry),
      (f.exit, B.numStates + 1)]) (newFragment B).2 := by
  have hf : f.entry < B.numStates := h.entry.2
  have hf' : f.exit < B.numStates := h.exit.2
  have hlast : ∀ {p : State}, p < B.numStates → p ≠ B.numStates + 1 := fun hp => Nat.ne_of_lt (Nat.lt_succ_of_lt hp)
  have hnew : ∀ l q, ¬ B.Edge B.numStates l q := fun l q => (not_edge_of_le h.wellFormed (Nat.le_refl _) l q).1
  obtain ⟨hclean, hsize⟩ := link_newFragment_measured h.wellFormed
    [(B.numStates, f.entry), (B.numStates, B.numStates + 1), (f.exit, f.entry), (f.exit, B.numStates + 1)]
    (by simp [hlast hf, (Nat.ne_of_lt hf').symm])
    (by simpa using ⟨hnew, hlast hf', h.clean.not_leave⟩)
    (by simpa using Nat.ne_of_lt hf)
  refine ⟨h.toAssembled.kleeneStar, hclean, ?_⟩
  rw [hsize, h.size_eq]
  simp only [edgeCount, count, kind, reduceCtorEq, if_false, if_true, List.length_cons, List.length_nil]
  omega

end Measured

theorem measured (e : Expression) (hA : A.WellFormed) : Measured e A (e.assemble A).1 (e.assemble A).2 := by
  induction e generalizing A with
  | empty => exact .empty hA
  | epsilon => exact .epsilon hA
  | symbol name => exact .symbol hA name
  | concatenation l r ihl ihr => exact (ihl hA).concatenation (ihr (ihl hA).wellFormed)
  | union l r ihl ihr => exact (ihl hA).union (ihr (ihl hA).wellFormed)
  | kleeneStar e ih => exact (ih hA).kleeneStar

/-- The automaton of an expression has two states for each leaf, union and star, and an edge for each leaf but `empty`
and for each concatenation, and four for each union and star. Nothing enters its only start state or leaves its only
final state. -/
theorem toAutomaton_measured (e : Expression) :
    ∃ A : Automaton, (e.toAutomaton =
        if 2 * (e.numLeaves + e.count .union + e.count .kleeneStar) ≤ maxStates then .ok A
        else .error .counterOverflow) ∧
      A.numStates = 2 * (e.numLeaves + e.count .union + e.count .kleeneStar) ∧
      A.transitions.size = e.count .epsilon + e.count .symbol + e.count .concatenation +
        4 * (e.count .union + e.count .kleeneStar) ∧
      ∃ s t, A.starts = .singleton s ∧ A.finals = .singleton t ∧ s ≠ t ∧
        (∀ p k, ¬ A.transitions.contains p k s) ∧ ∀ k q, ¬ A.transitions.contains t k q := by
  have h : Measured e ∅ (e.assemble ∅).1 (e.assemble ∅).2 := measured e (withAlphabet_wellFormed ∅)
  have hwell : (e.assemble ∅).1.WellFormed := h.wellFormed
  have hcount := e.numStates_thompson.trans e.stateCount_eq
  refine ⟨e.thompson, ?_, hcount, h.size_eq.trans (Nat.zero_add _), _, _, rfl, rfl, h.clean.ne, fun p k hp => ?_,
    fun k q hq => ?_⟩
  · rw [toAutomaton, ← hcount]
  · obtain ⟨l, edge⟩ := edge_iff_of_knows.2 ⟨k, (hwell.transitions p k _ hp).2.1, hp⟩
    exact h.clean.not_enter p l edge
  · exact not_contains_of_not_edge hwell h.clean.not_leave k q hq

end Expression

end RegularLanguages
