import Mathlib.Computability.Language
import RegularLanguages.Proofs.Reachability

/-!
Automata with additional epsilon edges: a path alternates between paths without them and the new edges.
-/
namespace RegularLanguages.Automaton

open Computability

/-- `B` has the edges of `A` and, besides, epsilon edges along `links`. -/
def LinkedBy (links : State → State → Prop) (A B : Automaton) : Prop :=
  ∀ p l q, B.Edge p l q ↔ A.Edge p l q ∨ l = .epsilon ∧ links p q

/-- Paths of `A` with links between them. -/
inductive Hops (links : State → State → Prop) (A : Automaton) : State → List String → State → Prop
  | last {p q : State} {word : List String} (path : A.Path p word q) : Hops links A p word q
  | hop {p s t q : State} {u v : List String} (front : A.Path p u s) (link : links s t)
    (rest : Hops links A t v q) : Hops links A p (u ++ v) q

variable {links : State → State → Prop} {A B : Automaton} {p q r s : State} {u v word : List String}

theorem Hops.prepend (h : A.Path p u r) (rest : Hops links A r v q) : Hops links A p (u ++ v) q := by
  cases rest with
  | last path => exact .last (h.append path)
  | hop front link rest =>
    rw [← List.append_assoc]
    exact .hop (h.append front) link rest

theorem Hops.after (link : links p r) (rest : Hops links A r word q) : Hops links A p word q :=
  .hop (.nil p) link rest

theorem LinkedBy.path_iff_hops (h : LinkedBy links A B) : B.Path p word q ↔ Hops links A p word q := by
  constructor
  · intro hpath
    induction hpath with
    | nil => exact .last (.nil _)
    | epsilon edge _ ih =>
      rcases (h _ _ _).1 edge with edge | ⟨_, link⟩
      · exact Hops.prepend (.single_epsilon edge) ih
      · exact .after link ih
    | symbol edge _ ih =>
      rcases (h _ _ _).1 edge with edge | ⟨hl, _⟩
      · exact Hops.prepend (.single_symbol edge) ih
      · cases hl
  · have hmono : ∀ p l q, A.Edge p l q → B.Edge p l q := fun p l q edge => (h p l q).2 (Or.inl edge)
    intro hhops
    induction hhops with
    | last path => exact path.mono hmono
    | hop front link _ ih => exact (front.mono hmono).append (.epsilon ((h _ _ _).2 (Or.inr ⟨rfl, link⟩)) ih)

/-- Links added one after the other are links added at once. -/
theorem LinkedBy.trans {links' : State → State → Prop} {C : Automaton} (h : LinkedBy links A B)
    (g : LinkedBy links' B C) : LinkedBy (fun p q => links p q ∨ links' p q) A C := by
  intro p l q
  rw [g p l q, h p l q, or_assoc, and_or_left]

/-- Where no link leaves what is reached, there are only the paths of `A`. -/
theorem Hops.path_of_not_links (h : Hops links A p word q)
    (hlinks : ∀ u s t, A.Path p u s → ¬ links s t) : A.Path p word q := by
  cases h with
  | last path => exact path
  | hop front link _ => exact absurd link (hlinks _ _ _ front)

/-- Only a link leaves what is no state. -/
theorem WellFormed.hops_iff_of_le (hA : A.WellFormed) (hp : A.numStates ≤ p) :
    Hops links A p word q ↔ word = [] ∧ q = p ∨ ∃ t, links p t ∧ Hops links A t word q := by
  constructor
  · intro h
    cases h with
    | last path => exact Or.inl (hA.path_of_le hp path)
    | hop front link rest =>
      obtain ⟨rfl, rfl⟩ := hA.path_of_le hp front
      exact Or.inr ⟨_, link, rest⟩
  · rintro (⟨rfl, rfl⟩ | ⟨t, link, rest⟩)
    · exact .last (.nil _)
    · exact .after link rest

/-- Nothing leaves what is no state and has no link. -/
theorem WellFormed.hops_iff_of_not_links (hA : A.WellFormed) (hp : A.numStates ≤ p) (hlinks : ∀ t, ¬ links p t) :
    Hops links A p word q ↔ word = [] ∧ q = p := by
  rw [hA.hops_iff_of_le hp]
  exact or_iff_left fun ⟨t, link, _⟩ => hlinks t link

def languageBetween (A : Automaton) (S F : State → Prop) : Language String :=
  {word | ∃ p q, S p ∧ F q ∧ A.Path p word q}

@[simp] theorem mem_languageBetween_eq : word ∈ A.languageBetween (· = p) (· = q) ↔ A.Path p word q := by
  constructor
  · rintro ⟨_, _, rfl, rfl, path⟩
    exact path
  · exact fun path => ⟨p, q, rfl, rfl, path⟩

/-- Where links lead into a part that does not lead back, none is taken from there. -/
theorem Hops.path_of_no_return {F G : State → Prop} (hlinks : ∀ p q, links p q ↔ F p ∧ G q)
    (hback : ∀ p q word, G p → F q → ¬ A.Path p word q) (h : Hops links A p word q) (hp : G p) : A.Path p word q := by
  apply h.path_of_not_links
  intro u s t path link
  exact hback p s u hp ((hlinks s t).1 link).1 path

/-- Links from one part into another that does not lead back put the words of both one after the other. -/
theorem hops_chain {S F G T : State → Prop} (hlinks : ∀ p q, links p q ↔ F p ∧ G q)
    (hapart : ∀ p q word, S p → T q → ¬ A.Path p word q) (hback : ∀ p q word, G p → F q → ¬ A.Path p word q) :
    (∃ p q, S p ∧ T q ∧ Hops links A p word q) ↔
      word ∈ A.languageBetween S F * A.languageBetween G T := by
  rw [Language.mem_mul]
  constructor
  · rintro ⟨p, q, hp, hq, h⟩
    cases h with
    | last path => exact absurd path (hapart p q word hp hq)
    | hop front link rest =>
      obtain ⟨hs, ht⟩ := (hlinks _ _).1 link
      exact ⟨_, ⟨p, _, hp, hs, front⟩, _, ⟨_, q, ht, hq, rest.path_of_no_return hlinks hback ht⟩, rfl⟩
  · rintro ⟨u, ⟨p, s, hp, hs, front⟩, v, ⟨t, q, ht, hq, rest⟩, rfl⟩
    exact ⟨p, q, hp, hq, .hop front ((hlinks s t).2 ⟨hs, ht⟩) (.last rest)⟩

/-- So the paths of `A` alone lead to where links begin. -/
theorem hops_back {F G : State → Prop} (hlinks : ∀ p q, links p q ↔ F p ∧ G q)
    (hback : ∀ p q word, G p → F q → ¬ A.Path p word q) (hq : F q) : Hops links A p word q ↔ A.Path p word q := by
  constructor
  · intro h
    cases h with
    | last path => exact path
    | @hop _ s t _ _ v front link rest =>
      have ht : G t := ((hlinks s t).1 link).2
      exact absurd (rest.path_of_no_return hlinks hback ht) (hback t q v ht hq)
  · exact Hops.last

/-- Two parts that no path connects have the words of both. -/
theorem languageBetween_or {S F G T : State → Prop} (hapart : ∀ p q word, S p → T q → ¬ A.Path p word q)
    (hback : ∀ p q word, G p → F q → ¬ A.Path p word q) :
    A.languageBetween (fun p => S p ∨ G p) (fun q => F q ∨ T q) =
      A.languageBetween S F + A.languageBetween G T := by
  ext word
  rw [Language.mem_add]
  constructor
  · rintro ⟨p, q, hp | hp, hq | hq, path⟩
    · exact Or.inl ⟨p, q, hp, hq, path⟩
    · exact absurd path (hapart p q word hp hq)
    · exact absurd path (hback p q word hp hq)
    · exact Or.inr ⟨p, q, hp, hq, path⟩
  · rintro (⟨p, q, hp, hq, path⟩ | ⟨p, q, hp, hq, path⟩)
    · exact ⟨p, q, Or.inl hp, Or.inl hq, path⟩
    · exact ⟨p, q, Or.inr hp, Or.inr hq, path⟩

/-- Links from a new state into the automaton are taken once, at the beginning. -/
theorem WellFormed.hops_fork (hA : A.WellFormed) {h : State} {S F : State → Prop} (hh : A.numStates ≤ h)
    (hS : ∀ p, S p → p < A.numStates) (hF : ∀ q, F q → q < A.numStates) (hlinks : ∀ p q, links p q ↔ p = h ∧ S q) :
    (∃ q, F q ∧ Hops links A h word q) ↔ word ∈ A.languageBetween S F := by
  constructor
  · intro ⟨q, hq, hhops⟩
    rcases (hA.hops_iff_of_le hh).1 hhops with ⟨_, rfl⟩ | ⟨t, link, rest⟩
    · exact absurd (hF q hq) (Nat.not_lt.2 hh)
    · have ht : S t := ((hlinks h t).1 link).2
      refine ⟨t, q, ht, hq, rest.path_of_not_links fun u s r path link' => ?_⟩
      have hlt : s < A.numStates := hA.path_lt path (hS t ht)
      exact Nat.not_lt.2 hh (((hlinks s r).1 link').1 ▸ hlt)
  · intro ⟨t, q, ht, hq, path⟩
    have link : links h t := (hlinks h t).2 ⟨rfl, ht⟩
    exact ⟨q, hq, .after link (.last path)⟩

section Bracket

variable {h k : State} {S F : State → Prop} (hA : A.WellFormed) (hh : A.numStates ≤ h) (hk : A.numStates ≤ k)
  (hne : h ≠ k) (hS : ∀ p, S p → p < A.numStates) (hF : ∀ q, F q → q < A.numStates)

include hA hh hk hne hS hF

/-- Links from a new state into the automaton, and out of it to another new state. -/
theorem hops_bracket (hlinks : ∀ p q, links p q ↔ p = h ∧ S q ∨ F p ∧ q = k) :
    Hops links A h word k ↔ word ∈ A.languageBetween S F := by
  have hend : ∀ {v}, Hops links A k v k ↔ v = [] := by
    intro v
    refine (hA.hops_iff_of_not_links hk fun t link => ?_).trans (and_iff_left rfl)
    rcases (hlinks k t).1 link with ⟨he, _⟩ | ⟨hlt, _⟩
    · exact hne he.symm
    · exact absurd (hF k hlt) (Nat.not_lt.2 hk)
  constructor
  · intro hhops
    rcases (hA.hops_iff_of_le hh).1 hhops with ⟨_, he⟩ | ⟨t, link, rest⟩
    · exact absurd he.symm hne
    · have ht : S t := by
        rcases (hlinks h t).1 link with ⟨_, ht⟩ | ⟨hlt, _⟩
        · exact ht
        · exact absurd (hF h hlt) (Nat.not_lt.2 hh)
      cases rest with
      | last path => exact absurd (hA.path_lt path (hS t ht)) (Nat.not_lt.2 hk)
      | @hop _ s r _ u v front link rest =>
        rcases (hlinks s r).1 link with ⟨rfl, _⟩ | ⟨hs, rfl⟩
        · exact absurd (hA.path_lt front (hS t ht)) (Nat.not_lt.2 hh)
        · obtain rfl := hend.1 rest
          rw [List.append_nil]
          exact ⟨t, s, ht, hs, front⟩
  · rintro ⟨p, q, hp, hq, path⟩
    have hexit : Hops links A p (word ++ []) k := .hop path ((hlinks q k).2 (Or.inr ⟨hq, rfl⟩)) (.last (.nil k))
    rw [List.append_nil] at hexit
    exact (hA.hops_iff_of_le hh).2 (Or.inr ⟨p, (hlinks h p).2 (Or.inl ⟨rfl, hp⟩), hexit⟩)

omit hF in
/-- The same with links from the ends back to the beginnings, and past the automaton. -/
theorem hops_loop (hlinks : ∀ p q, links p q ↔ (p = h ∨ F p) ∧ (q = k ∨ S q)) :
    Hops links A h word k ↔ word ∈ (A.languageBetween S F)∗ := by
  constructor
  · -- Induction on the hops: each begins at the entry, at a beginning, or at the exit.
    have hround : ∀ {p v q}, Hops links A p v q → q = k → p = h ∨ p = k ∨ S p →
        v ∈ (A.languageBetween S F)∗ := by
      intro p v q hhops hq hp
      induction hhops with
      | last path =>
        subst hq
        rcases hp with rfl | rfl | hp
        · exact absurd (hA.path_of_le hh path).2.symm hne
        · obtain ⟨rfl, _⟩ := hA.path_of_le hk path
          exact Language.nil_mem_kstar _
        · exact absurd (hA.path_lt path (hS _ hp)) (Nat.not_lt.2 hk)
      | @hop p s t q u v front link rest ih =>
        obtain ⟨hs, ht⟩ := (hlinks s t).1 link
        have hv := ih hq (Or.inr ht)
        rcases hp with rfl | rfl | hp
        · obtain ⟨rfl, _⟩ := hA.path_of_le hh front
          exact hv
        · obtain ⟨rfl, rfl⟩ := hA.path_of_le hk front
          exact hv
        · have hfinal : F s := hs.resolve_left fun he =>
            absurd (hA.path_lt front (hS p hp)) (Nat.not_lt.2 (he ▸ hh))
          have hu : u ∈ A.languageBetween S F := ⟨p, s, hp, hfinal, front⟩
          have hle : A.languageBetween S F * (A.languageBetween S F)∗ ≤ (A.languageBetween S F)∗ :=
            mul_kstar_le_kstar
          exact hle (Language.append_mem_mul hu hv)
    exact fun hhops => hround hhops rfl (Or.inl rfl)
  · rw [Language.mem_kstar]
    rintro ⟨rounds, rfl, hrounds⟩
    -- The entry has the same links as the ends of a round, so one induction serves the first round and the others.
    have hexit : ∀ p, p = h ∨ F p → Hops links A p rounds.flatten k := by
      induction rounds with
      | nil => exact fun p hp => .after ((hlinks p k).2 ⟨hp, Or.inl rfl⟩) (.last (.nil k))
      | cons u rounds ih =>
        intro p hp
        obtain ⟨s, t, hs, ht, path⟩ := hrounds u List.mem_cons_self
        have hrest := ih (fun v hv => hrounds v (List.mem_cons_of_mem u hv)) t (Or.inr ht)
        exact .after ((hlinks p s).2 ⟨hp, Or.inr hs⟩) (hrest.prepend path)
    exact hexit h (Or.inl rfl)

end Bracket

/-- Adds epsilon edges to the transitions. -/
theorem linkedBy_addAll (A : Automaton) (edges : List (State × State)) :
    LinkedBy (fun p q => (p, q) ∈ edges) A
      { A with transitions := A.transitions.addAll (edges.map fun e => ⟨e.1, .epsilon, e.2⟩) } := by
  intro p l q
  simp only [Edge, Transitions.contains_addAll, List.mem_map, Transition.mk.injEq, Prod.exists]
  constructor
  · rintro ⟨k, hk, h | ⟨_, _, h, rfl, rfl, rfl⟩⟩
    · exact Or.inl ⟨k, hk, h⟩
    · exact Or.inr ⟨(Option.some.inj hk).symm, h⟩
  · rintro (⟨k, hk, h⟩ | ⟨rfl, h⟩)
    · exact ⟨k, hk, Or.inl h⟩
    · exact ⟨.epsilon, rfl, Or.inr ⟨p, q, h, rfl, rfl, rfl⟩⟩

theorem WellFormed.addLinks (hA : A.WellFormed) {edges : List (State × State)}
    (hedges : ∀ e ∈ edges, e.1 < A.numStates ∧ e.2 < A.numStates) :
    ({ A with transitions := A.transitions.addAll (edges.map fun e => ⟨e.1, .epsilon, e.2⟩) } :
      Automaton).WellFormed := by
  refine hA.setTransitions fun p l q h => ?_
  rcases Transitions.contains_addAll.1 h with h | h
  · exact hA.transitions p l q h
  · obtain ⟨e, he, h⟩ := List.mem_map.1 h
    cases h
    exact ⟨(hedges e he).1, rfl, (hedges e he).2⟩

end RegularLanguages.Automaton
