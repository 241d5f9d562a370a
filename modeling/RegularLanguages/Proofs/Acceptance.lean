import RegularLanguages.Proofs.Reachability

/-!
Acceptance in terms of the transitions themselves: a word is accepted exactly when it is spelled by the symbols along
consecutive transitions from a start state to a final state.
-/
namespace RegularLanguages

namespace Automaton

inductive Route (A : Automaton) : State → List Transition → State → Prop
  | nil (q : State) : Route A q [] q
  | cons {t : Transition} {route : List Transition} {q : State} (mem : t ∈ A.transitions.toList)
    (rest : Route A t.target route q) : Route A t.source (t :: route) q

def symbolsOf (route : List Transition) : List SymbolId :=
  route.filterMap fun t =>
    match t.label with
    | .epsilon => none
    | .symbol a => some a

/-- The names of the symbols that some transitions read, in order, if they all have names. -/
def spelling? (A : Automaton) (route : List Transition) : Option (List String) :=
  (symbolsOf route).mapM A.alphabet.name?

variable {A : Automaton} {p q : State} {word : List String}

private theorem spelling?_epsilon {route : List Transition} :
    A.spelling? (⟨p, .epsilon, q⟩ :: route) = A.spelling? route := rfl

theorem spelling?_symbol {a : SymbolId} {route : List Transition} :
    A.spelling? (⟨p, .symbol a, q⟩ :: route) = some word ↔
      ∃ name rest, A.alphabet.name? a = some name ∧ A.spelling? route = some rest ∧ name :: rest = word := by
  have hsymbols : symbolsOf (⟨p, .symbol a, q⟩ :: route) = a :: symbolsOf route := rfl
  rw [spelling?, hsymbols, List.mapM_cons]
  simp [spelling?, Option.bind_eq_some_iff]

theorem Route.step {r : State} {l : Label SymbolId} {route : List Transition} (rest : A.Route r route q)
    (h : A.transitions.contains p l r) : A.Route p (⟨p, l, r⟩ :: route) q := by
  have hmem : ⟨p, l, r⟩ ∈ A.transitions.toList := Transitions.mem_toList.2 h
  exact .cons hmem rest

theorem path_iff_route : A.Path p word q ↔ ∃ route, A.Route p route q ∧ A.spelling? route = some word := by
  constructor
  · intro h
    induction h with
    | nil => exact ⟨[], .nil _, rfl⟩
    | epsilon edge _ ih =>
      obtain ⟨route, hroute, hspelling⟩ := ih
      exact ⟨_, hroute.step (edge_epsilon_iff.1 edge), spelling?_epsilon.trans hspelling⟩
    | symbol edge _ ih =>
      obtain ⟨route, hroute, hspelling⟩ := ih
      obtain ⟨a, ha, h⟩ := edge_symbol_iff.1 edge
      refine ⟨_, hroute.step h, ?_⟩
      exact spelling?_symbol.2 ⟨_, _, Alphabet.id?_eq_some_iff.1 ha, hspelling, rfl⟩
  · rintro ⟨route, hroute, hspelling⟩
    induction hroute generalizing word with
    | nil =>
      cases hspelling
      exact .nil _
    | @cons t _ _ mem _ ih =>
      obtain ⟨p, l, r⟩ := t
      have h := Transitions.mem_toList.1 mem
      cases l with
      | epsilon => exact .epsilon (edge_epsilon_iff.2 h) (ih hspelling)
      | symbol a =>
        obtain ⟨name, rest, ha, hrest, rfl⟩ := spelling?_symbol.1 hspelling
        exact .symbol (edge_symbol_iff.2 ⟨a, Alphabet.id?_eq_some_iff.2 ha, h⟩) (ih hrest)

theorem Path.mem_names (h : A.Path p word q) : ∀ name ∈ word, name ∈ A.alphabet.names := by
  induction h with
  | nil => exact nofun
  | epsilon _ _ ih => exact ih
  | symbol edge _ ih =>
    obtain ⟨a, ha, _⟩ := edge_symbol_iff.1 edge
    refine List.forall_mem_cons.2 ⟨?_, ih⟩
    exact List.mem_iff_getElem?.2 ⟨a, Alphabet.id?_eq_some_iff.1 ha⟩

/-- Exactly the words are accepted that are spelled along some route from a start state to a final state. None of them
has a symbol outside the alphabet. -/
theorem accepts_iff_route (A : Automaton) (word : List String) :
    (A.accepts word ↔ ∃ p route q, A.starts.contains p ∧ A.finals.contains q ∧
      A.Route p route q ∧ A.spelling? route = some word) ∧
    ∀ name ∈ word, name ∉ A.alphabet.names → A.accepts word = false := by
  constructor
  · rw [accepts_iff]
    constructor
    · rintro ⟨p, q, hp, hq, h⟩
      obtain ⟨route, hroute, hspelling⟩ := path_iff_route.1 h
      exact ⟨p, route, q, hp, hq, hroute, hspelling⟩
    · rintro ⟨p, route, q, hp, hq, hroute, hspelling⟩
      exact ⟨p, q, hp, hq, path_iff_route.2 ⟨route, hroute, hspelling⟩⟩
  · intro name hname hnew
    refine Bool.eq_false_iff.2 fun haccepts => ?_
    obtain ⟨p, q, _, _, h⟩ := accepts_iff.1 haccepts
    exact hnew (h.mem_names name hname)

theorem accepts_iff_route_circle : "b" ∈ ["a", "b"] ∧ "b" ∉ (circle 2).alphabet.names ∧
    (circle 2).accepts ["a", "b"] = false := by
  have hmem : "b" ∈ ["a", "b"] := by decide
  have hnew : "b" ∉ (circle 2).alphabet.names := by decide
  exact ⟨hmem, hnew, (accepts_iff_route (circle 2) ["a", "b"]).2 "b" hmem hnew⟩

end Automaton

end RegularLanguages
