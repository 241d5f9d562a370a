import RegularLanguages.Proofs.Exploration
import RegularLanguages.Proofs.Runs

/-!
Automata whose states are the positions of what an exploration has found, and whose transitions are its
rows. They are deterministic, and words lead to all of their states.
-/
namespace RegularLanguages.Automaton

variable {α : Type} {key : α → Nat} {next : α → List (Option α)} {x : α} {E : Exploration α}
  {D : Automaton}

/-- State `i` of `D` stands for the `i`th element found in a complete exploration from `x`. -/
structure Numbers (key : α → Nat) (next : α → List (Option α)) (x : α) (E : Exploration α)
    (D : Automaton) : Prop extends Exploration.Complete key next x E where
  numStates_eq : D.numStates = E.found.size
  starts_eq : D.starts = .singleton 0
  transitions_eq : D.transitions = .ofRows E.rows.toList

namespace Numbers

theorem deterministic_transitions (h : Numbers key next x E D) : D.transitions.isDeterministic := by
  rw [h.transitions_eq]
  exact Transitions.ofRows_isDeterministic _

theorem first?_starts (h : Numbers key next x E D) : D.starts.first? = some 0 := by
  rw [h.starts_eq, StateSet.first?_singleton]

theorem isDeterministic (h : Numbers key next x E D) : D.isDeterministic :=
  isDeterministic_of_singleton h.starts_eq h.deterministic_transitions

/-- States lead to each other as the elements they stand for. -/
theorem next?_iff (h : Numbers key next x E D) {i j : State} {a : SymbolId} :
    D.next? i a = some j ↔
      ∃ y z, E.found[i]? = some y ∧ (next y)[a]? = some (some z) ∧ E.found[j]? = some z := by
  rw [next?_eq_some_iff h.deterministic_transitions, h.transitions_eq, Transitions.contains_ofRows,
    ← h.row_eq_some_iff]
  constructor
  · rintro ⟨row, a, hrow, he, ha⟩
    cases he
    exact ⟨row, Array.getElem?_toList ▸ hrow, ha⟩
  · rintro ⟨row, hrow, ha⟩
    exact ⟨row, a, Array.getElem?_toList.symm ▸ hrow, rfl, ha⟩

/-- On each symbol a state leads to the state for the successor, or nowhere if there is none. -/
theorem next?_rel (h : Numbers key next x E D) {i : State} {y : α} (hy : E.found[i]? = some y) {a : SymbolId}
    {s : Option α} (ha : (next y)[a]? = some s) : Option.Rel (fun j z => E.found[j]? = some z) (D.next? i a) s := by
  cases s with
  | none =>
    have hnone : D.next? i a = none := Option.eq_none_iff_forall_ne_some.2 fun j hj => by
      obtain ⟨y', z, hy', hz, _⟩ := h.next?_iff.1 hj
      obtain rfl := Option.some.inj (hy.symm.trans hy')
      cases ha.symm.trans hz
    rw [hnone]
    exact .none
  | some z =>
    obtain ⟨j, hj⟩ := h.found_of_reaches ((h.reached y (Array.mem_of_getElem? hy)).tail (List.mem_of_getElem? ha))
    rw [h.next?_iff.2 ⟨y, z, hy, ha, hj⟩]
    exact .some hj

/-- Some word leads to each state. -/
theorem exists_word (h : Numbers key next x E D) (hlen : ∀ y, (next y).length ≤ D.alphabet.size)
    {i : State} (hi : i < D.numStates) : ∃ word, D.after? (some 0) word = some i := by
  suffices hfound : ∀ y, Exploration.Reaches next x y → ∀ j : Nat, E.found[j]? = some y →
      ∃ word, D.after? (some 0) word = some j by
    have hlt : i < E.found.size := h.numStates_eq ▸ hi
    exact hfound _ (h.reached _ (Array.getElem_mem hlt)) i (Array.getElem?_eq_getElem hlt)
  intro y hy
  induction hy with
  | refl =>
    intro j hj
    exact ⟨[], congrArg some (h.indexed.position_unique h.first hj)⟩
  | tail hy' hstep ih =>
    intro j hj
    obtain ⟨k, hk⟩ := h.found_of_reaches hy'
    obtain ⟨word, hword⟩ := ih k hk
    obtain ⟨a, ha⟩ := List.getElem?_of_mem hstep
    have hlt : a < D.alphabet.size := Nat.lt_of_lt_of_le (List.getElem?_eq_some_iff.1 ha).1 (hlen _)
    obtain ⟨name, hname⟩ := Alphabet.exists_name hlt
    refine ⟨word ++ [name], ?_⟩
    rw [after?_append, hword, after?_cons, after?_nil, step?_eq_some_iff]
    exact ⟨k, a, rfl, hname, h.next?_iff.2 ⟨_, _, hk, ha, hj⟩⟩

end Numbers

/-- The states are numbered in the order in which some exploration from the start has found what they stand
for, with one successor or none for each symbol. -/
def BreadthFirst (D : Automaton) : Prop :=
  ∃ (α : Type) (key : α → Nat) (next : α → List (Option α)) (bound : Nat) (x : α),
    Function.Injective key ∧ Numbers key next x (.explore key next bound x) D ∧
      ∀ y ∈ (Exploration.explore key next bound x).found, (next y).length = D.alphabet.size

end RegularLanguages.Automaton
