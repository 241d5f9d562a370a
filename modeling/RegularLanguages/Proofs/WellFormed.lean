import RegularLanguages.Automaton.Registration
import RegularLanguages.Proofs.Names
import RegularLanguages.Proofs.Paths

/-!
Well-formed automata mention only their own states and symbols. Registration leads from well-formed automata
to well-formed automata, also when it fails halfway.
-/
namespace RegularLanguages.Automaton

/-- Start states, final states, the ends of transitions and the named states are states, and the symbols of
transitions are in the alphabet. -/
structure WellFormed (A : Automaton) : Prop where
  starts_lt : ∀ q, A.starts.contains q → q < A.numStates
  finals_lt : ∀ q, A.finals.contains q → q < A.numStates
  transitions : ∀ q l r, A.transitions.contains q l r →
    q < A.numStates ∧ A.knows l ∧ r < A.numStates
  names_lt : ∀ q name, A.names.name? q = some name → q < A.numStates

variable {A : Automaton}

theorem knows_mono {B : Automaton} (h : A.alphabet.size ≤ B.alphabet.size) {l : Label SymbolId}
    (hl : A.knows l) : B.knows l := by
  cases l with
  | epsilon => rfl
  | symbol a =>
    rw [knows, decide_eq_true_eq] at *
    exact Nat.lt_of_lt_of_le hl h

theorem withAlphabet_wellFormed (alphabet : Alphabet) : (withAlphabet alphabet).WellFormed where
  starts_lt := by simp [withAlphabet]
  finals_lt := by simp [withAlphabet]
  transitions := by simp [withAlphabet]
  names_lt := by simp [withAlphabet]

namespace WellFormed

theorem addStates (h : A.WellFormed) {n : Nat} (hn : A.numStates ≤ n) :
    ({ A with numStates := n } : Automaton).WellFormed where
  starts_lt q hq := Nat.lt_of_lt_of_le (h.starts_lt q hq) hn
  finals_lt q hq := Nat.lt_of_lt_of_le (h.finals_lt q hq) hn
  transitions q l r hr :=
    have ⟨hq, hl, hr⟩ := h.transitions q l r hr
    ⟨Nat.lt_of_lt_of_le hq hn, hl, Nat.lt_of_lt_of_le hr hn⟩
  names_lt q name hq := Nat.lt_of_lt_of_le (h.names_lt q name hq) hn

theorem addSymbols (h : A.WellFormed) {alphabet : Alphabet} (hsize : A.alphabet.size ≤ alphabet.size) :
    ({ A with alphabet := alphabet } : Automaton).WellFormed where
  starts_lt := h.starts_lt
  finals_lt := h.finals_lt
  transitions q l r hr :=
    have ⟨hq, hl, hr⟩ := h.transitions q l r hr
    ⟨hq, knows_mono hsize hl, hr⟩
  names_lt := h.names_lt

theorem setStarts (h : A.WellFormed) {S : StateSet} (hS : ∀ q, S.contains q → q < A.numStates) :
    ({ A with starts := S } : Automaton).WellFormed :=
  ⟨hS, h.finals_lt, h.transitions, h.names_lt⟩

theorem setFinals (h : A.WellFormed) {S : StateSet} (hS : ∀ q, S.contains q → q < A.numStates) :
    ({ A with finals := S } : Automaton).WellFormed :=
  ⟨h.starts_lt, hS, h.transitions, h.names_lt⟩

theorem setTransitions (h : A.WellFormed) {T : Transitions}
    (hT : ∀ q l r, T.contains q l r → q < A.numStates ∧ A.knows l ∧ r < A.numStates) :
    ({ A with transitions := T } : Automaton).WellFormed :=
  ⟨h.starts_lt, h.finals_lt, hT, h.names_lt⟩

theorem setName (h : A.WellFormed) {q : State} (hq : q < A.numStates) (name : String) :
    ({ A with names := A.names.set q name } : Automaton).WellFormed := by
  refine ⟨h.starts_lt, h.finals_lt, h.transitions, fun p other hp => ?_⟩
  change (A.names.set q name).name? p = some other at hp
  rw [StateNames.name?_set] at hp
  split at hp
  · rename_i he
    exact he ▸ hq
  · exact h.names_lt p other hp

/-- Registering a state keeps the symbols, and what is registered without failure is a state. -/
theorem ensureState (h : A.WellFormed) (q : State) :
    (A.ensureState q).automaton.WellFormed ∧
      A.numStates ≤ (A.ensureState q).automaton.numStates ∧
      (A.ensureState q).automaton.alphabet = A.alphabet ∧
      ((A.ensureState q).answer = .ok () → q < (A.ensureState q).automaton.numStates) := by
  unfold Automaton.ensureState
  split
  · rename_i hq
    exact ⟨h, Nat.le_refl _, rfl, fun _ => hq⟩
  · rename_i hq
    have hle : A.numStates ≤ q + 1 := Nat.le_succ_of_le (Nat.not_lt.1 hq)
    split
    · exact ⟨h.addStates hle, hle, rfl, fun _ => Nat.lt_succ_self q⟩
    · exact ⟨h, Nat.le_refl _, rfl, nofun⟩

theorem andThen {α β : Type} {r : Registration α} {f : Automaton → α → Registration β}
    (h : r.automaton.WellFormed)
    (hf : ∀ a, r.answer = .ok a → (f r.automaton a).automaton.WellFormed) :
    (r.andThen f).automaton.WellFormed := by
  unfold Registration.andThen
  split
  · rename_i a ha
    exact hf a ha
  · exact h

theorem setStateName (h : A.WellFormed) (q : State) (name : String) :
    (A.setStateName q name).automaton.WellFormed := by
  obtain ⟨hB, _, _, hq⟩ := h.ensureState q
  exact hB.andThen fun _ ha => hB.setName (hq ha) name

theorem addState (h : A.WellFormed) :
    A.addState.automaton.WellFormed ∧
      ∀ q, A.addState.answer = .ok q → q < A.addState.automaton.numStates := by
  unfold Automaton.addState
  split
  · refine ⟨h.addStates (Nat.le_succ _), fun q hq => ?_⟩
    obtain rfl := Except.ok.inj hq
    exact Nat.lt_succ_self _
  · exact ⟨h, nofun⟩

theorem state (h : A.WellFormed) (name : String) : (A.state name).automaton.WellFormed := by
  unfold Automaton.state
  split
  · exact h
  · obtain ⟨hB, hq⟩ := h.addState
    exact hB.andThen fun q ha => hB.setName (hq q ha) name

theorem addStart (h : A.WellFormed) (q : State) : (A.addStart q).automaton.WellFormed := by
  obtain ⟨hB, _, _, hq⟩ := h.ensureState q
  exact hB.andThen fun _ ha => hB.setStarts fun _ => StateSet.lt_of_contains_insert hB.starts_lt (hq ha)

theorem addFinal (h : A.WellFormed) (q : State) : (A.addFinal q).automaton.WellFormed := by
  obtain ⟨hB, _, _, hq⟩ := h.ensureState q
  exact hB.andThen fun _ ha => hB.setFinals fun _ => StateSet.lt_of_contains_insert hB.finals_lt (hq ha)

theorem removeStart (h : A.WellFormed) (q : State) : (A.removeStart q).1.WellFormed := by
  refine h.setStarts fun p hp => h.starts_lt p ?_
  rw [StateSet.contains_erase, Bool.and_eq_true] at hp
  exact hp.1

theorem removeFinal (h : A.WellFormed) (q : State) : (A.removeFinal q).1.WellFormed := by
  refine h.setFinals fun p hp => h.finals_lt p ?_
  rw [StateSet.contains_erase, Bool.and_eq_true] at hp
  exact hp.1

theorem addSymbol (h : A.WellFormed) (name : String) : (A.addSymbol name).1.WellFormed :=
  h.addSymbols (Alphabet.size_le_intern name)

theorem internLabel (h : A.WellFormed) (l : Label String) :
    (A.internLabel l).1.WellFormed ∧ (A.internLabel l).1.knows (A.internLabel l).2 := by
  cases l with
  | epsilon => exact ⟨h, rfl⟩
  | symbol name =>
    refine ⟨h.addSymbol name, decide_eq_true ?_⟩
    exact Alphabet.idOf_lt_size (Alphabet.mem_names_intern.2 (Or.inr rfl))

/-- The symbol and both ends are registered before the transition is added. -/
theorem addTransition (h : A.WellFormed) (p : State) (l : Label String) (q : State) :
    (A.addTransition p l q).automaton.WellFormed := by
  obtain ⟨hB, hl⟩ := h.internLabel l
  obtain ⟨hC, _, hCalphabet, hp⟩ := hB.ensureState p
  obtain ⟨hD, hgrown, hDalphabet, hq⟩ := hC.ensureState q
  refine hC.andThen fun _ ha => hD.andThen fun _ hb => hD.setTransitions fun s k t ht => ?_
  rcases Transitions.contains_add.1 ht with ht | ⟨rfl, rfl, rfl⟩
  · exact hD.transitions s k t ht
  · refine ⟨Nat.lt_of_lt_of_le (hp ha) hgrown, knows_mono ?_ hl, hq hb⟩
    exact Nat.le_of_eq (congrArg Alphabet.size (hDalphabet.trans hCalphabet)).symm

theorem removeTransition (h : A.WellFormed) (p : State) (l : Label String) (q : State) :
    (A.removeTransition p l q).1.WellFormed := by
  unfold Automaton.removeTransition
  split
  · exact h.setTransitions fun s k t ht => h.transitions s k t (Transitions.contains_remove.1 ht).1
  · exact h

/-- More symbols, under numbers of their own, do not give a name to any label in use. -/
theorem edge_setAlphabet_iff (h : A.WellFormed) {alphabet : Alphabet}
    (hid : ∀ name a, A.alphabet.id? name = some a → alphabet.id? name = some a) {p q : State} {l : Label String} :
    ({ A with alphabet := alphabet } : Automaton).Edge p l q ↔ A.Edge p l q := by
  cases l with
  | epsilon => rw [edge_epsilon_iff, edge_epsilon_iff]
  | symbol name =>
    rw [edge_symbol_iff, edge_symbol_iff]
    constructor
    · rintro ⟨a, ha, hq⟩
      have hlt : a < A.alphabet.size := of_decide_eq_true (h.transitions p _ q hq).2.1
      obtain ⟨other, hother⟩ := Alphabet.exists_name hlt
      obtain rfl := Option.some.inj
        ((Alphabet.id?_eq_some_iff.1 (hid other a hother)).symm.trans (Alphabet.id?_eq_some_iff.1 ha))
      exact ⟨a, hother, hq⟩
    · rintro ⟨a, ha, hq⟩
      exact ⟨a, hid name a ha, hq⟩

theorem edge_lt (h : A.WellFormed) {p q : State} {l : Label String} (edge : A.Edge p l q) :
    p < A.numStates ∧ q < A.numStates := by
  obtain ⟨k, _, hq⟩ := edge
  exact ⟨(h.transitions p k q hq).1, (h.transitions p k q hq).2.2⟩

/-- What is not a state leads only to itself. -/
theorem path_of_le (h : A.WellFormed) {p q : State} {word : List String} (hp : A.numStates ≤ p)
    (hpath : A.Path p word q) : word = [] ∧ q = p := by
  cases hpath with
  | nil => exact ⟨rfl, rfl⟩
  | epsilon edge | symbol edge => exact absurd (h.edge_lt edge).1 (Nat.not_lt.2 hp)

theorem next_lt (h : A.WellFormed) {q r : State} {a : SymbolId} (hr : A.next? q a = some r) :
    r < A.numStates := by
  obtain ⟨S, hS, hfirst⟩ := Option.bind_eq_some_iff.1 hr
  exact (h.transitions q _ r (Transitions.contains_iff.2
    ⟨S, hS, (StateSet.first?_eq_some_iff.1 hfirst).1⟩)).2.2

end WellFormed

theorem withinBounds_of_le {n : Nat} {f : Unit → Automaton} (h : n ≤ maxStates) : withinBounds n f = .ok (f ()) :=
  if_pos h

theorem withinBounds_of_lt {n : Nat} {f : Unit → Automaton} (h : maxStates < n) :
    withinBounds n f = .error .counterOverflow :=
  if_neg (Nat.not_le.2 h)

/-- What is only built within bounds fails exactly beyond them. -/
theorem withinBounds_cases {n : Nat} {f : Unit → Automaton} {P : Automaton → Prop} (h : P (f ())) :
    maxStates < n ∧ withinBounds n f = .error .counterOverflow ∨
      n ≤ maxStates ∧ ∃ C, withinBounds n f = .ok C ∧ P C := by
  rcases Nat.lt_or_ge maxStates n with hmany | hfit
  · exact Or.inl ⟨hmany, withinBounds_of_lt hmany⟩
  · exact Or.inr ⟨hfit, f (), withinBounds_of_le hfit, h⟩

theorem of_withinBounds {n : Nat} {f : Unit → Automaton} {C : Automaton} (h : withinBounds n f = .ok C) :
    f () = C := by
  unfold withinBounds at h
  split at h
  · exact Except.ok.inj h
  · cases h

/-- States `0, …, n - 1` in a circle over one letter, the even ones final. -/
def circle (n : Nat) : Automaton :=
  { withAlphabet (.ofNames ["a"]) with
    numStates := n
    starts := .singleton 0
    finals := .below n fun q => q % 2 == 0
    transitions := .ofList ((List.range n).map fun q => ⟨q, .symbol 0, (q + 1) % n⟩) }

theorem circle_wellFormed {n : Nat} (hn : 0 < n) : (circle n).WellFormed where
  starts_lt q hq := by
    obtain rfl : 0 = q := by simpa [circle] using hq
    exact hn
  finals_lt q hq := by
    have hlt : q < n ∧ q % 2 = 0 := by simpa [circle] using hq
    exact hlt.1
  transitions q l r hr := by
    obtain ⟨p, hp, he⟩ := List.mem_map.1 (Transitions.contains_ofList.1 hr)
    cases he
    exact ⟨List.mem_range.1 hp, rfl, Nat.mod_lt _ hn⟩
  names_lt q name hq :=
    absurd ((withAlphabet_wellFormed ∅).names_lt q name hq) (Nat.not_lt_zero q)

/-- The circle with other symbols. It reads the first one; the others have no transitions. -/
def circleOver (names : List String) (n : Nat) : Automaton := { circle n with alphabet := .ofNames names }

theorem circleOver_wellFormed {names : List String} {n : Nat} (hn : 0 < n)
    (hnames : 0 < (Alphabet.ofNames names).size) : (circleOver names n).WellFormed :=
  (circle_wellFormed hn).addSymbols hnames

end RegularLanguages.Automaton
