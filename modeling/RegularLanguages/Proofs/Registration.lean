import RegularLanguages.Automaton.Product
import RegularLanguages.Automaton.Registration
import RegularLanguages.Proofs.Names
import RegularLanguages.Proofs.WellFormed

/-!
States that are registered by their names are numbered in the order in which the names are first mentioned, like symbols.
To mention a name changes nothing about the states that are there.
-/
namespace RegularLanguages.Automaton

variable {A B : Automaton} {N M : Alphabet}

/-- The states stand for some names, numbered as symbols are, and carry them. -/
structure Named (A : Automaton) (N : Alphabet) : Prop extends A.WellFormed where
  size_eq : N.size = A.numStates
  findState?_eq : ∀ name, A.findState? name = N.id? name
  name?_eq : ∀ q, A.names.name? q = N.name? q

def registerAll (A : Automaton) (names : List String) : Automaton :=
  names.foldl (fun A name => (A.state name).automaton) A

theorem empty_named : (∅ : Automaton).Named ∅ where
  toWellFormed := withAlphabet_wellFormed ∅
  size_eq := rfl
  findState?_eq _ := rfl
  name?_eq q := by
    change (∅ : StateNames).name? q = _
    rw [StateNames.name?_empty]
    rfl

private theorem state_frame (A : Automaton) (name : String) : (A.state name).automaton =
    { A with numStates := (A.state name).automaton.numStates, names := (A.state name).automaton.names } := by
  unfold state addState
  split
  · rfl
  · by_cases hlt : A.numStates < maxStates
    · rw [if_pos hlt]
      rfl
    · rw [if_neg hlt]
      rfl

theorem registerAll_frame (A : Automaton) (names : List String) : A.registerAll names =
    { A with numStates := (A.registerAll names).numStates, names := (A.registerAll names).names } := by
  induction names generalizing A with
  | nil => rfl
  | cons name names ih =>
    change (A.state name).automaton.registerAll names =
      { A with
        numStates := ((A.state name).automaton.registerAll names).numStates
        names := ((A.state name).automaton.registerAll names).names }
    rw [ih]
    exact congrArg (fun B : Automaton => { B with
      numStates := ((A.state name).automaton.registerAll names).numStates
      names := ((A.state name).automaton.registerAll names).names }) (state_frame A name)

section
variable {p q : State}

theorem addStart_of_lt (hq : q < A.numStates) :
    A.addStart q = ⟨{ A with starts := A.starts.insert q }, .ok ()⟩ := by
  rw [addStart, ensureState, if_pos hq]
  rfl

theorem addFinal_of_lt (hq : q < A.numStates) :
    A.addFinal q = ⟨{ A with finals := A.finals.insert q }, .ok ()⟩ := by
  rw [addFinal, ensureState, if_pos hq]
  rfl

theorem addTransition_of_lt (hp : p < A.numStates) (hq : q < A.numStates) (label : Label String) :
    A.addTransition p label q =
      ⟨{ (A.internLabel label).1 with transitions := A.transitions.add p (A.internLabel label).2 q },
        .ok (!A.transitions.contains p (A.internLabel label).2 q)⟩ := by
  have hstates : (A.internLabel label).1.numStates = A.numStates := by cases label <;> rfl
  have htransitions : (A.internLabel label).1.transitions = A.transitions := by cases label <;> rfl
  have hsource : (A.internLabel label).1.ensureState p = ⟨(A.internLabel label).1, .ok ()⟩ :=
    if_pos (hstates ▸ hp)
  have htarget : (A.internLabel label).1.ensureState q = ⟨(A.internLabel label).1, .ok ()⟩ :=
    if_pos (hstates ▸ hq)
  simp only [addTransition, hsource, Registration.andThen, htarget, htransitions]

end

namespace Named

/-- A name gets the number that it would get as a symbol. -/
theorem state (h : A.Named N) {name : String} (hroom : (N.intern name).size ≤ maxStates) :
    (A.state name).answer = .ok ((N.intern name).idOf name) ∧ (A.state name).automaton.Named (N.intern name) := by
  have howner : A.names.owner? name = N.id? name := h.findState?_eq name
  by_cases hmem : name ∈ N.names
  · have hintern : N.intern name = N := dif_pos hmem
    have hstate : A.state name = ⟨A, .ok (N.idOf name)⟩ := by
      rw [Automaton.state, howner, Alphabet.id?_idOf hmem]
    rw [hstate, hintern]
    exact ⟨rfl, h⟩
  · have hwell := h.toWellFormed.state name
    have hlt : A.numStates < maxStates := by
      rw [Alphabet.size_intern_new hmem, h.size_eq] at hroom
      exact hroom
    have hstate : A.state name =
        ⟨{ A with numStates := A.numStates + 1, names := A.names.set A.numStates name }, .ok A.numStates⟩ := by
      rw [Automaton.state, howner, Alphabet.id?_eq_none_iff.2 hmem, addState, if_pos hlt]
      rfl
    have hid : (N.intern name).id? name = some A.numStates := by
      rw [Alphabet.id?_intern_new hmem, Alphabet.id?_eq_none_iff.2 hmem, if_pos rfl, h.size_eq, Option.none_or]
    rw [hstate] at hwell ⊢
    refine ⟨by rw [Alphabet.idOf_of_id? hid], hwell, ?_, fun other => ?_, fun q => ?_⟩
    · rw [Alphabet.size_intern_new hmem, h.size_eq]
    · change (A.names.set A.numStates name).owner? other = _
      rw [StateNames.owner?_set, Alphabet.id?_intern_new hmem, h.size_eq, ← h.findState?_eq]
      rfl
    · change (A.names.set A.numStates name).name? q = _
      rw [StateNames.name?_set, Alphabet.name?_intern_new hmem, h.size_eq, h.name?_eq]

theorem registerAll (h : A.Named N) {names : List String} (hroom : (N.internAll names).size ≤ maxStates) :
    (A.registerAll names).Named (N.internAll names) := by
  induction names generalizing A N with
  | nil => exact h
  | cons name names ih =>
    have hfirst : (N.intern name).size ≤ maxStates := Nat.le_trans (Alphabet.size_le_internAll names) hroom
    exact ih (h.state hfirst).2 hroom

/-- Distinct names have distinct states. -/
theorem name_unique (h : A.Named N) {name other : String} {q : State} (hname : A.findState? name = some q)
    (hother : A.findState? other = some q) : name = other := by
  rw [h.findState?_eq, Alphabet.id?_eq_some_iff] at hname hother
  exact Option.some.inj (hname.symm.trans hother)

/-- Every state has a name. -/
theorem exists_name (h : A.Named N) {q : State} (hq : q < A.numStates) : ∃ name, A.findState? name = some q := by
  obtain ⟨name, hname⟩ := Alphabet.exists_name (h.size_eq ▸ hq)
  exact ⟨name, (h.findState?_eq name).trans hname⟩

theorem findState?_lt (h : A.Named N) {name : String} {q : State} (hq : A.findState? name = some q) :
    q < A.numStates := by
  rw [h.findState?_eq] at hq
  exact h.size_eq ▸ Alphabet.lt_size_of_id? hq

/-- Registered states keep their numbers. -/
theorem findState?_registerAll (h : A.Named N) (names : List String) (hroom : (N.internAll names).size ≤ maxStates)
    {name : String} {q : State} (hq : A.findState? name = some q) : (A.registerAll names).findState? name = some q := by
  rw [h.findState?_eq] at hq
  rw [(h.registerAll hroom).findState?_eq, Alphabet.id?_internAll hq]

theorem stateNames_eq (h : A.Named N) : A.stateNames = N.names := by
  rw [stateNames, ← h.size_eq]
  refine List.ext_getElem (by rw [List.length_map, List.length_range]; rfl) fun q hq _ => ?_
  rw [List.length_map, List.length_range] at hq
  obtain ⟨name, hname⟩ := Alphabet.exists_name hq
  have hcurrent := Alphabet.id?_eq_some_iff.1 hname
  rw [List.getElem_map, List.getElem_range, stateName, StateNames.display, h.name?_eq, hcurrent, Option.getD_some]
  exact ((List.getElem_eq_iff _).2 hcurrent).symm

end Named

end RegularLanguages.Automaton
