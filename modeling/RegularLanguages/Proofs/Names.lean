import RegularLanguages.StateNames

/-!
The names that states carry after namings: the newest one of each state.
-/
namespace RegularLanguages.StateNames

variable {N : StateNames} {q : State} {name : String}

@[simp] theorem name?_empty (q : State) : (∅ : StateNames).name? q = none := Std.ExtTreeMap.getElem?_empty

theorem name?_set (N : StateNames) (p : State) (name : String) (q : State) :
    (N.set p name).name? q = if p = q then some name else N.name? q := by
  have hget : (N.set p name).name? q = if compare p q = .eq then some name else N.name? q :=
    Std.ExtTreeMap.getElem?_insert
  simpa only [Std.LawfulEqCmp.compare_eq_iff_eq] using hget

/-- A name comes from one of the namings or was there before. -/
theorem mem_of_name?_setAll {namings : List (State × String)} (h : (N.setAll namings).name? q = some name) :
    (q, name) ∈ namings ∨ N.name? q = some name := by
  induction namings generalizing N with
  | nil => exact Or.inr h
  | cons e rest ih =>
    rcases ih (N := N.set e.1 e.2) h with h | h
    · exact Or.inl (List.mem_cons_of_mem _ h)
    · rw [name?_set] at h
      split at h
      · rename_i he
        obtain rfl := Option.some.inj h
        exact Or.inl (he ▸ List.mem_cons_self)
      · exact Or.inr h

theorem lt_length_of_name?_ofList {names : List String} (h : (ofList names).name? q = some name) :
    q < names.length := by
  rcases mem_of_name?_setAll h with h | h
  · obtain ⟨⟨_, _⟩, hmem, he⟩ := List.mem_map.1 h
    cases he
    exact (List.getElem?_eq_some_iff.1 (List.mem_zipIdx_iff_getElem?.1 hmem)).1
  · rw [name?_empty] at h
    cases h

/-- The owner of a name carries a name, if only a later one. -/
theorem exists_name?_of_owner? (h : N.owner? name = some q) : ∃ other, N.name? q = some other := by
  obtain ⟨e, he, rfl⟩ := Option.map_eq_some_iff.1 h
  exact N.named e (List.mem_filter.1 (List.mem_of_getLast? he)).1

/-- A name goes to a state only if it has no owner yet. -/
theorem owner?_set (N : StateNames) (q : State) (name other : String) :
    (N.set q name).owner? other = (N.owner? other).or (if name = other then some q else none) := by
  have hgiven : (N.set q name).given = (q, name) :: N.given := rfl
  rw [owner?, owner?, hgiven, List.filter_cons]
  by_cases he : name = other
  · subst he
    rw [if_pos (beq_self_eq_true name), if_pos rfl, List.getLast?_cons]
    cases (N.given.filter fun g => g.2 == name).getLast? <;> rfl
  · rw [if_neg (by simpa using he), if_neg he, Option.or_none]

theorem mem_below {n : Nat} : (q, name) ∈ N.below n ↔ q < n ∧ N.name? q = some name := by
  rw [below, List.mem_filter, Std.ExtTreeMap.mem_toList_iff_getElem?_eq_some, decide_eq_true_eq, and_comm]
  rfl

end RegularLanguages.StateNames
