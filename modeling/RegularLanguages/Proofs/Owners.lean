import RegularLanguages.Proofs.Sessions

/-!
Who is found by name. A name belongs to the first state that got it, and it stays with that state when the state is
renamed. Until then whoever is found by a name carries it, in whatever way the names have been given or copied.
-/
namespace RegularLanguages

namespace StateNames

/-- The owner of the name carries it, if there is one. -/
def Keeps (N : StateNames) (name : String) : Prop := ∀ p, N.owner? name = some p → N.name? p = some name

variable {N : StateNames} {p q : State} {name other : String}

private theorem exists_owner? (h : N.name? q = some name) : ∃ p, N.owner? name = some p := by
  have hmem : (q, name) ∈ N.given.filter fun g => g.2 == name :=
    List.mem_filter.2 ⟨N.mem_given q name h, beq_self_eq_true name⟩
  obtain ⟨g, hg⟩ := Option.isSome_iff_exists.1 (List.getLast?_isSome.2 (List.ne_nil_of_mem hmem))
  exact ⟨g.1, congrArg (Option.map Prod.fst) hg⟩

theorem keeps_empty (name : String) : (∅ : StateNames).Keeps name := nofun

/-- Only another name for the owner takes the name away. -/
theorem Keeps.set (h : N.Keeps name) (hq : N.owner? name = some q → other = name) : (N.set q other).Keeps name := by
  intro p hp
  rw [owner?_set] at hp
  rw [name?_set]
  cases howner : N.owner? name with
  | none =>
    rw [howner, Option.none_or] at hp
    split at hp
    · rename_i he
      obtain rfl := Option.some.inj hp
      rw [if_pos rfl, he]
    · cases hp
  | some r =>
    rw [howner, Option.some_or] at hp
    obtain rfl := Option.some.inj hp
    split
    · rename_i he
      rw [hq (he ▸ howner)]
    · exact h r howner

/-- States that have no name yet can be named, each once. -/
theorem Keeps.setAll (h : N.Keeps name) {namings : List (State × String)} (hnodup : (namings.map (·.1)).Nodup)
    (hnew : ∀ e ∈ namings, N.name? e.1 = none) : (N.setAll namings).Keeps name := by
  induction namings generalizing N with
  | nil => exact h
  | cons e namings ih =>
    rw [List.map_cons, List.nodup_cons] at hnodup
    obtain ⟨hfirst, hrest⟩ := hnodup
    obtain ⟨hhead, htail⟩ := List.forall_mem_cons.1 hnew
    have hset : (N.set e.1 e.2).Keeps name := h.set fun howner => by
      rw [h e.1 howner] at hhead
      cases hhead
    refine ih hset hrest fun d hd => ?_
    have hne : e.1 ≠ d.1 := fun he => hfirst (he ▸ List.mem_map_of_mem hd)
    rw [name?_set, if_neg hne]
    exact htail d hd

theorem keeps_ofList (names : List String) (name : String) : (ofList names).Keeps name := by
  refine (keeps_empty name).setAll ?_ fun e _ => name?_empty e.1
  rw [List.map_map]
  change (names.zipIdx.map Prod.snd).Nodup
  rw [List.zipIdx_map_snd]
  exact List.nodup_range'

private theorem nodup_below (N : StateNames) (n : Nat) : ((N.below n).map (·.1)).Nodup := by
  have hkeys : (N.current.toList.map (·.1)).Nodup := by
    rw [Std.ExtTreeMap.map_fst_toList_eq_keys]
    exact Std.ExtTreeMap.nodup_keys
  exact hkeys.sublist (List.filter_sublist.map _)

end StateNames

namespace Automaton

variable {A B R : Automaton} {name : String}

/-- Copies of states have no name before they get the one of the original. -/
theorem WellFormed.keeps_embed (hR : R.WellFormed) (h : R.names.Keeps name) (A : Automaton) :
    (R.embed A).names.Keeps name := by
  refine StateNames.Keeps.setAll h ?_ fun e he => ?_
  · have hmoved : (A.names.below A.numStates).map (fun e => R.numStates + e.1) =
        ((A.names.below A.numStates).map (·.1)).map (R.numStates + ·) := List.map_map.symm
    rw [List.map_map]
    exact hmoved ▸ (A.names.nodup_below A.numStates).map (add_right_injective R.numStates)
  · obtain ⟨d, _, rfl⟩ := List.mem_map.1 he
    refine Option.eq_none_iff_forall_ne_some.2 fun other hother => ?_
    exact Nat.not_lt.2 (Nat.le_add_right R.numStates d.1) (hR.names_lt _ other hother)

theorem keeps_embed_empty (A : Automaton) (name : String) : ((∅ : Automaton).embed A).names.Keeps name :=
  (withAlphabet_wellFormed ∅).keeps_embed (StateNames.keeps_empty name) A

theorem WellFormed.keeps_sideBySide (hA : A.WellFormed) (B : Automaton) (name : String) :
    (A.sideBySide B).names.Keeps name :=
  hA.embed_empty.keeps_embed (keeps_embed_empty A name) B

theorem names_ensureState (A : Automaton) (q : State) : (A.ensureState q).automaton.names = A.names := by
  unfold ensureState
  split
  · rfl
  · split <;> rfl

private theorem names_addState (A : Automaton) : A.addState.automaton.names = A.names := by
  unfold addState
  split <;> rfl

private theorem names_internLabel (A : Automaton) (l : Label String) : (A.internLabel l).1.names = A.names := by
  cases l <;> rfl

theorem names_andThen {α β : Type} {r : Registration α} {f : Automaton → α → Registration β}
    (hf : ∀ a, (f r.automaton a).automaton.names = r.automaton.names) :
    (r.andThen f).automaton.names = r.automaton.names := by
  unfold Registration.andThen
  split
  · exact hf _
  · rfl

private theorem names_addStart (A : Automaton) (q : State) : (A.addStart q).automaton.names = A.names := by
  refine (names_andThen fun _ => ?_).trans (A.names_ensureState q)
  rfl

private theorem names_addFinal (A : Automaton) (q : State) : (A.addFinal q).automaton.names = A.names := by
  refine (names_andThen fun _ => ?_).trans (A.names_ensureState q)
  rfl

private theorem names_addTransition (A : Automaton) (p : State) (l : Label String) (q : State) :
    (A.addTransition p l q).automaton.names = A.names := by
  refine (names_andThen fun _ => ?_).trans ((names_ensureState _ p).trans (A.names_internLabel l))
  exact (names_andThen fun _ => rfl).trans (names_ensureState _ q)

private theorem names_removeTransition (A : Automaton) (p : State) (l : Label String) (q : State) :
    (A.removeTransition p l q).1.names = A.names := by
  unfold removeTransition
  split <;> rfl

private theorem names_setStateName (A : Automaton) (q : State) (other : String) :
    (A.setStateName q other).automaton.names = A.names ∨
      (A.setStateName q other).automaton.names = A.names.set q other := by
  have hnames := A.names_ensureState q
  unfold setStateName Registration.andThen
  split
  · exact Or.inr (congrArg (·.set q other) hnames)
  · exact Or.inl hnames

private theorem WellFormed.keeps_state (hA : A.WellFormed) (h : A.names.Keeps name) (other : String) :
    (A.state other).automaton.names.Keeps name := by
  unfold Automaton.state Automaton.addState
  split
  · exact h
  · by_cases hlt : A.numStates < maxStates
    · rw [if_pos hlt]
      change (A.names.set A.numStates other).Keeps name
      exact h.set fun howner => absurd (hA.names_lt _ name (h _ howner)) (Nat.lt_irrefl _)
    · rw [if_neg hlt]
      exact h

end Automaton

private theorem Expression.names_assemble (e : Expression) (A : Automaton) : (e.assemble A).1.names = A.names := by
  induction e generalizing A with
  | empty | epsilon | symbol name => rfl
  | concatenation l r ihl ihr | union l r ihl ihr => exact (ihr _).trans (ihl A)
  | kleeneStar e ih => exact ih A

open Automaton StateNames

/-- A call takes a name away from its owner only by giving the owner another one. -/
theorem Call.keeps {A : Automaton} (hA : A.WellFormed) {name : String} (h : A.names.Keeps name) (call : Call) :
    (call.apply A).names.Keeps name ∨
      ∃ q other, call = .setStateName q other ∧ A.findState? name = some q ∧ other ≠ name := by
  cases call with
  | ensureState q => exact Or.inl ((A.names_ensureState q).symm ▸ h)
  | addState => exact Or.inl (A.names_addState.symm ▸ h)
  | state other => exact Or.inl (hA.keeps_state h other)
  | setStateName q other =>
    rcases A.names_setStateName q other with hnames | hnames
    · exact Or.inl (hnames.symm ▸ h)
    · by_cases hother : A.findState? name = some q → other = name
      · exact Or.inl (hnames.symm ▸ h.set hother)
      · obtain ⟨howner, hne⟩ := Classical.not_imp.1 hother
        exact Or.inr ⟨q, other, rfl, howner, hne⟩
  | addSymbol other => exact Or.inl h
  | addTransition p l q => exact Or.inl ((A.names_addTransition p l q).symm ▸ h)
  | removeTransition p l q => exact Or.inl ((A.names_removeTransition p l q).symm ▸ h)
  | addStart q => exact Or.inl ((A.names_addStart q).symm ▸ h)
  | addFinal q => exact Or.inl ((A.names_addFinal q).symm ▸ h)
  | removeStart q | removeFinal q => exact Or.inl h

namespace Derivation

/-- The variable whose names go over to the result as they are, if there is one. -/
def namesFrom? : Derivation → Option String
  | copy x | complete x | removeEpsilon x | reverse x | complement x => some x
  | withAlphabet _ | expression _ | determinize _ | minimize _ | kleeneStar _ => none
  | union _ _ | concatenate _ _ | intersect _ _ | difference _ _ => none

variable {store : Store} {d : Derivation} {A : Automaton}

theorem names_eq {x : String} (hx : d.namesFrom? = some x) (h : d.derive store = .ok A) :
    A.names = (store x).names := by
  cases d with
  | copy y | removeEpsilon y | reverse y =>
    cases hx
    cases h
    rfl
  | complete y =>
    cases hx
    obtain rfl := of_complete h
    exact names_completion _
  | complement y =>
    cases hx
    obtain rfl := of_complement h
    rfl
  | withAlphabet | expression | determinize | minimize | kleeneStar | union | concatenate | intersect | difference =>
    cases hx

/-- Where names are made anew, no state is named two times. -/
theorem keeps (hstore : ∀ x, (store x).WellFormed) (hd : d.namesFrom? = none) (h : d.derive store = .ok A)
    (name : String) : A.names.Keeps name := by
  cases d with
  | withAlphabet alphabet =>
    cases h
    exact keeps_empty name
  | expression e =>
    obtain rfl := Expression.of_toAutomaton h
    have hnames : e.thompson.names = ∅ := e.names_assemble ∅
    exact hnames ▸ keeps_empty name
  | determinize x =>
    cases h
    exact keeps_ofList _ name
  | minimize x =>
    obtain ⟨T, _, _, rfl⟩ := exists_table_of_minimize h
    exact keeps_ofList _ name
  | kleeneStar x =>
    obtain rfl := of_kleeneStar h
    exact keeps_embed_empty (store x) name
  | union x y =>
    obtain rfl := of_union h
    exact (hstore x).keeps_sideBySide (store y) name
  | concatenate x y =>
    obtain rfl := of_concatenate h
    exact (hstore x).keeps_sideBySide (store y) name
  | intersect x y =>
    obtain rfl := of_intersect h
    exact keeps_ofList _ name
  | difference x y =>
    obtain rfl := of_difference h
    exact keeps_ofList _ name
  | copy | complete | removeEpsilon | reverse | complement => cases hd

end Derivation

namespace Store

variable {operations : List Operation} {name : String}

theorem after_append (operations : List Operation) (operation : Operation) :
    Store.after (operations ++ [operation]) = operation.step (Store.after operations) :=
  List.foldl_append

theorem set_self (store : Store) (x : String) (A : Automaton) : store.set x A x = A := if_pos rfl

theorem set_of_ne (store : Store) {x y : String} (A : Automaton) (h : y ≠ x) : store.set x A y = store y := if_neg h

/-- The session has renamed the owner of `name` in `x`: a call gave it another name while it carried `name`, in `x`
itself or in a variable whose names `x` took over after that. -/
inductive OwnerRenamed (name : String) : List Operation → String → Prop
  | renamed {operations : List Operation} {x : String} {q : State} {other : String}
      (howner : (Store.after operations x).findState? name = some q)
      (hcarries : (Store.after operations x).names.name? q = some name) (hother : other ≠ name) :
      OwnerRenamed name (operations ++ [.change x (.setStateName q other)]) x
  | kept {operations : List Operation} {operation : Operation} {x : String} (h : OwnerRenamed name operations x)
      (hkept : ∀ d A, operation = .assign x d → d.derive (Store.after operations) ≠ .ok A) :
      OwnerRenamed name (operations ++ [operation]) x
  | copied {operations : List Operation} {x y : String} {d : Derivation} {A : Automaton}
      (h : OwnerRenamed name operations y) (hd : d.namesFrom? = some y)
      (hA : d.derive (Store.after operations) = .ok A) : OwnerRenamed name (operations ++ [.assign x d]) x

section Step

def Kept (operations : List Operation) (name x : String) : Prop :=
  (Store.after operations x).names.Keeps name ∨ OwnerRenamed name operations x

theorem OwnerRenamed.change {x : String} (h : OwnerRenamed name operations x) (y : String) (call : Call) :
    OwnerRenamed name (operations ++ [.change y call]) x := by
  refine .kept h fun d A he => ?_
  cases he

variable (h : ∀ x, Kept operations name x)

include h

private theorem kept_change (y : String) (call : Call) (x : String) : Kept (operations ++ [.change y call]) name x := by
  rw [Kept, after_append, Operation.step]
  by_cases hxy : x = y
  · subst hxy
    rw [set_self]
    rcases h x with hkeeps | hrenamed
    · rcases call.keeps (after_sound operations x).toWellFormed hkeeps with hcall | ⟨q, other, rfl, howner, hother⟩
      · exact Or.inl hcall
      · exact Or.inr (.renamed howner (hkeeps q howner) hother)
    · exact Or.inr (hrenamed.change x call)
  · rw [set_of_ne _ _ hxy]
    exact (h x).imp_right fun hrenamed => hrenamed.change y call

private theorem kept_assign (y : String) (d : Derivation) (x : String) : Kept (operations ++ [.assign y d]) name x := by
  rw [Kept, after_append]
  cases hd : d.derive (Store.after operations) with
  | error e =>
    simp only [Operation.step, hd]
    refine (h x).imp_right fun hrenamed => .kept hrenamed fun d' A he => ?_
    cases he
    simp [hd]
  | ok A =>
    simp only [Operation.step, hd]
    by_cases hxy : x = y
    · subst hxy
      rw [set_self]
      cases hfrom : d.namesFrom? with
      | none => exact Or.inl (d.keeps (fun y => (after_sound operations y).toWellFormed) hfrom hd name)
      | some z =>
        rw [Derivation.names_eq hfrom hd]
        exact (h z).imp_right fun hrenamed => .copied hrenamed hfrom hd
    · rw [set_of_ne _ _ hxy]
      refine (h x).imp_right fun hrenamed => .kept hrenamed fun d' A he => ?_
      cases he
      exact absurd rfl hxy

end Step

theorem kept (operations : List Operation) (name x : String) : Kept operations name x := by
  induction operations using List.reverseRecOn generalizing x with
  | nil => exact Or.inl (keeps_empty name)
  | append_singleton operations operation ih =>
    cases operation with
    | change y call => exact kept_change ih y call x
    | assign y d => exact kept_assign ih y d x

/-- A name that some state carries leads to its owner, and the owner is handed out for it. The owner carries the name
too, unless it has been renamed as the owner. -/
theorem findState?_carries_or_renamed {operations : List Operation} {x name : String} {q : State}
    (h : (Store.after operations x).names.name? q = some name) :
    ∃ p, (Store.after operations x).findState? name = some p ∧
      (Store.after operations x).state name = ⟨Store.after operations x, .ok p⟩ ∧
      ((Store.after operations x).names.name? p = some name ∨ OwnerRenamed name operations x) := by
  obtain ⟨p, hp⟩ := exists_owner? h
  have hstate : (Store.after operations x).state name = ⟨Store.after operations x, .ok p⟩ := by
    rw [Automaton.state, hp]
  exact ⟨p, hp, hstate, (kept operations name x).imp_left fun hkeeps => hkeeps p hp⟩

def sharing : List Operation := [.change "X" (.setStateName 0 "a"), .change "X" (.setStateName 1 "a")]

private theorem names_sharing : (Store.after sharing "X").names = ((∅ : StateNames).set 0 "a").set 1 "a" := rfl

theorem findState?_carries_or_renamed_sharing : (Store.after sharing "X").names.name? 1 = some "a" ∧
    ∃ p, (Store.after sharing "X").findState? "a" = some p ∧
      (Store.after sharing "X").state "a" = ⟨Store.after sharing "X", .ok p⟩ ∧
      ((Store.after sharing "X").names.name? p = some "a" ∨ OwnerRenamed "a" sharing "X") := by
  have h : (Store.after sharing "X").names.name? 1 = some "a" := by simp [names_sharing, name?_set]
  exact ⟨h, findState?_carries_or_renamed h⟩

def abandoning : List Operation := sharing ++ [.change "X" (.setStateName 0 "b")]

/-- The first of the two still owns the name that only the second one carries. -/
theorem findState?_carries_false : ¬ ∀ (operations : List Operation) (x name : String) (q : State),
    (Store.after operations x).names.name? q = some name →
      ∃ p, (Store.after operations x).findState? name = some p ∧
        (Store.after operations x).names.name? p = some name := by
  intro h
  have hnames : (Store.after abandoning "X").names = (((∅ : StateNames).set 0 "a").set 1 "a").set 0 "b" := rfl
  obtain ⟨p, hp, hcarries⟩ := h abandoning "X" "a" 1 (by simp [hnames, name?_set])
  have howner : (Store.after abandoning "X").findState? "a" = some 0 := rfl
  obtain rfl := Option.some.inj (howner.symm.trans hp)
  simp [hnames, name?_set] at hcarries

end Store

end RegularLanguages
