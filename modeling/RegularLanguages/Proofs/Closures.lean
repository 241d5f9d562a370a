import RegularLanguages.Proofs.Embedding

/-!
Epsilon closures: the least sets that hold given states and that no epsilon edge leaves. Closing a set with a stack comes
to an end, however often a state is put on the stack, and the states kept at the end are the closure.
-/
namespace RegularLanguages.Automaton

def EpsilonStep (A : Automaton) (p q : State) : Prop := A.transitions.contains p .epsilon q

/-- The epsilon targets of a state that are not kept yet, the greatest first. -/
def newTargets (A : Automaton) (kept : StateSet) (q : State) : List State :=
  ((A.transitions.targets q .epsilon).toList.filter fun r => !kept.contains r).reverse

/-- Closing a set with a stack ends, and this is what is kept then. A state that is kept already is dropped from the
stack; another one is kept, and its new targets are put on the stack, the greatest on top. -/
inductive Closes (A : Automaton) : StateSet → List State → StateSet → Prop
  | finish (kept : StateSet) : Closes A kept [] kept
  | drop {kept result : StateSet} {q : State} {stack : List State} (known : kept.contains q)
    (rest : Closes A kept stack result) : Closes A kept (q :: stack) result
  | keep {kept result : StateSet} {q : State} {stack : List State} (new : kept.contains q = false)
    (rest : Closes A (kept.insert q) (A.newTargets (kept.insert q) q ++ stack) result) :
    Closes A kept (q :: stack) result

/-- Epsilon edges lead from kept states to states that are kept or on the stack. -/
def Covered (A : Automaton) (kept : StateSet) (stack : List State) : Prop :=
  ∀ p q, kept.contains p → A.EpsilonStep p q → kept.contains q ∨ q ∈ stack

variable {A : Automaton} {S T kept result : StateSet} {stack : List State} {p q : State}

theorem mem_newTargets {r : State} :
    r ∈ A.newTargets kept q ↔ A.EpsilonStep q r ∧ kept.contains r = false := by
  rw [newTargets, List.mem_reverse, List.mem_filter, StateSet.mem_toList, Bool.not_eq_true']
  rfl

namespace Covered

theorem reached (h : A.Covered kept stack) (hp : kept.contains p)
    (hpq : Relation.ReflTransGen A.EpsilonStep p q) :
    kept.contains q ∨ ∃ r ∈ stack, Relation.ReflTransGen A.EpsilonStep r q := by
  induction hpq with
  | refl => exact Or.inl hp
  | @tail r s _ hlast ih =>
    rcases ih with hr | ⟨t, ht, htr⟩
    · rcases h r s hr hlast with hs | hs
      · exact Or.inl hs
      · exact Or.inr ⟨s, hs, .refl⟩
    · exact Or.inr ⟨t, ht, htr.tail hlast⟩

theorem drop (h : A.Covered kept (q :: stack)) (hq : kept.contains q) : A.Covered kept stack := by
  intro p r hp hr
  rcases h p r hp hr with hkept | hmem
  · exact Or.inl hkept
  · rcases List.mem_cons.1 hmem with rfl | hmem
    · exact Or.inl hq
    · exact Or.inr hmem

theorem keep (h : A.Covered kept (q :: stack)) :
    A.Covered (kept.insert q) (A.newTargets (kept.insert q) q ++ stack) := by
  intro p r hp hr
  by_cases hkept : (kept.insert q).contains r
  · exact Or.inl hkept
  · refine Or.inr (List.mem_append.2 ?_)
    rw [StateSet.contains_insert_iff] at hp hkept
    obtain ⟨hnew, hne⟩ := not_or.1 hkept
    rcases hp with hp | rfl
    · rcases h p r hp hr with hold | hmem
      · exact absurd hold hnew
      · exact Or.inr ((List.mem_cons.1 hmem).resolve_left (Ne.symm hne))
    · refine Or.inl (mem_newTargets.2 ⟨hr, ?_⟩)
      simp [hnew, hne]

end Covered

/-- What is kept at the end is what was kept before and what epsilon edges lead to from the stack. -/
theorem Closes.contains_iff (h : A.Closes kept stack result) (hcovered : A.Covered kept stack) (r : State) :
    result.contains r ↔ kept.contains r ∨ ∃ p ∈ stack, Relation.ReflTransGen A.EpsilonStep p r := by
  induction h with
  | finish kept => simp
  | @drop kept result q stack hq _ ih =>
    rw [ih (hcovered.drop hq)]
    simp only [List.exists_mem_cons_iff]
    constructor
    · exact Or.imp_right Or.inr
    · rintro (hr | hr | hr)
      · exact Or.inl hr
      · exact (hcovered.drop hq).reached hq hr
      · exact Or.inr hr
  | @keep kept result q stack _ _ ih =>
    rw [ih hcovered.keep]
    have hkept : (kept.insert q).contains q := by simp
    constructor
    · rintro (hr | ⟨p, hp, hpr⟩)
      · rcases StateSet.contains_insert_iff.1 hr with hr | rfl
        · exact Or.inl hr
        · exact Or.inr ⟨q, List.mem_cons_self, .refl⟩
      · rcases List.mem_append.1 hp with hp | hp
        · exact Or.inr ⟨q, List.mem_cons_self, hpr.head (mem_newTargets.1 hp).1⟩
        · exact Or.inr ⟨p, List.mem_cons_of_mem q hp, hpr⟩
    · rintro (hr | ⟨p, hp, hpr⟩)
      · exact Or.inl (by simp [hr])
      · rcases List.mem_cons.1 hp with rfl | hp
        · exact hcovered.keep.reached hkept hpr
        · exact Or.inr ⟨p, List.mem_append_right _ hp, hpr⟩

def unkept (A : Automaton) (kept : StateSet) : Finset State :=
  (A.transitions.keys.map Prod.fst).toFinset.filter fun q => ¬ kept.contains q

private theorem card_unkept_insert_le (kept : StateSet) (q : State) :
    (A.unkept (kept.insert q)).card ≤ (A.unkept kept).card := by
  apply Finset.card_le_card
  intro r hr
  rw [unkept, Finset.mem_filter] at hr ⊢
  refine ⟨hr.1, fun hkept => hr.2 ?_⟩
  rw [StateSet.contains_insert, hkept, Bool.true_or]

private theorem card_unkept_insert_lt {r : State} (hq : kept.contains q = false) (hr : r ∈ A.newTargets (kept.insert q) q) :
    (A.unkept (kept.insert q)).card < (A.unkept kept).card := by
  -- A state that puts others on the stack is a source of transitions, and it does so only when it is kept.
  have hsource : q ∈ (A.transitions.keys.map Prod.fst).toFinset :=
    List.mem_toFinset.2 (List.mem_map.2 ⟨_, Transitions.mem_keys_iff.2 ⟨r, (mem_newTargets.1 hr).1⟩, rfl⟩)
  have hself : (StateSet.singleton q).contains q := by simp
  exact StateSet.card_unseen_lt hself hsource hq

/-- Closing ends from whatever is kept and on the stack: a state that is kept either leaves one source less, or puts
nothing on the stack. -/
theorem exists_closes (A : Automaton) (kept : StateSet) : ∀ stack, ∃ result, A.Closes kept stack result
  | [] => ⟨kept, .finish kept⟩
  | q :: stack => by
    cases hq : kept.contains q with
    | true =>
      obtain ⟨result, h⟩ := exists_closes A kept stack
      exact ⟨result, .drop hq h⟩
    | false =>
      obtain ⟨result, h⟩ := exists_closes A (kept.insert q) (A.newTargets (kept.insert q) q ++ stack)
      exact ⟨result, .keep hq h⟩
termination_by stack => ((A.unkept kept).card, stack.length)
decreasing_by
  · cases hnew : A.newTargets (kept.insert q) q with
    | nil => exact Prod.Lex.right' _ (card_unkept_insert_le _ _) (Nat.lt_succ_self _)
    | cons r rest => exact Prod.Lex.left _ _ (card_unkept_insert_lt hq (hnew ▸ List.mem_cons_self))
  · exact Prod.Lex.right _ (Nat.lt_succ_self _)

theorem contains_closure_iff :
    (A.closure S).contains q ↔ ∃ p, S.contains p ∧ Relation.ReflTransGen A.EpsilonStep p q := by
  simp only [contains_closure, path_nil_iff]
  rfl

/-- With the given states on the stack and nothing kept, the closure is the one result. -/
theorem closes_iff : A.Closes ∅ S.toList.reverse result ↔ result = A.closure S := by
  have hcovered : A.Covered ∅ S.toList.reverse := fun p q hp => by simp at hp
  have hresult : ∀ result, A.Closes ∅ S.toList.reverse result → result = A.closure S := by
    intro result h
    refine StateSet.eq_of_contains_iff fun r => ?_
    rw [h.contains_iff hcovered, contains_closure_iff]
    simp
  refine ⟨hresult result, fun h => ?_⟩
  obtain ⟨other, hother⟩ := A.exists_closes ∅ S.toList.reverse
  rw [h, ← hresult other hother]
  exact hother

theorem subset_closure (A : Automaton) (S : StateSet) : S ⊆ A.closure S :=
  fun q hq => contains_closure_iff.2 ⟨q, hq, .refl⟩

theorem closed_closure (hp : (A.closure S).contains p) (hpq : A.EpsilonStep p q) : (A.closure S).contains q := by
  obtain ⟨r, hr, hrp⟩ := contains_closure_iff.1 hp
  exact contains_closure_iff.2 ⟨r, hr, hrp.tail hpq⟩

theorem closure_subset (hST : S ⊆ T) (hT : ∀ p q, T.contains p → A.EpsilonStep p q → T.contains q) :
    A.closure S ⊆ T := by
  intro q hq
  obtain ⟨p, hp, hpq⟩ := contains_closure_iff.1 hq
  exact StateSet.Reaches.closed hT hpq (hST p hp)

theorem closure_mono (hST : S ⊆ T) : A.closure S ⊆ A.closure T :=
  closure_subset (fun q hq => A.subset_closure T q (hST q hq)) fun _ _ => closed_closure

theorem closure_closure (A : Automaton) (S : StateSet) : A.closure (A.closure S) = A.closure S := by
  refine StateSet.eq_of_contains_iff fun q => ⟨fun hq => ?_, A.subset_closure _ q⟩
  exact closure_subset (fun _ h => h) (fun _ _ => closed_closure) q hq

theorem closure_union (A : Automaton) (S T : StateSet) : A.closure (S ∪ T) = A.closure S ∪ A.closure T := by
  refine StateSet.eq_of_contains_iff fun q => ?_
  rw [StateSet.contains_union_iff, contains_closure_iff, contains_closure_iff, contains_closure_iff, ← exists_or]
  simp only [StateSet.contains_union_iff, or_and_right]

theorem move_eq_image (A : Automaton) (S : StateSet) (a : SymbolId) :
    A.move S a = S.image fun p => A.move (.singleton p) a := by
  refine StateSet.eq_of_contains_iff fun q => ?_
  rw [StateSet.contains_image, contains_move]
  simp only [contains_move, StateSet.contains_singleton_iff]
  constructor
  · rintro ⟨p, s, hp, hs, hq⟩
    exact ⟨p, hp, p, s, rfl, hs, hq⟩
  · rintro ⟨p, hp, _, s, rfl, hs, hq⟩
    exact ⟨p, s, hp, hs, hq⟩

theorem closure_move (A : Automaton) (S : StateSet) (a : SymbolId) : A.closure (A.move S a) = A.move S a :=
  A.closure_closure (A.edgesOn S a)

/-- Closing a set with a stack ends with the closure, which holds what epsilon edges lead to, whether or not the given
states are states. It is the least superset that no epsilon edge leaves. So it grows with the set, closing it again adds
nothing, and unions may be closed part by part. Moves on a symbol are closed, and they may be made state by state. -/
theorem closure_exact (A : Automaton) (S : StateSet) :
    (∀ result, A.Closes ∅ S.toList.reverse result ↔ result = A.closure S) ∧
      (∀ q, (A.closure S).contains q ↔ ∃ p, S.contains p ∧ Relation.ReflTransGen A.EpsilonStep p q) ∧
      S ⊆ A.closure S ∧
      (∀ T, S ⊆ T → (∀ p q, T.contains p → A.EpsilonStep p q → T.contains q) → A.closure S ⊆ T) ∧
      (∀ T, S ⊆ T → A.closure S ⊆ A.closure T) ∧
      A.closure (A.closure S) = A.closure S ∧
      (∀ T, A.closure (S ∪ T) = A.closure S ∪ A.closure T) ∧
      ∀ a, A.move S a = S.image (fun p => A.move (.singleton p) a) ∧ A.closure (A.move S a) = A.move S a :=
  ⟨fun _ => closes_iff, fun _ => contains_closure_iff, A.subset_closure S, fun _ => closure_subset,
    fun _ => closure_mono, A.closure_closure S, A.closure_union S,
    fun a => ⟨A.move_eq_image S a, A.closure_move S a⟩⟩

/-- In the linked circle of three states, the first two have epsilon edges to each other, and 7 is no state. -/
theorem closure_linkedCircle :
    StateSet.singleton 0 ⊆ .ofList [0, 7] ∧ StateSet.ofList [0, 7] ⊆ .ofList [0, 1, 7] ∧
    (∀ p q, (StateSet.ofList [0, 1, 7]).contains p → (linkedCircle 3).EpsilonStep p q →
      (StateSet.ofList [0, 1, 7]).contains q) ∧
    (linkedCircle 3).closure (.ofList [0, 7]) ⊆ .ofList [0, 1, 7] ∧
    (linkedCircle 3).closure (.singleton 0) ⊆ (linkedCircle 3).closure (.ofList [0, 7]) := by
  have hsmaller : StateSet.singleton 0 ⊆ .ofList [0, 7] := fun q hq => by simp_all
  have hlarger : StateSet.ofList [0, 7] ⊆ .ofList [0, 1, 7] := by
    intro q hq
    rw [StateSet.contains_ofList, decide_eq_true_eq] at hq ⊢
    exact List.mem_cons.2 ((List.mem_cons.1 hq).imp_right (List.mem_cons_of_mem 1))
  have hclosed : ∀ p q, (StateSet.ofList [0, 1, 7]).contains p → (linkedCircle 3).EpsilonStep p q →
      (StateSet.ofList [0, 1, 7]).contains q := by
    have htargets : ∀ t ∈ (linkedCircle 3).transitions.toList, t.label = .epsilon →
        (StateSet.ofList [0, 1, 7]).contains t.target := by decide +kernel
    intro p q _ hpq
    exact htargets ⟨p, .epsilon, q⟩ (Transitions.mem_toList.2 hpq) rfl
  obtain ⟨_, _, _, hleast, _⟩ := closure_exact (linkedCircle 3) (.ofList [0, 7])
  obtain ⟨_, _, _, _, hmono, _⟩ := closure_exact (linkedCircle 3) (.singleton 0)
  exact ⟨hsmaller, hlarger, hclosed, hleast _ hlarger hclosed, hmono _ hsmaller⟩

end RegularLanguages.Automaton
