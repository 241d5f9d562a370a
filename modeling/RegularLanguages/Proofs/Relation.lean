import RegularLanguages.StateSet.Membership
import RegularLanguages.Transitions

/-!
The transition relation as a set of transitions: what each operation does to it, which transitions its
list holds, and what it means to be deterministic.
-/
namespace RegularLanguages

/-- A set has at most one member when it counts at most one. -/
theorem StateSet.card_le_one_iff {S : StateSet} :
    S.card ≤ 1 ↔ ∀ p q, S.contains p → S.contains q → p = q := by
  rw [← length_toList]
  constructor
  · intro h p q hp hq
    rw [← mem_toList] at hp hq
    match hl : S.toList with
    | [] => simp [hl] at hp
    | [r] => simp_all
    | r :: s :: l => simp [hl] at h
  · intro h
    match hl : S.toList with
    | [] => simp
    | [r] => simp
    | r :: s :: l =>
      have hn := hl ▸ S.nodup_toList
      have he : r = s := h r s (mem_toList.1 (by simp [hl])) (mem_toList.1 (by simp [hl]))
      simp [he] at hn

theorem StateSet.card_singleton (q : State) : (singleton q).card = 1 := by
  refine Nat.le_antisymm (card_le_one_iff.2 fun p r hp hr => ?_) ?_
  · exact (contains_singleton_iff.1 hp).symm.trans (contains_singleton_iff.1 hr)
  · rw [← length_toList]
    exact List.length_pos_of_mem (mem_toList.2 (by simp : (singleton q).contains q))

@[simp] theorem StateSet.toList_singleton (q : State) : (singleton q).toList = [q] := by
  obtain ⟨r, hr⟩ := List.length_eq_one_iff.1 ((length_toList _).trans (card_singleton q))
  have hq : q ∈ (singleton q).toList := mem_toList.2 (by simp)
  rw [hr, List.mem_singleton] at hq
  rw [hr, hq]

namespace Transitions

theorem contains_iff {T : Transitions} {q r : State} {l : Label SymbolId} :
    T.contains q l r ↔ ∃ S, T.table[(q, l)]? = some S ∧ S.contains r := by
  rw [contains, targets, get?]
  cases T.table[(q, l)]? <;> simp

@[simp] theorem contains_empty (q : State) (l : Label SymbolId) (r : State) :
    (∅ : Transitions).contains q l r = false := by
  have h : (∅ : Transitions).table[(q, l)]? = none := Std.ExtTreeMap.getElem?_empty
  rw [contains, targets, get?, h]
  exact StateSet.contains_empty r

theorem lt_width {T : Transitions} {q r : State} {l : Label SymbolId} (h : T.contains q l r) :
    r < T.width := by
  obtain ⟨S, hS, hr⟩ := contains_iff.1 h
  exact T.bounded _ S hS r hr

theorem isSome_get?_iff {T : Transitions} {q : State} {l : Label SymbolId} :
    (T.get? q l).isSome ↔ ∃ r, T.contains q l r := by
  rw [Option.isSome_iff_exists]
  constructor
  · rintro ⟨S, hS⟩
    obtain ⟨r, hr⟩ := StateSet.isEmpty_eq_false_iff.1 (T.inhabited _ S hS)
    exact ⟨r, contains_iff.2 ⟨S, hS, hr⟩⟩
  · rintro ⟨r, hr⟩
    obtain ⟨S, hS, _⟩ := contains_iff.1 hr
    exact ⟨S, hS⟩

theorem mem_keys_iff {T : Transitions} {q : State} {l : Label SymbolId} :
    (q, l) ∈ T.keys ↔ ∃ r, T.contains q l r := by
  rw [T.mem_keys, Std.ExtTreeMap.mem_iff_isSome_getElem?]
  exact isSome_get?_iff

/-- A relation has an epsilon edge when some key says so, since every key has a target. -/
theorem hasEpsilon_iff {T : Transitions} : T.hasEpsilon ↔ ∃ q r, T.contains q .epsilon r := by
  rw [hasEpsilon, List.any_eq_true]
  constructor
  · rintro ⟨⟨q, l⟩, hkey, hl⟩
    cases l with
    | epsilon => exact ⟨q, mem_keys_iff.1 hkey⟩
    | symbol a => cases hl
  · rintro ⟨q, h⟩
    exact ⟨(q, .epsilon), mem_keys_iff.2 h, rfl⟩

theorem contains_put {T : Transitions} {key : TransitionKey} {S : StateSet} {width : Nat}
    {hS : S.isEmpty = false} {hT : T.width ≤ width} {hw : ∀ q, S.contains q = true → q < width} {q r : State}
    {l : Label SymbolId} :
    (T.put key S width hS hT hw).contains q l r = if key = (q, l) then S.contains r else T.contains q l r := by
  have hget : (T.put key S width hS hT hw).table[(q, l)]? =
      if TransitionKey.order key (q, l) = .eq then some S else T.table[(q, l)]? := Std.ExtTreeMap.getElem?_insert
  simp only [Std.LawfulEqCmp.compare_eq_iff_eq] at hget
  rw [contains, targets, get?, hget, contains]
  split <;> rfl

private theorem contains_drop {T : Transitions} {key : TransitionKey} {q r : State} {l : Label SymbolId} :
    (T.drop key).contains q l r = if key = (q, l) then false else T.contains q l r := by
  have hget : (T.drop key).table[(q, l)]? =
      if TransitionKey.order key (q, l) = .eq then none else T.table[(q, l)]? := Std.ExtTreeMap.getElem?_erase
  simp only [Std.LawfulEqCmp.compare_eq_iff_eq] at hget
  rw [contains, targets, get?, hget, contains]
  split
  · exact StateSet.contains_empty r
  · rfl

theorem contains_add {T : Transitions} {s t q r : State} {k l : Label SymbolId} :
    (T.add s k t).contains q l r ↔ T.contains q l r ∨ (q = s ∧ l = k ∧ r = t) := by
  rw [add, contains_put]
  split
  · rename_i h
    cases h
    rw [StateSet.contains_insert_iff, eq_comm (a := t)]
    simp [contains]
  · rename_i h
    refine ⟨Or.inl, ?_⟩
    rintro (hr | ⟨rfl, rfl, -⟩)
    · exact hr
    · exact absurd rfl h

theorem contains_remove {T : Transitions} {s t q r : State} {k l : Label SymbolId} :
    (T.remove s k t).contains q l r ↔ T.contains q l r ∧ ¬ (q = s ∧ l = k ∧ r = t) := by
  have hkey : ∀ {S}, T.table[(s, k)]? = some S → (s, k) = (q, l) → T.contains q l r = S.contains r := by
    intro S hS he
    rw [contains, targets, get?, ← he, hS]
    rfl
  have hne : (s, k) ≠ (q, l) → ¬ (q = s ∧ l = k ∧ r = t) := by
    rintro he ⟨rfl, rfl, _⟩
    exact he rfl
  unfold remove
  split
  · rename_i hnone
    refine (and_iff_left_of_imp fun h => ?_).symm
    rintro ⟨rfl, rfl, _⟩
    obtain ⟨S, hS, _⟩ := contains_iff.1 h
    exact Option.some_ne_none S (hS.symm.trans hnone)
  · rename_i S hS
    have hmember : (s, k) = (q, l) → (T.contains q l r ∧ ¬ (q = s ∧ l = k ∧ r = t) ↔ (S.erase t).contains r) := by
      intro he
      rw [hkey hS he]
      cases he
      simp [StateSet.contains_erase, @eq_comm _ t]
    split
    · rename_i hempty
      rw [contains_drop]
      split
      · rename_i he
        rw [hmember he, StateSet.isEmpty_iff.1 hempty, StateSet.contains_empty]
      · rename_i he
        exact (and_iff_left (hne he)).symm
    · rw [contains_put]
      split
      · rename_i he
        exact (hmember he).symm
      · rename_i he
        exact (and_iff_left (hne he)).symm

theorem contains_addAll {T : Transitions} {ts : List Transition} {q r : State} {l : Label SymbolId} :
    (T.addAll ts).contains q l r ↔ T.contains q l r ∨ ⟨q, l, r⟩ ∈ ts := by
  induction ts generalizing T with
  | nil => simp [addAll]
  | cons t ts ih =>
    change ((T.add t.source t.label t.target).addAll ts).contains q l r ↔ _
    rw [ih, contains_add, List.mem_cons, or_assoc]
    cases t
    simp

@[simp] theorem contains_ofList {ts : List Transition} {q r : State} {l : Label SymbolId} :
    (ofList ts).contains q l r ↔ ⟨q, l, r⟩ ∈ ts := by
  simp [ofList, contains_addAll]

theorem mem_entries {T : Transitions} {k : TransitionKey} {S : StateSet} :
    (k, S) ∈ T.entries ↔ T.table[k]? = some S := by
  simp only [entries, List.mem_filterMap, List.mem_reverse, Option.map_eq_some_iff, Prod.mk.injEq]
  constructor
  · rintro ⟨_, _, _, h, rfl, rfl⟩
    exact h
  · intro h
    refine ⟨k, ?_, S, h, rfl, rfl⟩
    rw [T.mem_keys, Std.ExtTreeMap.mem_iff_isSome_getElem?, h]
    rfl

/-- The list of a relation holds its transitions. -/
theorem mem_toList {T : Transitions} {t : Transition} :
    t ∈ T.toList ↔ T.contains t.source t.label t.target := by
  simp only [toList, List.mem_flatMap, List.mem_map, Prod.exists, mem_entries, contains_iff,
    StateSet.mem_toList]
  constructor
  · rintro ⟨q, l, S, hS, r, hr, rfl⟩
    exact ⟨S, hS, hr⟩
  · rintro ⟨S, hS, hr⟩
    exact ⟨_, _, S, hS, _, hr, rfl⟩

/-- Rows list the targets of each state by symbol. There are no epsilon edges. -/
theorem contains_ofRows {rows : List (List (Option State))} {q r : State} {l : Label SymbolId} :
    (ofRows rows).contains q l r ↔
      ∃ row a, rows[q]? = some row ∧ l = .symbol a ∧ row[a]? = some (some r) := by
  simp only [ofRows, contains_ofList, List.mem_flatMap, List.mem_filterMap, Option.map_eq_some_iff,
    Prod.exists, List.mem_zipIdx_iff_getElem?, Transition.mk.injEq]
  constructor
  · rintro ⟨row, _, hrow, _, a, ht, _, rfl, rfl, rfl, rfl⟩
    exact ⟨row, a, hrow, rfl, ht⟩
  · rintro ⟨row, a, hrow, rfl, ht⟩
    exact ⟨row, q, hrow, _, a, ht, r, rfl, rfl, rfl, rfl⟩

/-- A relation passes for deterministic exactly when it has no epsilon edge and every state has at most one
target under a symbol. -/
theorem isDeterministic_iff {T : Transitions} :
    T.isDeterministic ↔
      ∀ q l r, T.contains q l r → l ≠ .epsilon ∧ ∀ s, T.contains q l s → r = s := by
  simp only [isDeterministic, List.all_eq_true, Prod.forall, mem_entries, Bool.and_eq_true,
    Bool.not_eq_true', decide_eq_true_eq, StateSet.card_le_one_iff]
  constructor
  · intro h q l r hr
    obtain ⟨S, hS, hr⟩ := contains_iff.1 hr
    obtain ⟨hl, hS1⟩ := h q l S hS
    refine ⟨fun he => by simp [he, Label.isEpsilon] at hl, fun s hs => ?_⟩
    obtain ⟨S', hS', hs⟩ := contains_iff.1 hs
    obtain rfl : S = S' := Option.some.inj (hS.symm.trans hS')
    exact hS1 r s hr hs
  · intro h q l S hS
    obtain ⟨r, hr⟩ := StateSet.isEmpty_eq_false_iff.1 (T.inhabited _ _ hS)
    refine ⟨?_, fun p s hp hs => (h q l p (contains_iff.2 ⟨S, hS, hp⟩)).2 s (contains_iff.2 ⟨S, hS, hs⟩)⟩
    cases l with
    | epsilon => exact absurd rfl (h q _ r (contains_iff.2 ⟨S, hS, hr⟩)).1
    | symbol a => rfl

theorem ofRows_isDeterministic (rows : List (List (Option State))) : (ofRows rows).isDeterministic := by
  rw [isDeterministic_iff]
  intro q l r hr
  obtain ⟨row, a, hrow, rfl, ha⟩ := contains_ofRows.1 hr
  refine ⟨nofun, fun s hs => ?_⟩
  obtain ⟨row', a', hrow', he, ha'⟩ := contains_ofRows.1 hs
  cases he
  obtain rfl := Option.some.inj (hrow.symm.trans hrow')
  exact Option.some.inj (Option.some.inj (ha.symm.trans ha'))

end Transitions

end RegularLanguages
