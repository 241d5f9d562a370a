import RegularLanguages.Proofs.Listing
import RegularLanguages.Proofs.Members
import RegularLanguages.Transitions.Session

/-!
After any calls a transition relation is the set of the transitions that were added and not removed since. Its list has
the keys in the order in which they last came to have a target.
-/
namespace RegularLanguages

def TransitionCall.revise (R : Finset Transition) : TransitionCall → Finset Transition
  | add t => insert t R
  | remove t => R.erase t

namespace Transitions

variable {T : Transitions} {R : Finset Transition} {calls : List TransitionCall} {call : TransitionCall}
  {key : TransitionKey} {i j : Nat}

def reference (calls : List TransitionCall) : Finset Transition := calls.foldl TransitionCall.revise ∅

def destinations (R : Finset Transition) (key : TransitionKey) : Finset State :=
  (R.filter (·.key = key)).image (·.target)

/-- The relation answers as the set does, and shows what there is to see of it, the order apart. -/
structure Agrees (T : Transitions) (R : Finset Transition) : Prop where
  add_answer : ∀ t, (T.perform (.add t)).2 ↔ t ∉ R
  remove_answer : ∀ t, (T.perform (.remove t)).2 ↔ t ∈ R
  contains_iff : ∀ t : Transition, T.contains t.source t.label t.target ↔ t ∈ R
  members_targets : ∀ q l, (T.targets q l).members = destinations R (q, l)
  members_get? : ∀ q l S, T.get? q l = some S → S.members = destinations R (q, l)
  get?_eq_none_iff : ∀ q l, T.get? q l = none ↔ destinations R (q, l) = ∅
  size_eq : T.size = R.card
  isEmpty_iff : T.isEmpty ↔ R = ∅
  hasEpsilon_iff : T.hasEpsilon ↔ ∃ t ∈ R, t.label = .epsilon
  isDeterministic_iff : T.isDeterministic ↔
    (∀ t ∈ R, t.label ≠ .epsilon) ∧ ∀ t ∈ R, ∀ u ∈ R, t.key = u.key → t = u
  mem_toList_iff : ∀ t, t ∈ T.toList ↔ t ∈ R
  nodup_toList : T.toList.Nodup

/-- The `i`th call gives a target to a key that has none before. -/
structure Opens (calls : List TransitionCall) (i : Nat) (key : TransitionKey) : Prop where
  before : destinations (reference (calls.take i)) key = ∅
  since : destinations (reference (calls.take (i + 1))) key ≠ ∅

/-- No call after the `i`th one opens the key again. -/
structure LastOpened (calls : List TransitionCall) (i : Nat) (key : TransitionKey) : Prop where
  opens : Opens calls i key
  last : ∀ j, Opens calls j key → j ≤ i

/-- Of two transitions with different keys the one whose key was last opened earlier comes first, and of two with one key the
one with the smaller target. -/
def Precedes (calls : List TransitionCall) (t u : Transition) : Prop :=
  (t.key = u.key ∧ t.target < u.target) ∨ ∃ i j, i < j ∧ LastOpened calls i t.key ∧ LastOpened calls j u.key

theorem mem_destinations {r : State} : r ∈ destinations R key ↔ ⟨key.1, key.2, r⟩ ∈ R := by
  simp only [destinations, Finset.mem_image, Finset.mem_filter]
  constructor
  · rintro ⟨t, ⟨ht, rfl⟩, rfl⟩
    exact ht
  · intro h
    exact ⟨_, ⟨h, rfl⟩, rfl⟩

theorem destinations_ne_empty : destinations R key ≠ ∅ ↔ ∃ t ∈ R, t.key = key := by
  rw [← Finset.nonempty_iff_ne_empty, destinations, Finset.image_nonempty, Finset.filter_nonempty_iff]

/-! ### The relation and the set -/

private theorem perform_add_snd (T : Transitions) (t : Transition) :
    (T.perform (.add t)).2 = !T.contains t.source t.label t.target := rfl

theorem perform_remove_fst (T : Transitions) (t : Transition) :
    (T.perform (.remove t)).1 = T.remove t.source t.label t.target := by
  rw [perform]
  split
  · rename_i h
    rw [remove]
    split
    · rfl
    · rename_i S hS
      cases h.symm.trans hS
  · rfl

private theorem perform_remove_snd (T : Transitions) (t : Transition) :
    (T.perform (.remove t)).2 = T.contains t.source t.label t.target := by
  rw [perform, contains, targets]
  cases T.get? t.source t.label with
  | none => exact (StateSet.contains_empty _).symm
  | some S => rfl

/-- A call changes the relation as it changes the set. -/
theorem contains_perform {t : Transition}
    (h : ∀ t : Transition, T.contains t.source t.label t.target ↔ t ∈ R) :
    (T.perform call).1.contains t.source t.label t.target ↔ t ∈ call.revise R := by
  cases call with
  | add s =>
    rw [TransitionCall.revise, Finset.mem_insert, ← h, or_comm]
    refine contains_add.trans (or_congr_right ?_)
    cases s; cases t; simp
  | remove s =>
    rw [TransitionCall.revise, Finset.mem_erase, ← h, and_comm, perform_remove_fst]
    refine contains_remove.trans (and_congr_right' (not_congr ?_))
    cases s; cases t; simp

theorem contains_after (calls : List TransitionCall) (t : Transition) :
    (after calls).contains t.source t.label t.target ↔ t ∈ reference calls := by
  induction calls using List.reverseRecOn generalizing t with
  | nil => simp [after, reference]
  | append_singleton calls call ih =>
    rw [after, reference, List.foldl_concat, List.foldl_concat]
    exact contains_perform ih

section agreement

variable (h : ∀ t : Transition, T.contains t.source t.label t.target ↔ t ∈ R)

include h

theorem mem_keys_iff_destinations : key ∈ T.keys ↔ destinations R key ≠ ∅ := by
  rw [← Finset.nonempty_iff_ne_empty]
  refine mem_keys_iff.trans (exists_congr fun r => ?_)
  rw [mem_destinations]
  exact h ⟨key.1, key.2, r⟩

theorem members_targets_eq (q : State) (l : Label SymbolId) : (T.targets q l).members = destinations R (q, l) := by
  ext r
  rw [StateSet.mem_members, mem_destinations]
  exact h ⟨q, l, r⟩

private theorem get?_eq_none_iff_destinations (q : State) (l : Label SymbolId) :
    T.get? q l = none ↔ destinations R (q, l) = ∅ := by
  rw [← not_iff_not, ← ne_eq, ← ne_eq, ← mem_keys_iff_destinations h, mem_keys_iff, ← isSome_get?_iff,
    Option.isSome_iff_ne_none]

private theorem toFinset_toList : T.toList.toFinset = R :=
  Finset.ext fun t => List.mem_toFinset.trans (mem_toList.trans (h t))

private theorem isEmpty_iff_eq_empty : T.isEmpty ↔ R = ∅ := by
  rw [isEmpty, List.isEmpty_iff, List.eq_nil_iff_forall_not_mem, Finset.eq_empty_iff_forall_notMem]
  constructor
  · intro hkeys t ht
    exact hkeys t.key ((mem_keys_iff_destinations h).2 (destinations_ne_empty.2 ⟨t, ht, rfl⟩))
  · intro hR key hkey
    obtain ⟨t, ht, _⟩ := destinations_ne_empty.1 ((mem_keys_iff_destinations h).1 hkey)
    exact hR t ht

private theorem hasEpsilon_iff_exists_mem : T.hasEpsilon ↔ ∃ t ∈ R, t.label = .epsilon := by
  rw [hasEpsilon_iff]
  constructor
  · rintro ⟨q, r, hr⟩
    exact ⟨⟨q, .epsilon, r⟩, (h ⟨q, .epsilon, r⟩).1 hr, rfl⟩
  · rintro ⟨⟨q, _, r⟩, ht, rfl⟩
    exact ⟨q, r, (h ⟨q, .epsilon, r⟩).2 ht⟩

private theorem isDeterministic_iff_forall_mem : T.isDeterministic ↔
    (∀ t ∈ R, t.label ≠ .epsilon) ∧ ∀ t ∈ R, ∀ u ∈ R, t.key = u.key → t = u := by
  rw [isDeterministic_iff]
  constructor
  · intro hT
    refine ⟨fun t ht => (hT _ _ _ ((h t).2 ht)).1, ?_⟩
    rintro ⟨q, l, r⟩ ht ⟨_, _, s⟩ hu ⟨⟩
    rw [(hT q l r ((h ⟨q, l, r⟩).2 ht)).2 s ((h ⟨q, l, s⟩).2 hu)]
  · rintro ⟨hlabel, hone⟩ q l r hr
    have hmem := (h ⟨q, l, r⟩).1 hr
    refine ⟨hlabel _ hmem, fun s hs => ?_⟩
    exact congrArg (·.target) (hone _ hmem _ ((h ⟨q, l, s⟩).1 hs) rfl)

private theorem agrees_of_contains_iff : T.Agrees R where
  add_answer t := by
    rw [perform_add_snd, ← h, Bool.not_eq_true', Bool.not_eq_true]
  remove_answer t := by rw [perform_remove_snd, h]
  contains_iff := h
  members_targets := members_targets_eq h
  members_get? q l S hS := by rw [← members_targets_eq h, targets, hS, Option.getD_some]
  get?_eq_none_iff := get?_eq_none_iff_destinations h
  size_eq := by
    rw [size_eq_length_toList, ← toFinset_toList h, List.toFinset_card_of_nodup T.nodup_toList]
  isEmpty_iff := isEmpty_iff_eq_empty h
  hasEpsilon_iff := hasEpsilon_iff_exists_mem h
  isDeterministic_iff := isDeterministic_iff_forall_mem h
  mem_toList_iff t := mem_toList.trans (h t)
  nodup_toList := T.nodup_toList

end agreement

/-! ### The order of the list -/

theorem Opens.lt_length (h : Opens calls i key) : i < calls.length := by
  by_contra hi
  have htake : calls.take (i + 1) = calls.take i := by
    rw [List.take_of_length_le (by omega), List.take_of_length_le (by omega)]
  exact h.since (htake ▸ h.before)

/-- What happened to a key in the earlier calls is not changed by one more. -/
theorem opens_concat_of_lt (h : i < calls.length) : Opens (calls ++ [call]) i key ↔ Opens calls i key := by
  have htake : (calls ++ [call]).take i = calls.take i := List.take_append_of_le_length (Nat.le_of_lt h)
  have htake' : (calls ++ [call]).take (i + 1) = calls.take (i + 1) := List.take_append_of_le_length h
  constructor
  · intro ho
    exact ⟨htake ▸ ho.before, htake' ▸ ho.since⟩
  · intro ho
    exact ⟨htake.symm ▸ ho.before, htake'.symm ▸ ho.since⟩

theorem opens_concat_length : Opens (calls ++ [call]) calls.length key ↔
    destinations (reference calls) key = ∅ ∧ destinations (reference (calls ++ [call])) key ≠ ∅ := by
  have htake : (calls ++ [call]).take calls.length = calls := List.take_left
  have htake' : (calls ++ [call]).take (calls.length + 1) = calls ++ [call] :=
    List.take_of_length_le (by rw [List.length_append, List.length_singleton])
  constructor
  · intro ho
    exact ⟨htake ▸ ho.before, htake' ▸ ho.since⟩
  · rintro ⟨hbefore, hsince⟩
    exact ⟨htake.symm ▸ hbefore, htake'.symm ▸ hsince⟩

theorem Opens.le_length (h : Opens (calls ++ [call]) i key) : i ≤ calls.length := by
  have hlt := h.lt_length
  rw [List.length_append, List.length_singleton] at hlt
  exact Nat.le_of_lt_succ hlt

/-- A key with a target has been opened, and one more call does not open it again. -/
theorem LastOpened.concat (h : LastOpened calls i key) (hkey : destinations (reference calls) key ≠ ∅) :
    LastOpened (calls ++ [call]) i key := by
  refine ⟨(opens_concat_of_lt h.opens.lt_length).2 h.opens, fun j hj => ?_⟩
  rcases Nat.lt_or_eq_of_le hj.le_length with hlt | rfl
  · exact h.last j ((opens_concat_of_lt hlt).1 hj)
  · exact absurd (opens_concat_length.1 hj).1 hkey

private theorem lastOpened_length (hbefore : destinations (reference calls) key = ∅)
    (hsince : destinations (reference (calls ++ [call])) key ≠ ∅) :
    LastOpened (calls ++ [call]) calls.length key :=
  ⟨opens_concat_length.2 ⟨hbefore, hsince⟩, fun _ hj => hj.le_length⟩

/-- A call keeps the order of the keys. A new key goes in front, where the latest one is. -/
theorem keys_perform (T : Transitions) (call : TransitionCall) :
    (T.perform call).1.keys.Sublist T.keys ∨
      ∃ key, key ∉ T.keys ∧ (T.perform call).1.keys = key :: T.keys := by
  cases call with
  | add t =>
    rcases Decidable.em (t.key ∈ T.table) with hkey | hkey
    · have hkeys : (T.perform (.add t)).1.keys = T.keys := if_pos hkey
      exact .inl (hkeys ▸ List.Sublist.refl _)
    · exact .inr ⟨t.key, mt (T.mem_keys _).1 hkey, if_neg hkey⟩
  | remove t =>
    refine .inl ?_
    rw [perform_remove_fst, remove]
    split
    · exact List.Sublist.refl _
    · rename_i S hS
      split
      · exact List.erase_sublist
      · have hkey : t.key ∈ T.table := Std.ExtTreeMap.mem_iff_isSome_getElem?.2 (Option.isSome_of_mem hS)
        have hkeys : ∀ h₁ h₂ h₃, (T.put t.key (S.erase t.target) T.width h₁ h₂ h₃).keys = T.keys :=
          fun _ _ _ => if_pos hkey
        exact hkeys _ _ _ ▸ List.Sublist.refl _

/-- When the keys of a relation were last opened. They are listed from the latest to the first. -/
structure Times (calls : List TransitionCall) (keys : List TransitionKey) (time : TransitionKey → Nat) : Prop where
  lastOpened : ∀ key ∈ keys, LastOpened calls (time key) key
  pairwise : keys.Pairwise fun k l => time l < time k

theorem exists_times (calls : List TransitionCall) : ∃ time, Times calls (after calls).keys time := by
  induction calls using List.reverseRecOn with
  | nil => exact ⟨fun _ => 0, nofun, List.Pairwise.nil⟩
  | append_singleton calls call ih =>
    obtain ⟨time, hlast, hpairwise⟩ := ih
    have hafter : after (calls ++ [call]) = ((after calls).perform call).1 := List.foldl_concat ..
    have hold : ∀ k ∈ (after calls).keys, LastOpened (calls ++ [call]) (time k) k := fun k hk =>
      (hlast k hk).concat ((mem_keys_iff_destinations (contains_after calls)).1 hk)
    rw [hafter]
    rcases keys_perform (after calls) call with hkeys | ⟨key, hnew, hkeys⟩
    · exact ⟨time, fun k hk => hold k (hkeys.subset hk), hpairwise.sublist hkeys⟩
    · have hne : ∀ k ∈ (after calls).keys, k ≠ key := fun k hk he => hnew (he ▸ hk)
      have hopened : LastOpened (calls ++ [call]) calls.length key := by
        refine lastOpened_length (not_ne_iff.1 (mt (mem_keys_iff_destinations (contains_after calls)).2 hnew)) ?_
        rw [← mem_keys_iff_destinations (contains_after _), hafter, hkeys]
        exact List.mem_cons_self
      refine ⟨Function.update time key calls.length, ?_, ?_⟩
      · rw [hkeys]
        refine List.forall_mem_cons.2 ⟨?_, fun k hk => ?_⟩
        · rwa [Function.update_self]
        · rw [Function.update_of_ne (hne k hk)]
          exact hold k hk
      · rw [hkeys]
        refine List.pairwise_cons.2 ⟨fun k hk => ?_, hpairwise.imp_of_mem fun {k l} hk hl hlt => ?_⟩
        · rw [Function.update_self, Function.update_of_ne (hne k hk)]
          exact (hlast k hk).opens.lt_length
        · rwa [Function.update_of_ne (hne k hk), Function.update_of_ne (hne l hl)]

/-- Transitions are listed in the order in which their keys were last opened. -/
theorem pairwise_toList (calls : List TransitionCall) : (after calls).toList.Pairwise (Precedes calls) := by
  obtain ⟨time, hlast, hpairwise⟩ := exists_times calls
  have hentries : (after calls).entries.Pairwise fun e f => time e.1 < time f.1 := by
    have hkeys := List.pairwise_reverse.2 hpairwise
    rwa [← map_fst_entries, List.pairwise_map] at hkeys
  have hkey : ∀ e ∈ (after calls).entries, LastOpened calls (time e.1) e.1 := fun e he =>
    hlast e.1 (List.mem_reverse.1 (map_fst_entries _ ▸ List.mem_map.2 ⟨e, he, rfl⟩))
  refine List.pairwise_flatMap.2 ⟨fun e _ => ?_, hentries.imp_of_mem fun {e f} he hf hlt t ht u hu => ?_⟩
  · exact List.pairwise_map.2 (e.2.pairwise_toList.imp fun hlt => .inl ⟨rfl, hlt⟩)
  · have ht : t.key = e.1 := key_of_mem_steps ht
    have hu : u.key = f.1 := key_of_mem_steps hu
    exact .inr ⟨time e.1, time f.1, hlt, ht ▸ hkey e he, hu ▸ hkey f hf⟩

/-- After any calls the relation agrees with the set of transitions that they leave. Its list has the keys in the order in
which they were last opened, and the targets of a key in ascending order. -/
theorem after_agrees (calls : List TransitionCall) :
    (after calls).Agrees (reference calls) ∧ (after calls).toList.Pairwise (Precedes calls) :=
  ⟨agrees_of_contains_iff (contains_after calls), pairwise_toList calls⟩

/-- A key that loses its only target and gets another one comes last. -/
example :
    (after [.add ⟨0, .symbol 0, 1⟩, .add ⟨0, .epsilon, 2⟩, .add ⟨0, .epsilon, 1⟩, .remove ⟨0, .symbol 0, 1⟩,
      .add ⟨0, .symbol 0, 3⟩]).toList = [⟨0, .epsilon, 1⟩, ⟨0, .epsilon, 2⟩, ⟨0, .symbol 0, 3⟩] := by decide

end Transitions

end RegularLanguages
