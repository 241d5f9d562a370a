import Mathlib.Data.Finset.Sort
import RegularLanguages.StateSet.Membership

/-!
Sets of states as finite sets of numbers: what each operation does to the members, how many there are, and their list.
-/
namespace RegularLanguages

/-- A list in ascending order is the sorted list of what it holds. -/
theorem eq_sort_of_pairwise {l : List State} {M : Finset State} (hl : l.Pairwise (· < ·)) (h : ∀ q, q ∈ l ↔ q ∈ M) :
    l = M.sort := by
  have hnodup : l.Nodup := hl.imp fun hlt => Nat.ne_of_lt hlt
  have hM : l.toFinset = M := Finset.ext fun q => List.mem_toFinset.trans (h q)
  rw [← hM]
  exact ((List.toFinset_sort (· ≤ ·) hnodup).2 (hl.imp fun hlt => Nat.le_of_lt hlt)).symm

namespace StateSet

def members (S : StateSet) : Finset State := S.toList.toFinset

variable {S T : StateSet}

@[simp] theorem mem_members {q : State} : q ∈ S.members ↔ S.contains q := by
  rw [members, List.mem_toFinset, mem_toList]

theorem members_inj : S.members = T.members ↔ S = T := by
  refine ⟨fun h => eq_of_contains_iff fun q => ?_, congrArg members⟩
  rw [← mem_members, ← mem_members, h]

@[simp] theorem members_empty : (∅ : StateSet).members = ∅ := Finset.ext fun q => by simp

@[simp] theorem members_singleton (q : State) : (singleton q).members = {q} :=
  Finset.ext fun p => by simp [eq_comm]

@[simp] theorem members_insert (S : StateSet) (q : State) : (S.insert q).members = Insert.insert q S.members := by
  refine Finset.ext fun p => ?_
  rw [Finset.mem_insert, mem_members, mem_members, contains_insert_iff, or_comm, eq_comm]

@[simp] theorem members_erase (S : StateSet) (q : State) : (S.erase q).members = S.members.erase q := by
  refine Finset.ext fun p => ?_
  rw [Finset.mem_erase, mem_members, mem_members, contains_erase, Bool.and_eq_true, and_comm, Bool.not_eq_true',
    decide_eq_false_iff_not, ne_comm]

@[simp] theorem members_ofList (states : List State) : (ofList states).members = states.toFinset :=
  Finset.ext fun q => by simp

@[simp] theorem members_union (S T : StateSet) : (S ∪ T).members = S.members ∪ T.members :=
  Finset.ext fun q => by simp

@[simp] theorem members_inter (S T : StateSet) : (S ∩ T).members = S.members ∩ T.members :=
  Finset.ext fun q => by simp

@[simp] theorem members_sdiff (S T : StateSet) : (S \ T).members = S.members \ T.members :=
  Finset.ext fun q => by simp

theorem card_members (S : StateSet) : S.members.card = S.card := by
  rw [members, List.toFinset_card_of_nodup S.nodup_toList, length_toList]

theorem toList_eq_sort (S : StateSet) : S.toList = S.members.sort :=
  eq_sort_of_pairwise S.pairwise_toList fun _ => mem_toList.trans mem_members.symm

theorem isEmpty_iff_members : S.isEmpty ↔ S.members = ∅ := by
  rw [isEmpty_iff, ← members_inj, members_empty]

theorem first?_iff_isLeast {q : State} : S.first? = some q ↔ IsLeast (S.members : Set State) q := by
  rw [first?_eq_some_iff, IsLeast, mem_lowerBounds]
  simp

theorem meets_iff_nonempty : S.meets T ↔ (S.members ∩ T.members).Nonempty := by
  rw [meets_iff, Finset.Nonempty]
  simp

end StateSet

end RegularLanguages
