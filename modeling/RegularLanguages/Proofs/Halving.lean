import RegularLanguages.Proofs.Members
import RegularLanguages.Proofs.Splitting

/-!
The parts of a partition, and what a split does to them: it keeps the larger half of a part in place, so every split makes one
more part, and none of them is empty.
-/
namespace RegularLanguages.Refinement

variable {R R₀ : Refinement} {S : StateSet} {s : Split} {i : Nat}

namespace Valid

variable {n p q r : Nat} {P : StateSet}

theorem isEmpty_of_mem (hR : R.Valid n) (hP : P ∈ R.parts.toList) : P.isEmpty = false := by
  obtain ⟨i, hi, rfl⟩ := mem_parts_iff.1 hP
  obtain ⟨r, hr, he⟩ := hR.inhabited i hi
  exact StateSet.isEmpty_eq_false_iff.2 ⟨r, (hR.contains_partAt i hi r).2 ⟨hr, he⟩⟩

theorem pairwise_disjoint (hR : R.Valid n) : R.parts.toList.Pairwise fun P Q => Disjoint P.members Q.members := by
  refine List.pairwise_iff_getElem.2 fun i j hi hj hlt => ?_
  rw [← getElem_toList_parts hi, ← getElem_toList_parts hj]
  refine Finset.disjoint_left.2 fun r hri hrj => Nat.ne_of_lt hlt ?_
  rw [StateSet.mem_members, hR.contains_partAt _ hi] at hri
  rw [StateSet.mem_members, hR.contains_partAt _ hj] at hrj
  exact hri.2.symm.trans hrj.2

theorem exists_part_iff (hR : R.Valid n) : (∃ P ∈ R.parts.toList, P.contains r) ↔ r < n := by
  constructor
  · rintro ⟨P, hP, hr⟩
    obtain ⟨i, hi, rfl⟩ := mem_parts_iff.1 hP
    exact ((hR.contains_partAt i hi r).1 hr).1
  · intro hr
    exact ⟨_, mem_parts_iff.2 ⟨_, hR.partOf_lt r hr, rfl⟩, hR.contains_partOf hr⟩

theorem exists_part_both_iff (hR : R.Valid n) (hp : p < n) (hq : q < n) :
    (∃ P ∈ R.parts.toList, P.contains p ∧ P.contains q) ↔ R.partOf p = R.partOf q := by
  constructor
  · rintro ⟨P, hP, hpP, hqP⟩
    obtain ⟨i, hi, rfl⟩ := mem_parts_iff.1 hP
    exact ((hR.contains_partAt i hi p).1 hpP).2.trans ((hR.contains_partAt i hi q).1 hqP).2.symm
  · intro he
    exact ⟨_, mem_parts_iff.2 ⟨_, hR.partOf_lt p hp, rfl⟩, hR.contains_partOf hp, he ▸ hR.contains_partOf hq⟩

end Valid

/-- What a split does to a part: the larger half stays in its place, and the other one becomes the last part. -/
structure KeepsLarger (R : Refinement) (s : Split) : Prop where
  part_lt : s.part < R.parts.size
  union_eq : s.kept ∪ s.added = R.partAt s.part
  disjoint : Disjoint s.kept.members s.added.members
  one_le_added : 1 ≤ s.added.card
  added_le_kept : s.added.card ≤ s.kept.card
  card_add : s.kept.card + s.added.card = (R.partAt s.part).card
  partAt_part : (R.apply s).partAt s.part = s.kept
  partAt_last : (R.apply s).partAt R.parts.size = s.added

/-- One split after another leads to a partition, and each keeps the larger half. -/
inductive History (R₀ : Refinement) : List Split → Refinement → Prop
  | start : History R₀ [] R₀
  | split {splits : List Split} {R : Refinement} {s : Split} (before : History R₀ splits R) (step : KeepsLarger R s) :
      History R₀ (splits ++ [s]) (R.apply s)

private theorem lt_size_of_contains {r : Nat} (h : (R.partAt i).contains r) : i < R.parts.size := by
  by_contra hi
  rw [partAt, Array.getElem?_eq_none (Nat.not_lt.1 hi)] at h
  exact absurd h (by simp)

theorem keepsLarger_of_halves {kept added : StateSet} (hunion : kept ∪ added = R.partAt i)
    (hdisjoint : Disjoint kept.members added.members) (hadded : added.isEmpty = false)
    (hle : added.card ≤ kept.card) : KeepsLarger R ⟨i, kept, added⟩ := by
  obtain ⟨r, hr⟩ := StateSet.isEmpty_eq_false_iff.1 hadded
  have hi : i < R.parts.size := by
    refine lt_size_of_contains (r := r) ?_
    rw [← hunion, StateSet.contains_union, hr, Bool.or_true]
  have hpos : 0 < added.card := by
    rw [← StateSet.card_members]
    exact Finset.card_pos.2 ⟨r, StateSet.mem_members.2 hr⟩
  refine ⟨hi, hunion, hdisjoint, hpos, hle, ?_, ?_, ?_⟩
  · rw [← hunion]
    simp only [← StateSet.card_members, StateSet.members_union]
    exact (Finset.card_union_of_disjoint hdisjoint).symm
  · rw [partAt_apply hi, if_neg (Nat.ne_of_lt hi), if_pos rfl]
  · rw [partAt_apply hi, if_pos rfl]

/-- What lies inside of a set and what lies outside are the halves of a part, in either order. -/
theorem keepsLarger_of_cut? (h : R.cut? S i = some s) : KeepsLarger R s := by
  rw [cut?_eq] at h
  split at h
  · cases h
  · rename_i hne
    simp only [Bool.or_eq_true, not_or, Bool.not_eq_true] at hne
    have hunion : (R.partAt i \ S) ∪ (R.partAt i ∩ S) = R.partAt i :=
      StateSet.members_inj.1 (by simp [Finset.sdiff_union_inter])
    have hdisjoint : Disjoint (R.partAt i \ S).members (R.partAt i ∩ S).members := by
      simpa using Finset.disjoint_sdiff_inter _ _
    split at h
    · rename_i hle
      cases h
      exact keepsLarger_of_halves hunion hdisjoint hne.1 hle
    · rename_i hgt
      cases h
      refine keepsLarger_of_halves (StateSet.members_inj.1 ?_) hdisjoint.symm hne.2 (Nat.le_of_not_le hgt)
      rw [StateSet.members_union, Finset.union_comm, ← StateSet.members_union, hunion]

theorem History.size_parts {splits : List Split} (h : History R₀ splits R) :
    R.parts.size = R₀.parts.size + splits.length := by
  induction h with
  | start => rfl
  | split _ _ ih => rw [size_parts_apply, ih, List.length_append, List.length_singleton, Nat.add_assoc]

/-- The splits that a partition remembers are those that led to it. -/
def Remembers (R₀ R : Refinement) : Prop := R₀.History R.splits.toList R

theorem Remembers.apply (h : R₀.Remembers R) (hs : KeepsLarger R s) : R₀.Remembers (R.apply s) := by
  have hsplits : (R.apply s).splits.toList = R.splits.toList ++ [s] := Array.toList_push
  rw [Remembers, hsplits]
  exact h.split hs

end RegularLanguages.Refinement
