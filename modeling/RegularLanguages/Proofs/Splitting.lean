import Mathlib.Data.Finset.Card
import RegularLanguages.Automaton.Table
import RegularLanguages.Proofs.Relation

/-!
Splitting a partition by a set: rows stay together exactly when they were together and the set does not
tell them apart, and what leaves a part gets a new position.
-/
namespace RegularLanguages.Refinement

def partAt (R : Refinement) (i : Nat) : StateSet := R.parts[i]?.getD ∅

/-- The parts partition the rows below `n` as the places say, and none is empty. -/
structure Valid (n : Nat) (R : Refinement) : Prop where
  size_places : R.places.size = n
  contains_partAt : ∀ i < R.parts.size, ∀ r, (R.partAt i).contains r ↔ r < n ∧ R.partOf r = i
  partOf_lt : ∀ r < n, R.partOf r < R.parts.size
  inhabited : ∀ i < R.parts.size, ∃ r < n, R.partOf r = i

variable {n : Nat} {R : Refinement}

theorem getElem_toList_parts {i : Nat} (hi : i < R.parts.toList.length) :
    R.partAt i = R.parts.toList[i] := by
  rw [partAt, Array.getElem?_eq_getElem hi]
  rfl

theorem mem_parts_iff {P : StateSet} : P ∈ R.parts.toList ↔ ∃ i < R.parts.size, R.partAt i = P := by
  rw [List.mem_iff_getElem]
  constructor
  · rintro ⟨i, hi, rfl⟩
    exact ⟨i, hi, getElem_toList_parts hi⟩
  · rintro ⟨i, hi, rfl⟩
    exact ⟨i, hi, (getElem_toList_parts hi).symm⟩

/-- The part of a row holds it. -/
theorem Valid.contains_partOf (hR : R.Valid n) {r : Nat} (hr : r < n) : (R.partAt (R.partOf r)).contains r :=
  (hR.contains_partAt _ (hR.partOf_lt r hr) r).2 ⟨hr, rfl⟩

/-- There are at most as many parts as rows. -/
theorem Valid.size_parts_le (hR : R.Valid n) : R.parts.size ≤ n := by
  have hsurj : Set.SurjOn R.partOf (Finset.range n) (Finset.range R.parts.size) := by
    intro i hi
    obtain ⟨r, hr, he⟩ := hR.inhabited i (Finset.mem_range.1 hi)
    exact ⟨r, Finset.mem_coe.2 (Finset.mem_range.2 hr), he⟩
  simpa using Finset.card_le_card_of_surjOn R.partOf hsurj

private theorem partOf_ofParts (parts : List StateSet) {r : Nat} (hr : r < n) :
    (ofParts n parts).partOf r = parts.findIdx fun P => P.contains r := by
  change (((Array.range n).map fun r => parts.findIdx fun P => P.contains r)[r]?).getD 0 = _
  simp [hr]

/-- Disjoint sets that cover the rows and are not empty make a partition. -/
theorem ofParts_valid {parts : List StateSet} (hne : ∀ P ∈ parts, ∃ r, P.contains r)
    (hlt : ∀ P ∈ parts, ∀ r, P.contains r → r < n) (hcover : ∀ r < n, ∃ P ∈ parts, P.contains r)
    (hdisjoint : parts.Pairwise fun P Q => ∀ r, P.contains r → ¬ Q.contains r) :
    (ofParts n parts).Valid n := by
  have hfirst : ∀ i (hi : i < parts.length) r, parts[i].contains r →
      parts.findIdx (fun P => P.contains r) = i := by
    intro i hi r hr
    refine (List.findIdx_eq hi).2 ⟨hr, fun j hj => ?_⟩
    exact Bool.eq_false_iff.2 fun hc => List.pairwise_iff_getElem.1 hdisjoint j i _ hi hj r hc hr
  have hpartAt : ∀ i (hi : i < parts.length), (ofParts n parts).partAt i = parts[i] := by
    intro i hi
    change ((parts.toArray)[i]?).getD ∅ = parts[i]
    simp [hi]
  have hsize : (ofParts n parts).parts.size = parts.length := List.size_toArray
  refine ⟨?_, fun i hi r => ?_, fun r hr => ?_, fun i hi => ?_⟩
  · change ((Array.range n).map fun r => parts.findIdx fun P => P.contains r).size = n
    rw [Array.size_map, Array.size_range]
  · rw [hsize] at hi
    rw [hpartAt i hi]
    constructor
    · intro hr
      have hrn := hlt _ (List.getElem_mem hi) r hr
      exact ⟨hrn, (partOf_ofParts parts hrn).trans (hfirst i hi r hr)⟩
    · rintro ⟨hrn, he⟩
      rw [partOf_ofParts parts hrn] at he
      subst he
      exact List.findIdx_getElem (p := fun P : StateSet => P.contains r)
  · obtain ⟨P, hP, hr'⟩ := hcover r hr
    rw [hsize, partOf_ofParts parts hr]
    exact List.findIdx_lt_length_of_exists ⟨P, hP, hr'⟩
  · rw [hsize] at hi
    obtain ⟨r, hr⟩ := hne _ (List.getElem_mem hi)
    have hrn := hlt _ (List.getElem_mem hi) r hr
    exact ⟨r, hrn, (partOf_ofParts parts hrn).trans (hfirst i hi r hr)⟩

/-- Rows that are in the same sets are in the same part. -/
theorem partOf_ofParts_congr {parts : List StateSet} {p q : Nat} (hp : p < n) (hq : q < n)
    (h : ∀ P ∈ parts, P.contains p = P.contains q) :
    (ofParts n parts).partOf p = (ofParts n parts).partOf q := by
  rw [partOf_ofParts parts hp, partOf_ofParts parts hq]
  induction parts with
  | nil => rfl
  | cons P parts ih =>
    rw [List.findIdx_cons, List.findIdx_cons, h P List.mem_cons_self,
      ih fun Q hQ => h Q (List.mem_cons_of_mem _ hQ)]

-- The halves of a part: one is what lies inside of `S`, the other what lies outside.
private structure Halves (R : Refinement) (S : StateSet) (s : Split) (side : Bool) : Prop where
  added_iff : ∀ r, s.added.contains r ↔ (R.partAt s.part).contains r ∧ S.contains r = side
  kept_iff : ∀ r, s.kept.contains r ↔ (R.partAt s.part).contains r ∧ S.contains r ≠ side
  exists_added : ∃ r, s.added.contains r
  exists_kept : ∃ r, s.kept.contains r

theorem cut?_eq (R : Refinement) (S : StateSet) (i : Nat) : R.cut? S i =
    if (R.partAt i ∩ S).isEmpty || (R.partAt i \ S).isEmpty then none
    else if (R.partAt i ∩ S).card ≤ (R.partAt i \ S).card then
      some ⟨i, R.partAt i \ S, R.partAt i ∩ S⟩
    else some ⟨i, R.partAt i ∩ S, R.partAt i \ S⟩ := rfl

private theorem cut?_eq_some {S : StateSet} {i : Nat} {s : Split} (h : R.cut? S i = some s) :
    s.part = i ∧ ∃ side, Halves R S s side := by
  rw [cut?_eq] at h
  split at h
  · cases h
  · rename_i hne
    simp only [Bool.or_eq_true, not_or, Bool.not_eq_true] at hne
    have hin := StateSet.isEmpty_eq_false_iff.1 hne.1
    have hout := StateSet.isEmpty_eq_false_iff.1 hne.2
    split at h
    · cases h
      exact ⟨rfl, true, fun r => by simp, fun r => by simp, hin, hout⟩
    · cases h
      exact ⟨rfl, false, fun r => by simp, fun r => by simp, hout, hin⟩

private theorem cut?_eq_none {S : StateSet} {i : Nat} (h : R.cut? S i = none) {p q : Nat}
    (hp : (R.partAt i).contains p) (hq : (R.partAt i).contains q) : S.contains p = S.contains q := by
  rw [cut?_eq] at h
  split at h
  · rename_i he
    rcases Bool.or_eq_true _ _ ▸ he with he | he
    all_goals
      have hno := congrArg StateSet.contains (StateSet.isEmpty_iff.1 he)
      have hp' := congrFun hno p
      have hq' := congrFun hno q
      simp_all
  · split at h <;> cases h

private theorem size_foldl_set (l : List Nat) (P : Array Nat) (v : Nat) :
    (l.foldl (fun P r => P.setIfInBounds r v) P).size = P.size := by
  induction l generalizing P with
  | nil => rfl
  | cons s l ih => rw [List.foldl_cons, ih, Array.size_setIfInBounds]

private theorem foldl_set_getElem? (l : List Nat) (P : Array Nat) (v r : Nat) :
    (l.foldl (fun P r => P.setIfInBounds r v) P)[r]? =
      if r ∈ l ∧ r < P.size then some v else P[r]? := by
  induction l generalizing P with
  | nil => simp
  | cons s l ih =>
    rw [List.foldl_cons, ih, Array.size_setIfInBounds, Array.getElem?_setIfInBounds]
    by_cases hs : s = r
    · subst hs
      by_cases hlt : s < P.size <;> simp [hlt]
    · have hs' : r ≠ s := fun h => hs h.symm
      simp [hs, hs']

private theorem partOf_apply (hR : R.Valid n) (s : Split) {r : Nat} (hr : r < n) :
    (R.apply s).partOf r = if s.added.contains r then R.parts.size else R.partOf r := by
  change ((s.added.toList.foldl (fun P r => P.setIfInBounds r R.parts.size) R.places)[r]?).getD 0 = _
  rw [foldl_set_getElem?, hR.size_places]
  simp only [StateSet.mem_toList, hr, and_true]
  split <;> rfl

theorem size_parts_apply (R : Refinement) (s : Split) :
    (R.apply s).parts.size = R.parts.size + 1 := by
  change ((R.parts.setIfInBounds s.part s.kept).push s.added).size = _
  rw [Array.size_push, Array.size_setIfInBounds]

theorem partAt_apply {s : Split} (hs : s.part < R.parts.size) (j : Nat) :
    (R.apply s).partAt j =
      if j = R.parts.size then s.added else if j = s.part then s.kept else R.partAt j := by
  change (((R.parts.setIfInBounds s.part s.kept).push s.added)[j]?).getD ∅ = _
  rw [Array.getElem?_push, Array.size_setIfInBounds, Array.getElem?_setIfInBounds]
  split
  · rfl
  · by_cases hj : s.part = j
    · subst hj
      simp
    · have hj' : j ≠ s.part := fun h => hj h.symm
      simp [hj, hj', partAt]

private theorem Halves.valid_apply {S : StateSet} {s : Split} {side : Bool} (hc : Halves R S s side)
    (hR : R.Valid n) (hs : s.part < R.parts.size) : (R.apply s).Valid n := by
  have hpart := hR.contains_partAt s.part hs
  refine ⟨?_, fun j hj r => ?_, fun r hr => ?_, fun j hj => ?_⟩
  · exact (size_foldl_set _ _ _).trans hR.size_places
  · rw [size_parts_apply] at hj
    have hpartOf := partOf_apply hR s (r := r)
    have hlt := hR.partOf_lt r
    have hadded := hc.added_iff r
    have hkept := hc.kept_iff r
    rw [hpart] at hadded hkept
    rw [partAt_apply hs]
    split
    · grind
    · split
      · grind
      · rw [hR.contains_partAt j (by omega) r]
        grind
  · have := hR.partOf_lt r hr
    rw [partOf_apply hR s hr, size_parts_apply]
    split <;> omega
  · rw [size_parts_apply] at hj
    by_cases hnew : j = R.parts.size
    · obtain ⟨r, hr⟩ := hc.exists_added
      have hrn := ((hpart r).1 ((hc.added_iff r).1 hr).1).1
      exact ⟨r, hrn, by rw [partOf_apply hR s hrn, if_pos hr, hnew]⟩
    · by_cases hold : j = s.part
      · obtain ⟨r, hr⟩ := hc.exists_kept
        obtain ⟨hrp, hside⟩ := (hc.kept_iff r).1 hr
        have hno : ¬ s.added.contains r := fun h => hside ((hc.added_iff r).1 h).2
        obtain ⟨hrn, he⟩ := (hpart r).1 hrp
        exact ⟨r, hrn, by rw [partOf_apply hR s hrn, if_neg hno, he, hold]⟩
      · obtain ⟨r, hr, he⟩ := hR.inhabited j (by omega)
        have hno : ¬ s.added.contains r := fun h =>
          hold (he ▸ ((hpart r).1 ((hc.added_iff r).1 h).1).2)
        exact ⟨r, hr, by rw [partOf_apply hR s hr, if_neg hno, he]⟩

/-- `R'` refines `R`: rows of one part stay together exactly when they are alike, and a row that leaves its
part gets to a new position. -/
structure Splits (n : Nat) (alike : Nat → Nat → Prop) (R R' : Refinement) : Prop where
  valid : R'.Valid n
  size_le : R.parts.size ≤ R'.parts.size
  stays : ∀ r < n, R'.partOf r = R.partOf r ∨ R.parts.size ≤ R'.partOf r
  together_iff : ∀ p < n, ∀ q < n,
    (R'.partOf p = R'.partOf q ↔ R.partOf p = R.partOf q ∧ alike p q)

def splitAt (S : StateSet) (R : Refinement) (i : Nat) : Refinement :=
  match R.cut? S i with
  | none => R
  | some s => R.apply s

private theorem splitAt_splits (S : StateSet) (hR : R.Valid n) {i : Nat} (hi : i < R.parts.size) :
    Splits n (fun p q => R.partOf p = i → S.contains p = S.contains q) R (R.splitAt S i) := by
  unfold splitAt
  split
  · rename_i h
    refine ⟨hR, Nat.le_refl _, fun r _ => Or.inl rfl, fun p hp q hq => ?_⟩
    refine ⟨fun he => ⟨he, fun hpi => ?_⟩, And.left⟩
    exact cut?_eq_none h ((hR.contains_partAt i hi p).2 ⟨hp, hpi⟩)
      ((hR.contains_partAt i hi q).2 ⟨hq, he ▸ hpi⟩)
  · rename_i s h
    obtain ⟨rfl, side, hc⟩ := cut?_eq_some h
    refine ⟨hc.valid_apply hR hi, ?_, fun r hr => ?_, fun p hp q hq => ?_⟩
    · rw [size_parts_apply]
      exact Nat.le_succ _
    · rw [partOf_apply hR s hr]
      split
      · exact Or.inr (Nat.le_refl _)
      · exact Or.inl rfl
    · have hap := hc.added_iff p
      have haq := hc.added_iff q
      rw [hR.contains_partAt _ hi] at hap haq
      have hpl := hR.partOf_lt p hp
      have hql := hR.partOf_lt q hq
      have hother : S.contains p ≠ side → S.contains q ≠ side → S.contains p = S.contains q := by
        cases S.contains p <;> cases S.contains q <;> cases side <;> decide
      rw [partOf_apply hR s hp, partOf_apply hR s hq]
      grind

private theorem partOf_splitAt_of_ne (S : StateSet) (hR : R.Valid n) {i r : Nat}
    (hi : i < R.parts.size) (hr : r < n) (hne : R.partOf r ≠ i) : (R.splitAt S i).partOf r = R.partOf r := by
  unfold splitAt
  split
  · rfl
  · rename_i s h
    obtain ⟨rfl, side, hc⟩ := cut?_eq_some h
    rw [partOf_apply hR s hr, if_neg]
    intro ha
    exact hne ((hR.contains_partAt _ hi r).1 ((hc.added_iff r).1 ha).1).2

private theorem partAt_splitAt (S : StateSet) {i j : Nat} (hi : i < R.parts.size) (hj : j < R.parts.size)
    (hij : j ≠ i) : (R.splitAt S i).partAt j = R.partAt j := by
  unfold splitAt
  split
  · rfl
  · rename_i s h
    obtain ⟨rfl, _⟩ := cut?_eq_some h
    rw [partAt_apply hi, if_neg (Nat.ne_of_lt hj), if_neg hij]

private theorem foldl_apply_cuts (S : StateSet) (R₀ : Refinement) (l : List Nat) (hl : l.Nodup)
    (hR : R.Valid n) (hlt : ∀ i ∈ l, i < R.parts.size) (hsame : ∀ i ∈ l, R.partAt i = R₀.partAt i) :
    (l.filterMap (R₀.cut? S)).foldl apply R = l.foldl (splitAt S) R := by
  -- Cuts of different parts do not interfere: made in advance, they are the cuts of the parts met on the way.
  induction l generalizing R with
  | nil => rfl
  | cons i l ih =>
    have hi := hlt i List.mem_cons_self
    have hcut : R₀.cut? S i = R.cut? S i := by
      rw [cut?_eq, cut?_eq, hsame i List.mem_cons_self]
    have hsplit := splitAt_splits S hR hi
    have hrest := ih (R := R.splitAt S i) (List.nodup_cons.1 hl).2 hsplit.valid
      (fun j hj => Nat.lt_of_lt_of_le (hlt j (List.mem_cons_of_mem _ hj)) hsplit.size_le)
      (fun j hj => by
        have hij : j ≠ i := fun h => (List.nodup_cons.1 hl).1 (h ▸ hj)
        rw [partAt_splitAt S hi (hlt j (List.mem_cons_of_mem _ hj)) hij,
          hsame j (List.mem_cons_of_mem _ hj)])
    rw [List.foldl_cons, ← hrest, List.filterMap_cons, hcut]
    unfold splitAt
    split <;> simp_all

private theorem foldl_splitAt_splits (S : StateSet) (l : List Nat) (hl : l.Nodup) (hR : R.Valid n)
    (hlt : ∀ i ∈ l, i < R.parts.size) :
    Splits n (fun p q => R.partOf p ∈ l → S.contains p = S.contains q) R (l.foldl (splitAt S) R) := by
  induction l generalizing R with
  | nil => exact ⟨hR, Nat.le_refl _, fun r _ => Or.inl rfl, fun p _ q _ => by simp⟩
  | cons i l ih =>
    have h := splitAt_splits S hR (hlt i List.mem_cons_self)
    have hrest := ih (R := R.splitAt S i) (List.nodup_cons.1 hl).2 h.valid
      (fun j hj => Nat.lt_of_lt_of_le (hlt j (List.mem_cons_of_mem _ hj)) h.size_le)
    rw [List.foldl_cons]
    refine ⟨hrest.valid, h.size_le.trans hrest.size_le, fun r hr => ?_, fun p hp q hq => ?_⟩
    · have h1 := h.stays r hr
      have h2 := hrest.stays r hr
      have := h.size_le
      omega
    · rw [hrest.together_iff p hp q hq, h.together_iff p hp q hq, List.mem_cons]
      have hmoved : R.partOf p ≠ i → (R.splitAt S i).partOf p = R.partOf p := fun hne =>
        partOf_splitAt_of_ne S hR (hlt i List.mem_cons_self) hp hne
      have hnew : (R.splitAt S i).partOf p ∈ l → (R.splitAt S i).partOf p = R.partOf p := fun hm =>
        (h.stays p hp).resolve_right (Nat.not_le.2 (hlt _ (List.mem_cons_of_mem _ hm)))
      have hi := (List.nodup_cons.1 hl).1
      grind

theorem nodup_eraseDups (l : List Nat) : l.eraseDups.Nodup := by
  match l with
  | [] => exact List.nodup_nil
  | a :: l =>
    rw [List.eraseDups_cons, List.nodup_cons, List.mem_eraseDups]
    exact ⟨by simp, nodup_eraseDups _⟩
termination_by l.length
decreasing_by exact Nat.lt_succ_of_le (List.length_filter_le _ _)

/-- Splitting by a set is cutting the parts that its members lie in, one after another. -/
theorem splitBy_eq_foldl (S : StateSet) (hR : R.Valid n) (hS : ∀ r, S.contains r → r < n) :
    R.splitBy S = ((S.toList.map R.partOf).eraseDups).foldl (splitAt S) R := by
  refine foldl_apply_cuts S R _ (nodup_eraseDups _) hR (fun i hi => ?_) fun _ _ => rfl
  obtain ⟨r, hr, rfl⟩ := List.mem_map.1 (List.mem_eraseDups.1 hi)
  exact hR.partOf_lt r (hS r (StateSet.mem_toList.1 hr))

/-- Splitting by a set of rows takes apart exactly the rows that the set tells apart. -/
theorem splitBy_splits (S : StateSet) (hR : R.Valid n) (hS : ∀ r, S.contains r → r < n) :
    Splits n (fun p q => S.contains p = S.contains q) R (R.splitBy S) := by
  let l := (S.toList.map R.partOf).eraseDups
  have hmem : ∀ i, i ∈ l ↔ ∃ r, S.contains r ∧ R.partOf r = i := by simp [l]
  have hlt : ∀ i ∈ l, i < R.parts.size := by
    intro i hi
    obtain ⟨r, hr, rfl⟩ := (hmem i).1 hi
    exact hR.partOf_lt r (hS r hr)
  have heq : R.splitBy S = l.foldl (splitAt S) R := splitBy_eq_foldl S hR hS
  obtain ⟨hvalid, hsize, hstays, htogether⟩ := foldl_splitAt_splits S l (nodup_eraseDups _) hR hlt
  refine heq ▸ ⟨hvalid, hsize, hstays, fun p hp q hq => (htogether p hp q hq).trans ?_⟩
  refine and_congr_right fun he => ⟨fun h => ?_, fun h _ => h⟩
  -- a part that no member of `S` lies in is not told apart by `S`
  by_cases ht : R.partOf p ∈ l
  · exact h ht
  · have hp' : S.contains p = false := Bool.eq_false_iff.2 fun hc => ht ((hmem _).2 ⟨p, hc, rfl⟩)
    have hq' : S.contains q = false := Bool.eq_false_iff.2 fun hc => ht ((hmem _).2 ⟨q, hc, he.symm⟩)
    rw [hp', hq']

end RegularLanguages.Refinement
