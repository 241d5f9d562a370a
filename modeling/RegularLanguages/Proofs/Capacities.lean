import RegularLanguages.Proofs.Members
import RegularLanguages.StateSet.Session

/-!
Sets with room behave like the finite sets of their members. However long the arrays are that two sets are kept in, calls
answer and show the same, so the room of a set cannot be told.
-/
namespace RegularLanguages

namespace BitArray

variable {A B : BitArray} {i j : Nat}

theorem getElem?_bits (h : i < B.length) : B.bits[i]? = some (B.contains i) := by
  rw [contains, List.getElem?_eq_getElem (show i < B.bits.length from h)]
  rfl

theorem contains_of_length_le (h : B.length ≤ i) : B.contains i = false := by
  rw [contains, List.getElem?_eq_none h]
  rfl

@[simp] theorem contains_zeros (length i : Nat) : (zeros length).contains i = false := by
  rw [contains, zeros, List.getElem?_replicate]
  split <;> rfl

@[simp] theorem contains_grow (B : BitArray) (length i : Nat) : (B.grow length).contains i = B.contains i := by
  rw [contains, grow]
  rcases Nat.lt_or_ge i B.length with h | h
  · rw [List.getElem?_append_left h, getElem?_bits h]
    rfl
  · rw [List.getElem?_append_right h, List.getElem?_replicate, contains_of_length_le h]
    split <;> rfl

theorem contains_write {bit : Bool} {h : i < B.length} :
    (B.write i bit h).contains j = if i = j then bit else B.contains j := by
  rw [contains, write, List.getElem?_set]
  split
  · rename_i he
    subst he
    rw [if_pos (show i < B.bits.length from h)]
    rfl
  · rfl

private theorem put_eq {h : i < B.length} : B.put i h = (B.write i true h, B.contains i) :=
  Prod.ext rfl (Option.some.inj ((List.getElem?_eq_getElem h).symm.trans (getElem?_bits h)))

/-- What is computed for each bit of an array, provided that it is zero behind the end. -/
theorem contains_mapIdx {f : Nat → Bool → Bool} (hf : A.length ≤ i → f i false = false) :
    (⟨A.bits.mapIdx f⟩ : BitArray).contains i = f i (A.contains i) := by
  rw [contains, List.getElem?_mapIdx]
  rcases Nat.lt_or_ge i A.length with h | h
  · rw [getElem?_bits h]
    rfl
  · rw [contains_of_length_le h, hf h, List.getElem?_eq_none h]
    rfl

@[simp] theorem contains_unionWith (A B : BitArray) (i : Nat) :
    (A.unionWith B).contains i = (A.contains i || B.contains i) := by
  rw [unionWith, contains_mapIdx, contains_grow]
  intro h
  rw [length_grow] at h
  exact contains_of_length_le (Nat.le_trans (Nat.le_max_right _ _) h)

@[simp] theorem contains_intersectWith (A B : BitArray) (i : Nat) :
    (A.intersectWith B).contains i = (A.contains i && B.contains i) := contains_mapIdx fun _ => rfl

@[simp] theorem contains_differenceWith (A B : BitArray) (i : Nat) :
    (A.differenceWith B).contains i = (A.contains i && !B.contains i) := contains_mapIdx fun _ => rfl

theorem mem_ones : i ∈ B.ones ↔ B.contains i := by
  rw [ones, List.mem_filter, List.mem_range]
  exact ⟨And.right, fun h => ⟨lt_length_of_contains h, h⟩⟩

private theorem pairwise_ones (B : BitArray) : B.ones.Pairwise (· < ·) := List.pairwise_lt_range.filter _

theorem bits_eq_map_range (B : BitArray) : B.bits = (List.range B.length).map B.contains := by
  refine List.ext_getElem? fun i => ?_
  rw [List.getElem?_map]
  rcases Nat.lt_or_ge i B.length with h | h
  · rw [getElem?_bits h, List.getElem?_range h]
    rfl
  · rw [List.getElem?_eq_none (show B.bits.length ≤ i from h), List.getElem?_eq_none (by rwa [List.length_range])]
    rfl

private theorem countOnes_eq (B : BitArray) : B.countOnes = B.ones.length := by
  rw [countOnes, bits_eq_map_range, List.count_eq_countP, List.countP_map, List.countP_eq_length_filter, ones]
  congr 2
  funext i
  simp

private theorem isClear_iff : B.isClear ↔ ∀ i, ¬ B.contains i := by
  rw [isClear, bits_eq_map_range, List.all_map, List.all_eq_true]
  constructor
  · intro h i hi
    have hclear := h i (List.mem_range.2 (lt_length_of_contains hi))
    simp [hi] at hclear
  · intro h i _
    simp [h i]

private theorem minimum?_eq_some_iff : B.minimum? = some i ↔ B.contains i ∧ ∀ j, B.contains j → i ≤ j := by
  have hbit : ∀ j (h : j < B.bits.length), B.bits[j] = B.contains j := fun j h =>
    Option.some.inj ((List.getElem?_eq_getElem h).symm.trans (getElem?_bits h))
  rw [minimum?, List.findIdx?_eq_some_iff_getElem]
  constructor
  · rintro ⟨hlt, hi, hfirst⟩
    rw [hbit i hlt] at hi
    refine ⟨hi, fun j hj => Nat.le_of_not_lt fun hji => hfirst j hji ?_⟩
    rw [hbit, hj]
  · rintro ⟨hi, hfirst⟩
    refine ⟨lt_length_of_contains hi, (hbit i _).trans hi, fun j hji hj => ?_⟩
    rw [hbit] at hj
    exact Nat.not_le_of_lt hji (hfirst j hj)

private theorem isDisjoint_iff : A.isDisjoint B ↔ ∀ i, A.contains i → ¬ B.contains i := by
  have hpair : ∀ a b, (a, b) ∈ A.bits.zip B.bits ↔
      ∃ i, i < A.length ∧ i < B.length ∧ A.contains i = a ∧ B.contains i = b := by
    intro a b
    rw [List.mem_iff_getElem?]
    refine exists_congr fun i => ?_
    rw [List.getElem?_zip_eq_some]
    constructor
    · rintro ⟨ha, hb⟩
      have hA := (List.getElem?_eq_some_iff.1 ha).1
      have hB := (List.getElem?_eq_some_iff.1 hb).1
      rw [getElem?_bits hA] at ha
      rw [getElem?_bits hB] at hb
      exact ⟨hA, hB, Option.some.inj ha, Option.some.inj hb⟩
    · rintro ⟨hA, hB, rfl, rfl⟩
      exact ⟨getElem?_bits hA, getElem?_bits hB⟩
  rw [isDisjoint, List.all_eq_true]
  constructor
  · intro h i hA hB
    have hboth := h (true, true) ((hpair _ _).2 ⟨i, lt_length_of_contains hA, lt_length_of_contains hB, hA, hB⟩)
    cases hboth
  · rintro h ⟨a, b⟩ hmem
    obtain ⟨i, _, _, rfl, rfl⟩ := (hpair a b).1 hmem
    cases hA : A.contains i with
    | false => rfl
    | true => simp [h i hA]

end BitArray

namespace SizedSet

def members (S : SizedSet) : Finset State := S.toList.toFinset

variable {S T : SizedSet} {p q : State}

@[simp] theorem mem_members : q ∈ S.members ↔ S.contains q := by
  rw [members, List.mem_toFinset]
  exact BitArray.mem_ones

theorem contains_room (S : SizedSet) (p q : State) : (S.room p).contains q = S.contains q := by
  unfold room
  split
  · exact BitArray.contains_grow _ _ _
  · rfl

theorem insert_eq (S : SizedSet) (q : State) :
    S.insert q = (⟨(S.room q).write q true (S.lt_length_room q)⟩, !S.contains q) := by
  rw [insert, BitArray.put_eq, contains_room]

theorem contains_insert : (S.insert p).1.contains q = (S.contains q || decide (p = q)) := by
  rw [insert_eq, contains, BitArray.contains_write, contains_room]
  by_cases h : p = q <;> simp [h]

theorem contains_remove : (S.remove p).1.contains q = (S.contains q && !decide (p = q)) := by
  unfold remove
  split
  · rw [contains, BitArray.contains_write]
    by_cases h : p = q <;> simp [h, contains]
  · rename_i hp
    by_cases h : p = q
    · subst h
      simp [hp]
    · simp [h]

private theorem remove_snd : (S.remove q).2 = S.contains q := by
  unfold remove
  split
  · rename_i h
    exact h.symm
  · rename_i h
    exact (Bool.eq_false_iff.2 h).symm

@[simp] theorem members_withCapacity (capacity : Nat) : (withCapacity capacity).members = ∅ :=
  Finset.ext fun q => by simp [contains, withCapacity]

@[simp] theorem members_empty : (∅ : SizedSet).members = ∅ := members_withCapacity 0

theorem members_insert (S : SizedSet) (q : State) : (S.insert q).1.members = Insert.insert q S.members := by
  refine Finset.ext fun p => ?_
  rw [Finset.mem_insert, mem_members, mem_members, contains_insert, Bool.or_eq_true, decide_eq_true_eq, or_comm,
    eq_comm]

private theorem members_remove (S : SizedSet) (q : State) : (S.remove q).1.members = S.members.erase q := by
  refine Finset.ext fun p => ?_
  rw [Finset.mem_erase, mem_members, mem_members, contains_remove, Bool.and_eq_true, and_comm, Bool.not_eq_true',
    decide_eq_false_iff_not, ne_comm]

theorem members_extend (S : SizedSet) (states : List State) :
    (S.extend states).members = S.members ∪ states.toFinset := by
  induction states generalizing S with
  | nil => exact (Finset.union_empty _).symm
  | cons q states ih =>
    change ((S.insert q).1.extend states).members = _
    rw [ih, members_insert, List.toFinset_cons, Finset.insert_union, Finset.union_insert]

theorem members_union (S T : SizedSet) : (S.union T).members = S.members ∪ T.members :=
  Finset.ext fun q => by simp [contains, union]

theorem members_inter (S T : SizedSet) : (S.inter T).members = S.members ∩ T.members :=
  Finset.ext fun q => by simp [contains, inter]

private theorem members_diff (S T : SizedSet) : (S.diff T).members = S.members \ T.members :=
  Finset.ext fun q => by simp [contains, diff]

theorem toList_eq_sort (S : SizedSet) : S.toList = S.members.sort :=
  eq_sort_of_pairwise S.array.pairwise_ones fun _ => BitArray.mem_ones.trans mem_members.symm

theorem card_eq (S : SizedSet) : S.card = S.members.card := by
  rw [← Finset.length_sort (· ≤ ·), ← toList_eq_sort]
  exact S.array.countOnes_eq

theorem isEmpty_iff : S.isEmpty ↔ S.members = ∅ := by
  rw [Finset.eq_empty_iff_forall_notMem]
  simp only [mem_members]
  exact BitArray.isClear_iff

theorem first?_iff_isLeast : S.first? = some q ↔ IsLeast (S.members : Set State) q := by
  rw [IsLeast, mem_lowerBounds]
  simp only [Finset.mem_coe, mem_members]
  exact BitArray.minimum?_eq_some_iff

theorem meets_iff_nonempty : S.meets T ↔ (S.members ∩ T.members).Nonempty := by
  rw [meets, Bool.not_eq_true', ← Bool.not_eq_true, BitArray.isDisjoint_iff, Finset.Nonempty]
  simp only [Finset.mem_inter, mem_members, not_forall, not_not, exists_prop]
  rfl

private theorem beq_iff : (S == T) = true ↔ S.members = T.members := by
  change (S.toList == T.toList) = true ↔ _
  rw [beq_iff_eq, toList_eq_sort, toList_eq_sort]
  refine ⟨fun h => ?_, fun h => h ▸ rfl⟩
  have hmembers := congrArg List.toFinset h
  rwa [Finset.sort_toFinset, Finset.sort_toFinset] at hmembers

end SizedSet

def SetOperations.finite : SetOperations (Finset State) where
  empty := ∅
  withCapacity _ := ∅
  singleton q _ := {q}
  ofList := List.toFinset
  insert M q := (Insert.insert q M, decide (q ∉ M))
  remove M q := (M.erase q, decide (q ∈ M))
  extend M states := M ∪ states.toFinset
  union := (· ∪ ·)
  inter := (· ∩ ·)
  diff := (· \ ·)

/-- Operations that change the members as operations on finite sets do, with the same answers. -/
structure SetOperations.Represents {σ : Type} (K : SetOperations σ) (members : σ → Finset State) : Prop where
  empty : members K.empty = ∅
  withCapacity : ∀ capacity, members (K.withCapacity capacity) = ∅
  singleton : ∀ q capacity, members (K.singleton q capacity) = {q}
  ofList : ∀ states, members (K.ofList states) = states.toFinset
  insert : ∀ S q, Prod.map members id (K.insert S q) = finite.insert (members S) q
  remove : ∀ S q, Prod.map members id (K.remove S q) = finite.remove (members S) q
  extend : ∀ S states, members (K.extend S states) = members S ∪ states.toFinset
  union : ∀ S T, members (K.union S T) = members S ∪ members T
  inter : ∀ S T, members (K.inter S T) = members S ∩ members T
  diff : ∀ S T, members (K.diff S T) = members S \ members T

/-- All that is seen of the sets is what there is to see of finite sets, and equal ones are the same to every hasher. -/
structure SetKind.Shows {σ ι : Type} (K : SetKind σ) (sets : ι → σ) (members : ι → Finset State) : Prop where
  contains_iff : ∀ x q, K.contains (sets x) q ↔ q ∈ members x
  card_eq : ∀ x, K.card (sets x) = (members x).card
  isEmpty_iff : ∀ x, K.isEmpty (sets x) ↔ members x = ∅
  first?_iff : ∀ x q, K.first? (sets x) = some q ↔ IsLeast (members x : Set State) q
  toList_eq : ∀ x, K.toList (sets x) = (members x).sort
  meets_iff : ∀ x y, K.meets (sets x) (sets y) ↔ (members x ∩ members y).Nonempty
  equal_iff : ∀ x y, K.equal (sets x) (sets y) ↔ members x = members y
  hash_eq : ∀ x y, K.equal (sets x) (sets y) → ∀ {H : Type} (feed : H → State → H) (start : H),
    K.hash feed start (sets x) = K.hash feed start (sets y)

namespace SetKind

private theorem sized_represents : sized.toSetOperations.Represents SizedSet.members where
  empty := SizedSet.members_empty
  withCapacity := SizedSet.members_withCapacity
  singleton q capacity := (SizedSet.members_insert _ q).trans (by simp)
  ofList states := (SizedSet.members_extend ∅ states).trans (by simp)
  insert S q := by
    refine Prod.ext (S.members_insert q) ?_
    simp [sized, SetOperations.finite, SizedSet.insert_eq]
  remove S q := Prod.ext (S.members_remove q) (by simp [sized, SetOperations.finite, SizedSet.remove_snd])
  extend := SizedSet.members_extend
  union := SizedSet.members_union
  inter := SizedSet.members_inter
  diff := SizedSet.members_diff

private theorem masks_represents : masks.toSetOperations.Represents StateSet.members where
  empty := StateSet.members_empty
  withCapacity _ := StateSet.members_empty
  singleton q _ := StateSet.members_singleton q
  ofList := StateSet.members_ofList
  insert S q := Prod.ext (S.members_insert q) (by simp [masks, SetOperations.finite])
  remove S q := Prod.ext (S.members_erase q) (by simp [masks, SetOperations.finite])
  extend S states := by
    refine (congrArg StateSet.members (StateSet.foldl_insert states S)).trans ?_
    rw [StateSet.members_union, StateSet.members_ofList]
  union := StateSet.members_union
  inter := StateSet.members_inter
  diff := StateSet.members_sdiff

/-- Equal sets have equal lists, and a hasher is fed the list. -/
theorem hash_eq_of_toList_eq {σ H : Type} {K : SetKind σ} {S T : σ} (h : K.toList S = K.toList T)
    (feed : H → State → H) (start : H) : K.hash feed start S = K.hash feed start T := by
  rw [hash, hash, h]

private theorem sized_shows : sized.Shows id SizedSet.members where
  contains_iff _ _ := SizedSet.mem_members.symm
  card_eq := SizedSet.card_eq
  isEmpty_iff _ := SizedSet.isEmpty_iff
  first?_iff _ _ := SizedSet.first?_iff_isLeast
  toList_eq := SizedSet.toList_eq_sort
  meets_iff _ _ := SizedSet.meets_iff_nonempty
  equal_iff _ _ := SizedSet.beq_iff
  hash_eq _ _ h _ := hash_eq_of_toList_eq (eq_of_beq h)

private theorem masks_shows : masks.Shows id StateSet.members where
  contains_iff _ _ := StateSet.mem_members.symm
  card_eq S := S.card_members.symm
  isEmpty_iff _ := StateSet.isEmpty_iff_members
  first?_iff _ _ := StateSet.first?_iff_isLeast
  toList_eq := StateSet.toList_eq_sort
  meets_iff _ _ := StateSet.meets_iff_nonempty
  equal_iff _ _ := decide_eq_true_iff.trans StateSet.members_inj.symm
  hash_eq _ _ h _ := hash_eq_of_toList_eq (congrArg StateSet.toList (of_decide_eq_true h))

/-- What holds of all sets holds of the sets in some variables. -/
theorem Shows.comp {σ ι κ : Type} {K : SetKind σ} {sets : ι → σ} {members : ι → Finset State}
    (h : K.Shows sets members) (f : κ → ι) : K.Shows (sets ∘ f) (members ∘ f) where
  contains_iff x := h.contains_iff (f x)
  card_eq x := h.card_eq (f x)
  isEmpty_iff x := h.isEmpty_iff (f x)
  first?_iff x := h.first?_iff (f x)
  toList_eq x := h.toList_eq (f x)
  meets_iff x y := h.meets_iff (f x) (f y)
  equal_iff x y := h.equal_iff (f x) (f y)
  hash_eq x y := h.hash_eq (f x) (f y)

end SetKind

namespace SetSession

variable {σ : Type} {K : SetOperations σ} {members : σ → Finset State} {s : SetSession σ}
  {r : SetSession (Finset State)}

/-- The variables hold sets with the same members in both sessions, and the answers are the same. -/
structure Mirrors (members : σ → Finset State) (s : SetSession σ) (r : SetSession (Finset State)) : Prop where
  store_eq : ∀ x, members (s.store x) = r.store x
  answers_eq : s.answers = r.answers

theorem Mirrors.assign (h : Mirrors members s r) (x : String) {S : σ} {M : Finset State} (hS : members S = M) :
    Mirrors members (s.assign x S) (r.assign x M) := by
  refine ⟨fun y => ?_, h.answers_eq⟩
  change members (if y = x then S else s.store y) = if y = x then M else r.store y
  split
  · exact hS
  · exact h.store_eq y

theorem Mirrors.answer (h : Mirrors members s r) (x : String) {S : σ × Bool} {M : Finset State × Bool}
    (hS : Prod.map members id S = M) : Mirrors members (s.answer x S) (r.answer x M) := by
  subst hS
  exact ⟨(h.assign x rfl).store_eq, congrArg (· ++ [S.2]) h.answers_eq⟩

/-- One call changes and answers the same in both sessions. -/
theorem Mirrors.perform (hK : K.Represents members) (h : Mirrors members s r) (call : SetCall) :
    Mirrors members (s.perform K call) (r.perform .finite call) := by
  cases call with
  | withCapacity x capacity => exact h.assign x (hK.withCapacity capacity)
  | singleton x q capacity => exact h.assign x (hK.singleton q capacity)
  | ofList x states => exact h.assign x (hK.ofList states)
  | insert x q => exact h.answer x ((hK.insert _ q).trans (by rw [h.store_eq]))
  | remove x q => exact h.answer x ((hK.remove _ q).trans (by rw [h.store_eq]))
  | extend x states => exact h.assign x ((hK.extend _ states).trans (by rw [h.store_eq]; rfl))
  | unionWith x y => exact h.assign x ((hK.union _ _).trans (by rw [h.store_eq, h.store_eq]; rfl))
  | intersection x y z => exact h.assign x ((hK.inter _ _).trans (by rw [h.store_eq, h.store_eq]; rfl))
  | difference x y z => exact h.assign x ((hK.diff _ _).trans (by rw [h.store_eq, h.store_eq]; rfl))

theorem mirrors_after (hK : K.Represents members) (calls : List SetCall) :
    Mirrors members (after K calls) (after .finite calls) := by
  suffices h : ∀ s r, Mirrors members s r →
      Mirrors members (calls.foldl (perform K) s) (calls.foldl (perform .finite) r) from
    h _ _ ⟨fun _ => hK.empty, rfl⟩
  induction calls with
  | nil => exact fun _ _ h => h
  | cons call calls ih => exact fun _ _ h => ih _ _ (h.perform hK call)

/-- Finite sets have no room, so it makes no difference to them how much is asked for. -/
theorem after_finite_withoutRoom (calls : List SetCall) :
    after .finite (calls.map SetCall.withoutRoom) = after .finite calls := by
  rw [after, List.foldl_map]
  congr 1
  funext r call
  cases call <;> rfl

/-- After any calls, sets in arrays of bits have answered as finite sets have, and show what finite sets do, whatever the
lengths of the arrays. So do bit masks. The finite sets do not depend on the room that was asked for. -/
theorem after_exact (calls : List SetCall) :
    (after SetKind.sized.toSetOperations calls).answers = (after .finite calls).answers ∧
      SetKind.sized.Shows (after SetKind.sized.toSetOperations calls).store (after .finite calls).store ∧
      (after SetKind.masks.toSetOperations calls).answers = (after .finite calls).answers ∧
      SetKind.masks.Shows (after SetKind.masks.toSetOperations calls).store (after .finite calls).store ∧
      after .finite (calls.map SetCall.withoutRoom) = after .finite calls := by
  have hsized := mirrors_after SetKind.sized_represents calls
  have hmasks := mirrors_after SetKind.masks_represents calls
  refine ⟨hsized.answers_eq, ?_, hmasks.answers_eq, ?_, after_finite_withoutRoom calls⟩
  · rw [← funext hsized.store_eq]
    exact SetKind.sized_shows.comp _
  · rw [← funext hmasks.store_eq]
    exact SetKind.masks_shows.comp _

/-- Two sets of one member are equal although their arrays differ in length, also after a change. -/
example :
    let s := after SetKind.sized.toSetOperations
      [.singleton "x" 2 64, .withCapacity "y" 4, .insert "y" 9, .insert "y" 2, .remove "y" 9]
    s.answers = [true, true, true] ∧ SetKind.sized.equal (s.store "x") (s.store "y") := by decide

end SetSession

end RegularLanguages
