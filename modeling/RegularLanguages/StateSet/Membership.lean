import RegularLanguages.StateSet

/-!
Members of sets of states: what each operation does to them. Sets with the same members are equal, and
the list of a set holds its members in ascending order.
-/
namespace RegularLanguages.StateSet

instance : HasSubset StateSet := ⟨fun S T => ∀ q, S.contains q = true → T.contains q = true⟩

theorem ext {S T : StateSet} (h : ∀ q, S.contains q = T.contains q) : S = T := by
  cases S
  cases T
  exact congrArg StateSet.mk (Nat.eq_of_testBit_eq h)

theorem eq_of_contains_iff {S T : StateSet} (h : ∀ q, S.contains q = true ↔ T.contains q = true) : S = T :=
  ext fun q => Bool.eq_iff_iff.2 (h q)

@[simp] theorem contains_empty (q : State) : (∅ : StateSet).contains q = false := Nat.zero_testBit q

@[simp] theorem contains_singleton (p q : State) : (singleton p).contains q = decide (p = q) := by
  rw [singleton, contains, Nat.one_shiftLeft, Nat.testBit_two_pow]

@[simp] theorem contains_union (S T : StateSet) (q : State) :
    (S ∪ T).contains q = (S.contains q || T.contains q) := Nat.testBit_or _ _ _

@[simp] theorem contains_inter (S T : StateSet) (q : State) :
    (S ∩ T).contains q = (S.contains q && T.contains q) := Nat.testBit_and _ _ _

@[simp] theorem contains_sdiff (S T : StateSet) (q : State) :
    (S \ T).contains q = (S.contains q && !T.contains q) := by
  change (S.bits &&& (S.bits ^^^ T.bits)).testBit q = (S.bits.testBit q && !T.bits.testBit q)
  rw [Nat.testBit_and, Nat.testBit_xor]
  cases S.bits.testBit q <;> cases T.bits.testBit q <;> rfl

@[simp] theorem contains_insert (S : StateSet) (p q : State) :
    (S.insert p).contains q = (S.contains q || decide (p = q)) := by
  rw [insert, contains_union, contains_singleton]

@[simp] theorem contains_erase (S : StateSet) (p q : State) :
    (S.erase p).contains q = (S.contains q && !decide (p = q)) := by
  unfold erase
  split
  · rw [contains_sdiff, contains_singleton]
  · rename_i h
    by_cases hpq : p = q
    · subst hpq
      simp [h]
    · simp [hpq]

theorem contains_singleton_iff {p q : State} : (singleton p).contains q = true ↔ p = q := by
  rw [contains_singleton, decide_eq_true_eq]

theorem contains_union_iff {S T : StateSet} {q : State} :
    (S ∪ T).contains q = true ↔ S.contains q = true ∨ T.contains q = true := by
  rw [contains_union, Bool.or_eq_true]

theorem contains_insert_iff {S : StateSet} {p q : State} :
    (S.insert p).contains q = true ↔ S.contains q = true ∨ p = q := by
  rw [contains_insert, Bool.or_eq_true, decide_eq_true_eq]

theorem isEmpty_iff {S : StateSet} : S.isEmpty = true ↔ S = ∅ := by
  cases S
  simp [isEmpty, EmptyCollection.emptyCollection]

/-- A set is not empty exactly when it has a member. -/
theorem isEmpty_eq_false_iff {S : StateSet} : S.isEmpty = false ↔ ∃ q, S.contains q = true := by
  constructor
  · intro h
    exact Nat.exists_testBit_of_ne_zero (ne_of_beq_false h)
  · rintro ⟨q, hq⟩
    refine beq_false_of_ne fun h => ?_
    rw [contains, h, Nat.zero_testBit] at hq
    cases hq

theorem meets_iff {S T : StateSet} :
    S.meets T = true ↔ ∃ q, S.contains q = true ∧ T.contains q = true := by
  rw [meets, Bool.not_eq_true', isEmpty_eq_false_iff]
  simp

@[simp] theorem meets_empty (T : StateSet) : meets ∅ T = false := by
  rw [Bool.eq_false_iff, Ne, meets_iff]
  simp

theorem singleton_meets (q : State) (T : StateSet) : (singleton q).meets T = T.contains q := by
  rw [Bool.eq_iff_iff, meets_iff]
  simp

@[simp] theorem contains_ofList (l : List State) (q : State) :
    (ofList l).contains q = decide (q ∈ l) := by
  suffices h : ∀ S : StateSet, (l.foldl insert S).contains q = (S.contains q || decide (q ∈ l)) by
    rw [ofList, h, contains_empty, Bool.false_or]
  induction l with
  | nil => simp
  | cons p l ih =>
    intro S
    rw [List.foldl_cons, ih, contains_insert, Bool.or_assoc]
    simp [eq_comm]

theorem empty_union (S : StateSet) : ∅ ∪ S = S := ext fun q => by simp

theorem union_empty (S : StateSet) : S ∪ ∅ = S := ext fun q => by simp

theorem ofList_singleton (q : State) : ofList [q] = singleton q := empty_union (singleton q)

/-- To insert states one after another is to add the set of them. -/
theorem foldl_insert (states : List State) (S : StateSet) : states.foldl insert S = S ∪ ofList states := by
  induction states generalizing S with
  | nil => exact (union_empty S).symm
  | cons p states ih =>
    rw [List.foldl_cons, ih]
    refine eq_of_contains_iff fun q => ?_
    simp only [contains_union_iff, contains_insert_iff, contains_ofList, decide_eq_true_eq, List.mem_cons, or_assoc,
      eq_comm (a := q)]

private theorem testBit_gather (p : State → Bool) (w : Nat) (offset i : Nat) :
    (gather p w offset).testBit i = (decide (i < 1 <<< w) && p (offset + i)) := by
  simp only [Nat.one_shiftLeft]
  induction w generalizing offset i with
  | zero =>
    rw [gather]
    by_cases hi : i = 0
    · subst hi
      cases p offset <;> simp_all
    · have h1 : Nat.testBit 1 i = false := by
        rw [← Bool.not_eq_true, Nat.testBit_one_eq_true_iff_self_eq_zero]
        exact hi
      cases p offset <;> simp [hi, h1]
  | succ w ih =>
    rw [gather, Nat.testBit_or, Nat.testBit_shiftLeft, Nat.one_shiftLeft, ih, ih]
    by_cases hi : i < 2 ^ w
    · have hge : ¬ i ≥ 2 ^ w := by omega
      have hlt : i < 2 ^ (w + 1) := by rw [Nat.pow_succ]; omega
      simp [hi, hge, hlt]
    · have hge : i ≥ 2 ^ w := by omega
      have hsum : offset + 2 ^ w + (i - 2 ^ w) = offset + i := by omega
      have hiff : i - 2 ^ w < 2 ^ w ↔ i < 2 ^ (w + 1) := by rw [Nat.pow_succ]; omega
      simp [hi, hge, hsum, hiff]

@[simp] theorem contains_below (n : Nat) (p : State → Bool) (q : State) :
    (below n p).contains q = (decide (q < n) && p q) := by
  rw [below, contains, testBit_gather, Nat.zero_add]
  by_cases hq : q < n
  · have hw : q < 1 <<< (n.log2 + 1) := by
      rw [Nat.one_shiftLeft]
      exact Nat.lt_trans hq Nat.lt_log2_self
    rw [decide_eq_true hw, decide_eq_true hq, Bool.true_and]
  · simp [hq]

theorem lt_of_contains_below {n : Nat} {p : State → Bool} {q : State} (h : (below n p).contains q = true) :
    q < n := by
  rw [contains_below, Bool.and_eq_true, decide_eq_true_eq] at h
  exact h.1

theorem lt_of_contains_insert {S : StateSet} {p n q : Nat} (hS : ∀ q : Nat, S.contains q = true → q < n) (hp : p < n)
    (h : (S.insert p).contains q = true) : q < n := by
  rcases contains_insert_iff.1 h with h | rfl
  · exact hS q h
  · exact hp

theorem lt_of_contains_singleton {p n q : Nat} (hp : p < n) (h : (singleton p).contains q = true) : q < n := by
  exact contains_singleton_iff.1 h ▸ hp

@[simp] theorem contains_full (n : Nat) (q : State) : (full n).contains q = decide (q < n) := by
  rw [full, contains, Nat.one_shiftLeft]
  exact Nat.testBit_two_pow_sub_one n q

@[simp] theorem contains_shift (S : StateSet) (offset q : State) :
    (S.shift offset).contains q = (decide (offset ≤ q) && S.contains (q - offset)) :=
  Nat.testBit_shiftLeft _

theorem contains_shift_iff {S : StateSet} {offset q : State} :
    (S.shift offset).contains q ↔ ∃ r, S.contains r ∧ q = offset + r := by
  rw [contains_shift, Bool.and_eq_true, decide_eq_true_eq]
  constructor
  · intro ⟨hle, hq⟩
    exact ⟨q - offset, hq, (Nat.add_sub_of_le hle).symm⟩
  · intro ⟨r, hr, hq⟩
    subst hq
    rw [Nat.add_sub_cancel_left]
    exact ⟨Nat.le_add_right offset r, hr⟩

theorem lt_of_contains_shift {S : StateSet} {offset n q : Nat} (hS : ∀ q : Nat, S.contains q = true → q < n)
    (h : (S.shift offset).contains q = true) : q < offset + n := by
  obtain ⟨r, hr, rfl⟩ := contains_shift_iff.1 h
  exact Nat.add_lt_add_left (hS r hr) offset

private theorem onesBelow_eq (bits offset count : Nat) (rest : List State) :
    onesBelow bits offset count rest =
      ((List.range count).filter bits.testBit).map (offset + ·) ++ rest := by
  induction count generalizing rest with
  | zero => rfl
  | succ count ih =>
    rw [onesBelow, ih, List.range_succ, List.filter_append, List.map_append, List.append_assoc]
    by_cases h : bits.testBit count = true <;> simp [h]

theorem filter_testBit_zero (n : Nat) : (List.range n).filter (Nat.testBit 0) = [] := by
  simp

private theorem onesFrom_eq (w offset : Nat) {bits : Nat} (rest : List State)
    (h : ∀ q, bits.testBit q = true → q < 1 <<< (w + 5)) :
    onesFrom w offset bits rest =
      ((List.range (1 <<< (w + 5))).filter bits.testBit).map (offset + ·) ++ rest := by
  induction w generalizing offset bits rest with
  | zero =>
    rw [onesFrom]
    split
    · rename_i h0
      rw [h0, filter_testBit_zero]
      rfl
    · exact onesBelow_eq _ _ _ _
  | succ w ih =>
    simp only [Nat.one_shiftLeft] at h ih ⊢
    have htwo : 2 ^ (w + 1 + 5) = 2 ^ (w + 5) + 2 ^ (w + 5) := by
      rw [show w + 1 + 5 = w + 5 + 1 from rfl, Nat.pow_succ, Nat.mul_two]
    rw [onesFrom]
    split
    · rename_i h0
      rw [h0, filter_testBit_zero]
      rfl
    · have hlow : ∀ q, (bits % 2 ^ 2 ^ (w + 5)).testBit q = true → q < 2 ^ (w + 5) := by
        intro q hq
        rw [Nat.testBit_mod_two_pow, Bool.and_eq_true, decide_eq_true_eq] at hq
        exact hq.1
      have hhigh : ∀ q, (bits >>> 2 ^ (w + 5)).testBit q = true → q < 2 ^ (w + 5) := by
        intro q hq
        rw [Nat.testBit_shiftRight] at hq
        have hlt := h _ hq
        omega
      have hfilter : (List.range (2 ^ (w + 5))).filter (bits % 2 ^ 2 ^ (w + 5)).testBit =
          (List.range (2 ^ (w + 5))).filter bits.testBit := by
        refine List.filter_congr fun q hq => ?_
        rw [Nat.testBit_mod_two_pow]
        simp [List.mem_range.1 hq]
      simp only [Nat.one_shiftLeft, Nat.and_two_pow_sub_one_eq_mod]
      rw [ih _ _ hlow, ih _ _ hhigh, hfilter, htwo, List.range_add, List.filter_append,
        List.filter_map, List.map_append, List.map_map, List.append_assoc]
      have hshift : (bits >>> 2 ^ (w + 5)).testBit = bits.testBit ∘ fun q => 2 ^ (w + 5) + q :=
        funext fun q => Nat.testBit_shiftRight _
      have hadd : (fun q => offset + 2 ^ (w + 5) + q) =
          (fun q => offset + q) ∘ fun q => 2 ^ (w + 5) + q := funext fun q => Nat.add_assoc _ _ _
      rw [hshift, hadd]

theorem filter_range_testBit {bits n m : Nat} (h : ∀ q, bits.testBit q = true → q < n) (hnm : n ≤ m) :
    (List.range m).filter bits.testBit = (List.range n).filter bits.testBit := by
  obtain ⟨k, rfl⟩ := Nat.exists_eq_add_of_le hnm
  have hnil : (List.range k).filter (bits.testBit ∘ fun q => n + q) = [] := by
    refine List.filter_eq_nil_iff.2 fun q _ hq => ?_
    exact Nat.not_lt.2 (Nat.le_add_right n q) (h _ hq)
  rw [List.range_add, List.filter_append, List.filter_map, hnil, List.map_nil, List.append_nil]

theorem lt_log2_of_contains {S : StateSet} {q : State} (hq : S.contains q = true) : q < S.bits.log2 + 1 := by
  refine Nat.lt_of_not_le fun hle => ?_
  have hzero := Nat.testBit_lt_two_pow
    (Nat.lt_of_lt_of_le (Nat.lt_log2_self (n := S.bits)) (Nat.pow_le_pow_right (by decide) hle))
  rw [contains, hzero] at hq
  cases hq

/-- The list of a set holds the members among the numbers below any bound above all of them. -/
theorem toList_eq {S : StateSet} {n : Nat} (h : ∀ q, S.contains q = true → q < n) :
    S.toList = (List.range n).filter S.contains := by
  have hw : S.bits.log2 + 1 ≤ 1 <<< ((S.bits.log2 + 1).log2 - 4 + 5) := by
    rw [Nat.one_shiftLeft]
    refine Nat.le_of_lt (Nat.lt_of_lt_of_le Nat.lt_log2_self (Nat.pow_le_pow_right (by decide) ?_))
    omega
  have hbits : ∀ q, S.bits.testBit q = true → q < 1 <<< ((S.bits.log2 + 1).log2 - 4 + 5) :=
    fun q hq => Nat.lt_of_lt_of_le (lt_log2_of_contains hq) hw
  rw [toList, onesFrom_eq _ _ _ hbits, List.append_nil]
  simp only [Nat.zero_add, List.map_id']
  rcases Nat.le_total n (1 <<< ((S.bits.log2 + 1).log2 - 4 + 5)) with hn | hn
  · exact filter_range_testBit h hn
  · exact (filter_range_testBit hbits hn).symm

@[simp] theorem mem_toList {S : StateSet} {q : State} : q ∈ S.toList ↔ S.contains q = true := by
  rw [toList_eq fun _ => lt_log2_of_contains, List.mem_filter, List.mem_range]
  exact ⟨And.right, fun h => ⟨lt_log2_of_contains h, h⟩⟩

theorem mem_map_toList {S : StateSet} {offset q : State} :
    q ∈ S.toList.map (offset + ·) ↔ (S.shift offset).contains q := by
  simp only [List.mem_map, mem_toList, contains_shift_iff, eq_comm (a := q)]

theorem ofList_map_toList (S : StateSet) (offset : Nat) : ofList (S.toList.map (offset + ·)) = S.shift offset := by
  refine eq_of_contains_iff fun q => ?_
  rw [contains_ofList, decide_eq_true_eq, mem_map_toList]

/-- The members are listed in ascending order. -/
theorem pairwise_toList (S : StateSet) : S.toList.Pairwise (· < ·) := by
  rw [toList_eq fun _ => lt_log2_of_contains]
  exact List.pairwise_lt_range.filter _

theorem nodup_toList (S : StateSet) : S.toList.Nodup :=
  S.pairwise_toList.imp fun h => Nat.ne_of_lt h

@[simp] theorem ofList_toList (S : StateSet) : ofList S.toList = S :=
  ext fun q => by simp

theorem contains_image {f : State → StateSet} {S : StateSet} {q : State} :
    (S.image f).contains q = true ↔ ∃ p, S.contains p = true ∧ (f p).contains q = true := by
  suffices h : ∀ (l : List State) (R : StateSet), (l.foldl (fun R p => R ∪ f p) R).contains q = true ↔
      R.contains q = true ∨ ∃ p ∈ l, (f p).contains q = true by
    rw [image, h]
    simp
  intro l
  induction l with
  | nil => simp
  | cons p l ih =>
    intro R
    rw [List.foldl_cons, ih]
    simp [or_assoc]

/-- The first member is the least one. -/
theorem first?_eq_some_iff {S : StateSet} {q : State} :
    S.first? = some q ↔ S.contains q = true ∧ ∀ p, S.contains p = true → q ≤ p := by
  rw [first?]
  have hsorted := S.pairwise_toList
  cases h : S.toList with
  | nil =>
    have : ∀ p, ¬ S.contains p = true := fun p hp => by
      have := mem_toList.2 hp
      rw [h] at this
      cases this
    simp [this]
  | cons r l =>
    rw [h] at hsorted
    have hr : S.contains r = true := mem_toList.1 (h ▸ List.mem_cons_self)
    have hle : ∀ p, S.contains p = true → r ≤ p := by
      intro p hp
      have := mem_toList.2 hp
      rw [h] at this
      rcases List.mem_cons.1 this with rfl | hp
      · exact Nat.le_refl _
      · exact Nat.le_of_lt ((List.pairwise_cons.1 hsorted).1 p hp)
    simp only [List.head?_cons, Option.some.injEq]
    constructor
    · rintro rfl
      exact ⟨hr, hle⟩
    · rintro ⟨hq, hmin⟩
      exact Nat.le_antisymm (hle q hq) (hmin r hr)

@[simp] theorem first?_singleton (q : State) : (singleton q).first? = some q := by
  rw [first?_eq_some_iff]
  simp

theorem singleton_inj {p q : State} : singleton p = singleton q ↔ p = q := by
  constructor
  · intro h
    have hfirst := congrArg first? h
    rwa [first?_singleton, first?_singleton, Option.some.injEq] at hfirst
  · exact congrArg singleton

end RegularLanguages.StateSet
