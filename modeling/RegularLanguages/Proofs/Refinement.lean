import RegularLanguages.Proofs.Splitting

/-!
Partition refinement ends with rows together exactly when they accept the same words. Two invariants carry
it: rows that accept the same words are never told apart, and rows of one part that a symbol takes to
different parts are still to be told apart by one of the two.
-/
namespace RegularLanguages.Table

def after (T : Table) (r : Nat) (word : List SymbolId) : Nat := word.foldl T.target r

def acceptsFrom (T : Table) (r : Nat) (word : List SymbolId) : Bool := T.finals.contains (T.after r word)

/-- Two rows accept the same words over the symbols of the table. -/
def Equivalent (T : Table) (p q : Nat) : Prop :=
  ∀ word : List SymbolId, (∀ a ∈ word, a < T.numSymbols) → T.acceptsFrom p word = T.acceptsFrom q word

/-- Rows lead to rows, and only rows accept. -/
structure Closed (T : Table) : Prop where
  target_lt : ∀ r < T.numRows, ∀ a < T.numSymbols, T.target r a < T.numRows
  finals_lt : ∀ r, T.finals.contains r → r < T.numRows

variable {T : Table}

theorem Equivalent.target {p q : Nat} (h : T.Equivalent p q) {a : SymbolId} (ha : a < T.numSymbols) :
    T.Equivalent (T.target p a) (T.target q a) := fun word hw =>
  h (a :: word) fun b hb => by
    rcases List.mem_cons.1 hb with rfl | hb
    · exact ha
    · exact hw b hb

private theorem mem_foldl_modify (f : Nat → Nat) (l : List Nat) (S : Array (List Nat)) (x r : Nat) :
    r ∈ ((l.foldl (fun S r => S.modify (f r) (r :: ·)) S)[x]?).getD [] ↔
      r ∈ (S[x]?).getD [] ∨ (r ∈ l ∧ f r = x ∧ x < S.size) := by
  induction l generalizing S with
  | nil => simp
  | cons s l ih =>
    rw [List.foldl_cons, ih, Array.size_modify, Array.getElem?_modify]
    by_cases hx : x < S.size
    · by_cases hs : f s = x
      · simp only [hs, if_true, Array.getElem?_eq_getElem hx, Option.map_some, Option.getD_some,
          List.mem_cons]
        grind
      · simp only [hs, if_false, List.mem_cons]
        grind
    · simp [hx]

/-- The rows that lead into `S` on `a`. -/
theorem contains_predecessors (hT : T.Closed) {a : SymbolId} (ha : a < T.numSymbols) (S : StateSet)
    (r : Nat) :
    (predecessors ((T.sources[a]?).getD #[]) S).contains r ↔
      r < T.numRows ∧ S.contains (T.target r a) := by
  have hsources : (T.sources[a]?).getD #[] = T.sourcesOn a := by
    simp [sources, ha]
  simp only [predecessors, StateSet.contains_ofList, decide_eq_true_eq, List.mem_flatMap,
    StateSet.mem_toList, hsources, sourcesOn, mem_foldl_modify, List.mem_range, Array.size_replicate]
  constructor
  · rintro ⟨x, hx, h | ⟨hr, rfl, _⟩⟩
    · simp [Array.getElem?_replicate] at h
      split at h <;> simp at h
    · exact ⟨hr, hx⟩
  · rintro ⟨hr, hx⟩
    exact ⟨_, hx, Or.inr ⟨hr, rfl, hT.target_lt r hr a ha⟩⟩

/-- What holds of the partition before the `turn`th turn. Parts take their turns in the order of their
positions, so the turns to come are those from `turn` on. -/
structure Refining (T : Table) (turn : Nat) (R : Refinement) : Prop where
  valid : R.Valid T.numRows
  coarse : ∀ p < T.numRows, ∀ q < T.numRows, T.Equivalent p q → R.partOf p = R.partOf q
  finals : ∀ p < T.numRows, ∀ q < T.numRows, R.partOf p = R.partOf q →
    T.finals.contains p = T.finals.contains q
  pending : ∀ p < T.numRows, ∀ q < T.numRows, R.partOf p = R.partOf q → ∀ a < T.numSymbols,
    R.partOf (T.target p a) = R.partOf (T.target q a) ∨
      turn ≤ R.partOf (T.target p a) * T.numSymbols + a ∨
      turn ≤ R.partOf (T.target q a) * T.numSymbols + a

theorem turn_div {k i a : Nat} (ha : a < k) : (i * k + a) / k = i := by
  rw [Nat.mul_comm, Nat.mul_add_div (Nat.zero_lt_of_lt ha), Nat.div_eq_of_lt ha, Nat.add_zero]

theorem turn_mod {k i a : Nat} (ha : a < k) : (i * k + a) % k = a := by
  rw [Nat.mul_add_mod', Nat.mod_eq_of_lt ha]

private theorem turn_inj {k i j a b : Nat} (ha : a < k) (hb : b < k) (h : i * k + a = j * k + b) :
    i = j ∧ a = b := by
  have hdiv := congrArg (· / k) h
  have hmod := congrArg (· % k) h
  rw [turn_div ha, turn_div hb] at hdiv
  rw [turn_mod ha, turn_mod hb] at hmod
  exact ⟨hdiv, hmod⟩

private theorem turn_lt {k i j a b : Nat} (hb : b < k) (h : i < j) : i * k + b < j * k + a := by
  have := Nat.mul_le_mul_right k (Nat.succ_le_of_lt h)
  rw [Nat.succ_mul] at this
  omega

section Turn

variable {R R' : Refinement} {alike : Nat → Nat → Prop} {i b : Nat}

private theorem pending_of_together (h : R.Splits T.numRows alike R') (hi : i < R.parts.size)
    (hb : b < T.numSymbols) {x y : Nat} (hx : x < T.numRows) (hy : y < T.numRows)
    (he : R.partOf x = R.partOf y) (hne : R'.partOf x ≠ R'.partOf y) (a : SymbolId) :
    i * T.numSymbols + b < R'.partOf x * T.numSymbols + a ∨
      i * T.numSymbols + b < R'.partOf y * T.numSymbols + a := by
  -- Rows taken apart by a split have turns to come: one of them is in a new part.
  rcases h.stays x hx with hsx | hsx
  · rcases h.stays y hy with hsy | hsy
    · exact absurd (hsx.trans (he.trans hsy.symm)) hne
    · exact Or.inr (turn_lt hb (Nat.lt_of_lt_of_le hi hsy))
  · exact Or.inl (turn_lt hb (Nat.lt_of_lt_of_le hi hsx))

private theorem pending_of_turn (hT : T.Closed) (h : R.Splits T.numRows alike R')
    (hi : i < R.parts.size) (hb : b < T.numSymbols) {p q : Nat} (hp : p < T.numRows)
    (hq : q < T.numRows)
    (halike : R.partOf (T.target p b) = i → R.partOf (T.target q b) = i) {a : SymbolId}
    (ha : a < T.numSymbols) (hne : R'.partOf (T.target p a) ≠ R'.partOf (T.target q a))
    (hturn : i * T.numSymbols + b ≤ R.partOf (T.target p a) * T.numSymbols + a) :
    i * T.numSymbols + b < R'.partOf (T.target p a) * T.numSymbols + a ∨
      i * T.numSymbols + b < R'.partOf (T.target q a) * T.numSymbols + a := by
  -- After the turn of part `i` on `b`, a comparison left to the part of `x` is still left to it, unless it was
  -- this very turn, which has told `p` and `q` apart.
  have hx := hT.target_lt p hp a ha
  have hy := hT.target_lt q hq a ha
  rcases h.stays _ hx with hstay | hgone
  · rcases Nat.lt_or_eq_of_le hturn with hlater | hnow
    · exact Or.inl (hstay ▸ hlater)
    · obtain ⟨hpart, rfl⟩ := turn_inj hb ha hnow
      exact pending_of_together h hi hb hx hy (hpart.symm.trans (halike hpart.symm).symm) hne b
  · exact Or.inl (turn_lt hb (Nat.lt_of_lt_of_le hi hgone))

end Turn

private theorem splitBy_refining (hT : T.Closed) {R : Refinement} {i b : Nat} {S : StateSet}
    (hR : T.Refining (i * T.numSymbols + b) R) (hi : i < R.parts.size) (hb : b < T.numSymbols)
    (hS : ∀ r, S.contains r ↔ r < T.numRows ∧ R.partOf (T.target r b) = i) :
    T.Refining (i * T.numSymbols + b + 1) (R.splitBy S) := by
  have h := R.splitBy_splits S hR.valid fun r hr => ((hS r).1 hr).1
  refine ⟨h.valid, fun p hp q hq he => ?_, fun p hp q hq he => ?_, fun p hp q hq he a ha => ?_⟩
  · refine (h.together_iff p hp q hq).2 ⟨hR.coarse p hp q hq he, ?_⟩
    have htargets := hR.coarse _ (hT.target_lt p hp _ hb) _ (hT.target_lt q hq _ hb) (he.target hb)
    rw [Bool.eq_iff_iff, hS, hS, htargets]
    simp [hp, hq]
  · exact hR.finals p hp q hq ((h.together_iff p hp q hq).1 he).1
  · obtain ⟨hold, hin⟩ := (h.together_iff p hp q hq).1 he
    have hsame : R.partOf (T.target p b) = i ↔ R.partOf (T.target q b) = i := by
      rw [Bool.eq_iff_iff, hS, hS] at hin
      simpa [hp, hq] using hin
    by_cases hne : (R.splitBy S).partOf (T.target p a) = (R.splitBy S).partOf (T.target q a)
    · exact Or.inl hne
    · refine Or.inr ?_
      have hx := hT.target_lt p hp a ha
      have hy := hT.target_lt q hq a ha
      rcases hR.pending p hp q hq hold a ha with htogether | hleft | hright
      · exact pending_of_together h hi hb hx hy htogether hne a
      · exact pending_of_turn hT h hi hb hp hq hsame.1 ha hne hleft
      · exact (pending_of_turn hT h hi hb hq hp hsame.2 ha (Ne.symm hne) hright).symm

/-- When no part is left to take a turn, rows of one part lead to the same parts. -/
theorem Refining.target_together (hT : T.Closed) {R : Refinement} {turn : Nat} (hR : T.Refining turn R)
    (hturn : R.parts.size * T.numSymbols ≤ turn) {p q : Nat} (hp : p < T.numRows) (hq : q < T.numRows)
    (he : R.partOf p = R.partOf q) {a : SymbolId} (ha : a < T.numSymbols) :
    R.partOf (T.target p a) = R.partOf (T.target q a) := by
  have hdone : ∀ x < T.numRows, R.partOf x * T.numSymbols + a < turn := fun x hx =>
    Nat.lt_of_lt_of_le (turn_lt (a := 0) ha (hR.valid.partOf_lt x hx)) hturn
  have hx := hdone _ (hT.target_lt p hp a ha)
  have hy := hdone _ (hT.target_lt q hq a ha)
  rcases hR.pending p hp q hq he a ha with h | h | h
  · exact h
  · omega
  · omega

/-- One turn keeps the invariants. -/
theorem refineOn_refining (hT : T.Closed) {R : Refinement} {turn : Nat} (hR : T.Refining turn R)
    (hk : 0 < T.numSymbols) : T.Refining (turn + 1) (T.refineOn T.sources R turn) := by
  obtain ⟨i, b, hb, rfl⟩ : ∃ i b, b < T.numSymbols ∧ turn = i * T.numSymbols + b :=
    ⟨_, _, Nat.mod_lt turn hk, (Nat.div_add_mod' turn _).symm⟩
  rw [refineOn, turn_div hb, turn_mod hb]
  split
  · rename_i part hpart
    have hi : i < R.parts.size := (Array.getElem?_eq_some_iff.1 hpart).1
    have hpartAt : R.partAt i = part := by rw [Refinement.partAt, hpart]; rfl
    refine splitBy_refining hT hR hi hb fun r => ?_
    rw [contains_predecessors hT hb, ← hpartAt]
    refine and_congr_right fun hr => ?_
    rw [hR.valid.contains_partAt i hi]
    exact and_iff_right (hT.target_lt r hr b hb)
  · rename_i hnone
    have hi : R.parts.size ≤ i := Array.getElem?_eq_none_iff.1 hnone
    have hle := Nat.le_trans (Nat.mul_le_mul_right T.numSymbols hi) (Nat.le_add_right _ b)
    exact ⟨hR.valid, hR.coarse, hR.finals, fun p hp q hq he a ha =>
      Or.inl (hR.target_together hT hle hp hq he ha)⟩

private theorem contains_initialParts {P : StateSet} (hP : P ∈ T.initialParts) :
    P = T.finals ∨ P = StateSet.full T.numRows \ T.finals := by
  have := (List.mem_filter.1 hP).1
  simpa using this

/-- The accepting rows and the others satisfy the invariants before the first turn. -/
theorem initial_refining (hT : T.Closed) : T.Refining 0 (.ofParts T.numRows T.initialParts) := by
  have hvalid : (Refinement.ofParts T.numRows T.initialParts).Valid T.numRows := by
    refine Refinement.ofParts_valid (fun P hP => ?_) (fun P hP r hr => ?_) (fun r hr => ?_) ?_
    · have := (List.mem_filter.1 hP).2
      exact StateSet.isEmpty_eq_false_iff.1 (by simpa using this)
    · rcases contains_initialParts hP with rfl | rfl
      · exact hT.finals_lt r hr
      · simp only [StateSet.contains_sdiff, StateSet.contains_full, Bool.and_eq_true,
          decide_eq_true_eq] at hr
        exact hr.1
    · have hmem : ∀ P ∈ [T.finals, StateSet.full T.numRows \ T.finals], P.contains r →
          P ∈ T.initialParts := fun P hP h => by
        refine List.mem_filter.2 ⟨hP, ?_⟩
        rw [Bool.not_eq_true']
        exact StateSet.isEmpty_eq_false_iff.2 ⟨r, h⟩
      by_cases hf : T.finals.contains r
      · exact ⟨_, hmem T.finals (by simp) hf, hf⟩
      · have hout : (StateSet.full T.numRows \ T.finals).contains r := by simp [hr, hf]
        exact ⟨_, hmem _ (by simp) hout, hout⟩
    · refine List.Pairwise.filter _ ?_
      simp only [List.pairwise_cons, List.mem_singleton, forall_eq]
      exact ⟨fun r hr hout => by simp [hr] at hout, by simp⟩
  refine ⟨hvalid, fun p hp q hq he => ?_, fun p hp q hq he => ?_, fun _ _ _ _ _ _ _ =>
    Or.inr (Or.inl (Nat.zero_le _))⟩
  · have hfinals : T.finals.contains p = T.finals.contains q := he [] (by simp)
    refine Refinement.partOf_ofParts_congr hp hq fun P hP => ?_
    rcases contains_initialParts hP with rfl | rfl
    · exact hfinals
    · simp [hp, hq, hfinals]
  · have hlt := hvalid.partOf_lt q hq
    have hinp := (hvalid.contains_partAt _ hlt p).2 ⟨hp, he⟩
    have hinq := hvalid.contains_partOf hq
    have hP : (Refinement.ofParts T.numRows T.initialParts).partAt
        ((Refinement.ofParts T.numRows T.initialParts).partOf q) ∈ T.initialParts :=
      Refinement.mem_parts_iff.2 ⟨_, hlt, rfl⟩
    rcases contains_initialParts hP with hf | hf
    all_goals
      rw [hf] at hinp hinq
      simp_all

def refineFor (T : Table) (turns : Nat) : Refinement :=
  (List.range turns).foldl (T.refineOn T.sources) (.ofParts T.numRows T.initialParts)

theorem refineFor_succ (T : Table) (turns : Nat) :
    T.refineFor (turns + 1) = T.refineOn T.sources (T.refineFor turns) turns := by
  rw [refineFor, List.range_succ, List.foldl_concat, refineFor]

/-- The turns keep the invariants. -/
theorem refineFor_refining (hT : T.Closed) {turns : Nat} (hle : turns ≤ T.numRows * T.numSymbols) :
    T.Refining turns (T.refineFor turns) := by
  induction turns with
  | zero => exact initial_refining hT
  | succ m ih =>
    rw [refineFor_succ]
    exact refineOn_refining hT (ih (by omega)) (Nat.pos_of_mul_pos_left (Nat.zero_lt_of_lt hle))

theorem refine_refining (hT : T.Closed) : T.Refining (T.numRows * T.numSymbols) T.refine :=
  refineFor_refining hT (Nat.le_refl _)

/-- In the end rows are together exactly when they accept the same words. -/
theorem partOf_refine_eq_iff (hT : T.Closed) {p q : Nat} (hp : p < T.numRows) (hq : q < T.numRows) :
    T.refine.partOf p = T.refine.partOf q ↔ T.Equivalent p q := by
  have hR := refine_refining hT
  have hturn := Nat.mul_le_mul_right T.numSymbols hR.valid.size_parts_le
  refine ⟨fun he word hw => ?_, hR.coarse p hp q hq⟩
  induction word generalizing p q with
  | nil => exact hR.finals p hp q hq he
  | cons a word ih =>
    have ha := hw a List.mem_cons_self
    exact ih (hT.target_lt p hp a ha) (hT.target_lt q hq a ha) (hR.target_together hT hturn hp hq he ha)
      fun b hb => hw b (List.mem_cons_of_mem _ hb)

end RegularLanguages.Table
