import RegularLanguages.Automaton.Worklist
import RegularLanguages.Proofs.Halving
import RegularLanguages.Proofs.Tables
import RegularLanguages.Proofs.WellFormed

/-!
The queue of turns runs empty. Until then the turns that are left are those of the parts in their order, so the partition is
the same as if every part had waited for its turns, and in the end rows are together exactly when they accept the same words.
-/
namespace RegularLanguages

namespace Worklist

variable {T : Table} {W : Worklist} {S : StateSet} {size turns : Nat}

/-- The turns of the parts at the first `size` positions, without those that have been taken. -/
def queue (T : Table) (size turns : Nat) : List (Nat × SymbolId) :=
  (List.range' turns (size * T.numSymbols - turns)).map fun t => (t / T.numSymbols, t % T.numSymbols)

private theorem turnsOf_eq (T : Table) (i : Nat) : T.turnsOf i =
    (List.range' (i * T.numSymbols) T.numSymbols).map fun t => (t / T.numSymbols, t % T.numSymbols) := by
  rw [List.range'_eq_map_range, List.map_map]
  refine List.map_congr_left fun a ha => ?_
  have ha := List.mem_range.1 ha
  exact (Prod.ext (Table.turn_div ha) (Table.turn_mod ha)).symm

/-- A new part takes its turns after all others. -/
theorem queue_append (h : turns ≤ size * T.numSymbols) :
    queue T size turns ++ T.turnsOf size = queue T (size + 1) turns := by
  have hsplit : List.range' turns (size * T.numSymbols - turns) ++ List.range' (size * T.numSymbols) T.numSymbols =
      List.range' turns ((size + 1) * T.numSymbols - turns) := by
    have hstart : turns + (size * T.numSymbols - turns) = size * T.numSymbols := Nat.add_sub_cancel' h
    have hlength : (size + 1) * T.numSymbols - turns = size * T.numSymbols - turns + T.numSymbols := by
      rw [Nat.succ_mul]
      omega
    rw [hlength, ← List.range'_append_1, hstart]
  rw [queue, turnsOf_eq, ← List.map_append, hsplit, queue]

private theorem queue_eq_cons (h : turns < size * T.numSymbols) :
    queue T size turns = (turns / T.numSymbols, turns % T.numSymbols) :: queue T size (turns + 1) := by
  obtain ⟨left, hleft⟩ : ∃ left, size * T.numSymbols - turns = left + 1 := ⟨_, (Nat.succ_pred (by omega)).symm⟩
  have hrest : size * T.numSymbols - (turns + 1) = left := by omega
  rw [queue, hleft, List.range'_succ, List.map_cons, queue, hrest]

theorem queue_eq_nil (h : size * T.numSymbols ≤ turns) : queue T size turns = [] := by
  rw [queue, Nat.sub_eq_zero_of_le h]
  rfl

private theorem start_pending (T : Table) : (start T).pending = queue T T.initialParts.length 0 := by
  change (List.range T.initialParts.length).flatMap T.turnsOf = _
  induction T.initialParts.length with
  | zero => exact (queue_eq_nil (Nat.le_of_eq (Nat.zero_mul _))).symm
  | succ n ih =>
    rw [List.range_succ, List.flatMap_append, ih, List.flatMap_singleton, queue_append (Nat.zero_le _)]

/-- The work-list stands before its turn: the turns that are left are those of its parts. -/
def Waits (T : Table) (turns : Nat) (W : Worklist) : Prop := W.pending = queue T W.refinement.parts.size turns

private theorem foldl_split (S : StateSet) (positions : List Nat) (hW : Waits T turns W)
    (hle : turns ≤ W.refinement.parts.size * T.numSymbols) :
    (positions.foldl (split T S) W).refinement = positions.foldl (Refinement.splitAt S) W.refinement ∧
      Waits T turns (positions.foldl (split T S) W) := by
  induction positions generalizing W with
  | nil => exact ⟨rfl, hW⟩
  | cons i positions ih =>
    rw [List.foldl_cons, List.foldl_cons, Refinement.splitAt, split]
    cases W.refinement.cut? S i with
    | none => exact ih hW hle
    | some s =>
      have hsize := Refinement.size_parts_apply W.refinement s
      refine ih ?_ ?_
      · change W.pending ++ T.turnsOf W.refinement.parts.size = _
        rw [hW, queue_append hle, hsize]
      · rw [hsize, Nat.succ_mul]
        exact Nat.le_add_right_of_le hle

theorem turn_of_pending (h : W.pending = []) : turn T W = W := by rw [turn, h]

private theorem turn_waits (hT : T.Closed) (hR : T.Refining turns W.refinement) (hk : 0 < T.numSymbols)
    (hW : Waits T turns W) :
    (turn T W).refinement = T.refineOn T.sources W.refinement turns ∧ Waits T (turns + 1) (turn T W) := by
  rcases Nat.lt_or_ge turns (W.refinement.parts.size * T.numSymbols) with hlt | hge
  · have hpending := hW.trans (queue_eq_cons hlt)
    have hi : turns / T.numSymbols < W.refinement.parts.size := Nat.div_lt_of_lt_mul (Nat.mul_comm _ _ ▸ hlt)
    have hpart := Array.getElem?_eq_getElem hi
    let S := Table.predecessors (T.sources[turns % T.numSymbols]?.getD #[]) W.refinement.parts[turns / T.numSymbols]
    have hS : ∀ r, S.contains r → r < T.numRows := fun r hr =>
      ((Table.contains_predecessors hT (Nat.mod_lt _ hk) _ r).1 hr).1
    have hturn : turn T W = (S.toList.map W.refinement.partOf).eraseDups.foldl (split T S)
        ⟨W.refinement, queue T W.refinement.parts.size (turns + 1)⟩ := by
      simp only [turn, hpending, hpart, Option.getD_some, S]
    have hrefine : T.refineOn T.sources W.refinement turns = W.refinement.splitBy S := by
      simp only [Table.refineOn, hpart, S]
    rw [hturn, hrefine, Refinement.splitBy_eq_foldl S hR.valid hS]
    exact foldl_split S _ rfl hlt
  · have hpending := hW.trans (queue_eq_nil hge)
    have hnone : W.refinement.parts[turns / T.numSymbols]? = none :=
      Array.getElem?_eq_none ((Nat.le_div_iff_mul_le hk).2 hge)
    rw [turn_of_pending hpending, Table.refineOn, hnone]
    exact ⟨rfl, hpending.trans (queue_eq_nil (Nat.le_succ_of_le hge)).symm⟩

/-- The work-list and the turns by number go on together. -/
theorem after_waits (hT : T.Closed) (hle : turns ≤ T.numRows * T.numSymbols) :
    (after T turns).refinement = T.refineFor turns ∧ Waits T turns (after T turns) := by
  induction turns with
  | zero => exact ⟨rfl, start_pending T⟩
  | succ m ih =>
    obtain ⟨hrefinement, hW⟩ := ih (Nat.le_of_succ_le hle)
    have hk : 0 < T.numSymbols := Nat.pos_of_mul_pos_left (Nat.zero_lt_of_lt hle)
    have hR := hrefinement ▸ Table.refineFor_refining hT (Nat.le_of_succ_le hle)
    rw [Table.refineFor_succ, ← hrefinement]
    exact turn_waits hT hR hk hW

/-- After one turn for each row and symbol no turn is left. -/
theorem after_all (hT : T.Closed) : after T (T.numRows * T.numSymbols) = ⟨T.refine, []⟩ := by
  obtain ⟨hrefinement, hW⟩ := after_waits hT (Nat.le_refl _)
  have hrefine : (after T (T.numRows * T.numSymbols)).refinement = T.refine := hrefinement
  have hsize := (Table.refine_refining hT).valid.size_parts_le
  rw [Waits, hrefine, queue_eq_nil (Nat.mul_le_mul_right _ hsize)] at hW
  rw [← hrefine, ← hW]

theorem after_add_of_pending (h : (after T turns).pending = []) (more : Nat) :
    after T (turns + more) = after T turns := by
  induction more with
  | zero => rfl
  | succ m ih =>
    change turn T (after T (turns + m)) = _
    rw [ih, turn_of_pending h]

private theorem after_eq_of_pending {turns' : Nat} (h : (after T turns).pending = []) (h' : (after T turns').pending = []) :
    after T turns = after T turns' := by
  -- The work-list does not change when it has run empty, so it does not matter when this is found out.
  rcases Nat.le_total turns turns' with hle | hle
  · rw [← Nat.add_sub_cancel' hle, after_add_of_pending h]
  · rw [← Nat.add_sub_cancel' hle, after_add_of_pending h']

/-! ### The splits -/

private theorem foldl_split_remembers {R₀ : Refinement} (S : StateSet) (positions : List Nat) (h : R₀.Remembers W.refinement) :
    R₀.Remembers (positions.foldl (split T S) W).refinement := by
  induction positions generalizing W with
  | nil => exact h
  | cons i positions ih =>
    rw [List.foldl_cons, split]
    cases hcut : W.refinement.cut? S i with
    | none => exact ih h
    | some s => exact ih (h.apply (Refinement.keepsLarger_of_cut? hcut))

private theorem turn_remembers {R₀ : Refinement} (h : R₀.Remembers W.refinement) : R₀.Remembers (turn T W).refinement := by
  rw [turn]
  split
  · exact h
  · exact foldl_split_remembers _ _ h

/-- All that turns do is to split parts and to keep the larger halves. -/
theorem after_remembers (T : Table) (turns : Nat) : (start T).refinement.Remembers (after T turns).refinement := by
  induction turns with
  | zero => exact .start
  | succ m ih => exact turn_remembers ih

end Worklist

namespace Table

variable {T : Table}

/-- The rows by the words that they accept: sets that are not empty, have no row in common and hold all rows, and two rows
are in one set exactly when they accept the same words. -/
structure Classes (T : Table) (parts : List StateSet) : Prop where
  inhabited : ∀ P ∈ parts, P.isEmpty = false
  disjoint : parts.Pairwise fun P Q => Disjoint P.members Q.members
  covers : ∀ r, (∃ P ∈ parts, P.contains r) ↔ r < T.numRows
  together_iff : ∀ p < T.numRows, ∀ q < T.numRows,
    (∃ P ∈ parts, P.contains p ∧ P.contains q) ↔ T.Equivalent p q

theorem refine_classes (hT : T.Closed) : T.Classes T.refine.parts.toList where
  inhabited _ hP := (refine_refining hT).valid.isEmpty_of_mem hP
  disjoint := (refine_refining hT).valid.pairwise_disjoint
  covers _ := (refine_refining hT).valid.exists_part_iff
  together_iff _ hp _ hq := by rw [(refine_refining hT).valid.exists_part_both_iff hp hq, partOf_refine_eq_iff hT hp hq]

theorem refine_history (hT : T.Closed) :
    (Worklist.start T).refinement.History T.refine.splits.toList T.refine := by
  have h := Worklist.after_remembers T (T.numRows * T.numSymbols)
  rwa [Worklist.after_all hT] at h

/-- There is a part at first, every split makes one more, and there are at most as many as rows. -/
theorem size_splits_refine_lt (hT : T.Closed) (hpos : 0 < T.numRows) : T.refine.splits.size < T.numRows := by
  have hfirst : 0 < (Worklist.start T).refinement.parts.size :=
    Nat.zero_lt_of_lt ((initial_refining hT).valid.partOf_lt 0 hpos)
  have hsize := (refine_history hT).size_parts
  have hle := (refine_refining hT).valid.size_parts_le
  rw [Array.length_toList] at hsize
  omega

/-- For the table of an automaton the work-list runs empty, and then its partition is that of `refine`: the classes of rows
that accept the same words. Every split has kept the larger half of a part in its place, and there are fewer splits than
rows. -/
theorem refine_exact {A : Automaton} (h : ofAutomaton A = .ok T) :
    (∃ turns ≤ T.numRows * T.numSymbols, (Worklist.after T turns).pending = []) ∧
      (∀ turns, (Worklist.after T turns).pending = [] → (Worklist.after T turns).refinement = T.refine) ∧
      T.Classes T.refine.parts.toList ∧
      (Worklist.start T).refinement.History T.refine.splits.toList T.refine ∧
      T.refine.splits.size < T.numRows := by
  obtain ⟨start, hT⟩ := exists_represents h
  have hall := Worklist.after_all hT.closed
  refine ⟨⟨_, Nat.le_refl _, congrArg Worklist.pending hall⟩, fun turns hturns => ?_, refine_classes hT.closed,
    refine_history hT.closed, size_splits_refine_lt hT.closed hT.zero_lt⟩
  rw [Worklist.after_eq_of_pending hturns (congrArg Worklist.pending hall), hall]

theorem refine_exact_circle : ∃ T, ofAutomaton (.circle 3) = .ok T ∧
    (∃ turns ≤ T.numRows * T.numSymbols, (Worklist.after T turns).pending = []) ∧
      T.Classes T.refine.parts.toList ∧ T.refine.splits.size < T.numRows := by
  have hcircle : ofAutomaton (.circle 3) = .ok (ofStart (.circle 3) 0) := by
    rw [ofAutomaton, if_pos (by decide)]
    rfl
  obtain ⟨hends, _, hclasses, _, hfewer⟩ := refine_exact hcircle
  exact ⟨_, hcircle, hends, hclasses, hfewer⟩

end Table

end RegularLanguages
