import Mathlib.Data.Set.Function
import RegularLanguages.Proofs.Combination
import RegularLanguages.Proofs.Steps

/-!
The numbers that unions, concatenations and stars compute. The number of states is held against its bound when states
are added; whatever is computed after that is the number of a state, and no two states have the same one.
-/
namespace RegularLanguages.Automaton

variable {A B R : Automaton}

/-- The number of what a state stands for: first the states of the first operand, then those of the second, which are
`n` and `m`, and then the new ones. -/
def Origin.number (n m : Nat) : Origin → Nat
  | left q => q
  | right q => n + q
  | fresh k => n + m + k

/-- The states of operands with `n` and `m` states, and `count` new ones. -/
def Origin.Among (n m count : Nat) : Origin → Prop
  | left q => q < n
  | right q => q < m
  | fresh k => k < count

/-- Every number of a state is that of one origin. -/
theorem Origin.bijOn_number (n m count : Nat) :
    Set.BijOn (number n m) {o | o.Among n m count} (Set.Iio (n + m + count)) := by
  refine ⟨fun o ho => ?_, fun o ho o' ho' he => ?_, fun k hk => ?_⟩
  · cases o with
    | left q => exact Nat.lt_add_right count (Nat.lt_add_right m ho)
    | right q => exact Nat.lt_add_right count (Nat.add_lt_add_left ho n)
    | fresh k => exact Nat.add_lt_add_left ho (n + m)
  · cases o <;> cases o' <;> simp only [Set.mem_ofPred_eq, Among, number] at ho ho' he <;> grind
  · rw [Set.mem_Iio] at hk
    rcases Nat.lt_or_ge k n with hleft | hn
    · exact ⟨.left k, hleft, rfl⟩
    · rcases Nat.lt_or_ge k (n + m) with hright | hm
      · exact ⟨.right (k - n), Nat.sub_lt_left_of_lt_add hn hright, Nat.add_sub_of_le hn⟩
      · exact ⟨.fresh (k - (n + m)), Nat.sub_lt_left_of_lt_add hm hk, Nat.add_sub_of_le hm⟩

section
variable {accept : Origin → Nat → Bool} {n m count N : Nat} {S : StateSet}

/-- The check accepts the numbers of the origins. -/
def Accepts (accept : Origin → Nat → Bool) (n m count : Nat) : Prop :=
  ∀ o : Origin, o.Among n m count → accept o (o.number n m)

namespace Accepts

theorem leftCopy_eq (q : State) : leftCopy (∅ : Automaton).numStates q = ⟨.left q, q⟩ := congrArg _ (Nat.zero_add q)

theorem left_check (h : Accepts accept n m count) {q : State} (hq : q < n) :
    (leftCopy (∅ : Automaton).numStates q).check accept = .ok ((∅ : Automaton).numStates + q) := by
  refine if_pos ?_
  rw [leftCopy_eq]
  exact h (.left q) hq

private theorem right_check (h : Accepts accept n m count) {q : State} (hq : q < m) :
    (rightCopy n q).check accept = .ok (n + q) := if_pos (h (.right q) hq)

theorem left (h : Accepts accept n m count) (hN : n ≤ N) (hS : ∀ q, S.contains q → q < n) :
    Computes accept N (S.toList.map (leftCopy (∅ : Automaton).numStates)) S.toList := by
  have hlt : ∀ q ∈ S.toList, q < n := fun q hq => hS q (StateSet.mem_toList.1 hq)
  rw [List.map_congr_left fun q _ => leftCopy_eq q]
  refine ⟨List.forall_mem_map.2 fun q hq => h (.left q) (hlt q hq), List.forall_mem_map.2 fun q hq => ?_, ?_⟩
  · exact Nat.lt_of_lt_of_le (hlt q hq) hN
  · rw [List.map_map]
    exact List.map_id _

theorem right (h : Accepts accept n m count) (hN : n + m ≤ N) (hS : ∀ q, S.contains q → q < m) :
    Computes accept N (S.toList.map (rightCopy n)) (S.toList.map (n + ·)) := by
  have hlt : ∀ q ∈ S.toList, q < m := fun q hq => hS q (StateSet.mem_toList.1 hq)
  refine ⟨List.forall_mem_map.2 fun q hq => h (.right q) (hlt q hq), List.forall_mem_map.2 fun q hq => ?_,
    List.map_map⟩
  exact Nat.lt_of_lt_of_le (Nat.add_lt_add_left (hlt q hq) n) hN

theorem fresh (h : Accepts accept n m count) {k : Nat} (hN : n + m + k < N) (hk : k < count) :
    Computes accept N [⟨.fresh k, n + m + k⟩] [n + m + k] := .singleton (h (.fresh k) hk) hN

end Accepts

theorem WellFormed.sideBySideSteps_eq (hA : A.WellFormed) (hB : B.WellFormed)
    (h : Accepts accept A.numStates B.numStates count) : sideBySideSteps accept A B =
      (withinBounds (A.numStates + B.numStates) fun _ => A.sideBySide B).map fun R => (R, A.numStates) := by
  have hleft := hA.embedSteps_eq (R := ∅) fun q hq => h.left_check hq
  have hright : embedSteps accept (rightCopy A.numStates) ((∅ : Automaton).embed A) B = _ :=
    hB.embedSteps_eq fun q hq => by
      rw [numStates_embed_empty]
      exact h.right_check hq
  have hcount : (∅ : Automaton).numStates + A.numStates = A.numStates := numStates_embed_empty A
  rw [hcount] at hleft
  rw [numStates_embed_empty] at hright
  unfold sideBySideSteps
  rcases Nat.lt_or_ge maxStates A.numStates with hmany | hfit
  · rw [hleft, withinBounds_of_lt hmany, withinBounds_of_lt (Nat.lt_add_right _ hmany)]
    rfl
  · rw [hleft, withinBounds_of_le hfit]
    simp only [bind, Except.bind]
    rw [numStates_embed_empty, hright]
    rcases Nat.lt_or_ge maxStates (A.numStates + B.numStates) with hmany | hfit
    · rw [withinBounds_of_lt hmany, withinBounds_of_lt hmany]
      rfl
    · rw [withinBounds_of_le hfit, withinBounds_of_le hfit]
      rfl

private theorem starts_embed_empty (A : Automaton) : ((∅ : Automaton).embed A).starts = ∅ := rfl

private theorem finals_embed_empty (A : Automaton) : ((∅ : Automaton).embed A).finals = ∅ := rfl

theorem starts_sideBySide (A B : Automaton) : (A.sideBySide B).starts = ∅ := rfl

theorem finals_sideBySide (A B : Automaton) : (A.sideBySide B).finals = ∅ := rfl

theorem finals_linkAll (A : Automaton) (sources targets : List State) :
    (A.linkAll sources targets).finals = A.finals := rfl

private theorem linkAll_append (A : Automaton) (p : State) (targets rest : List State) :
    (A.linkAll [p] targets).linkAll [p] rest = A.linkAll [p] (targets ++ rest) := by
  simp [linkAll, Transitions.addAll]

/-- Where a union fits, each of its steps registers numbers of states only. -/
theorem WellFormed.unionSteps_eq (hA : A.WellFormed) (hB : B.WellFormed)
    (h : Accepts accept A.numStates B.numStates 1) : unionSteps accept A B = A.union B := by
  rw [unionSteps, hA.sideBySideSteps_eq hB h, Automaton.union]
  rcases Nat.lt_or_ge maxStates (A.numStates + B.numStates) with hmany | hfit
  · rw [withinBounds_of_lt hmany, withinBounds_of_lt (Nat.lt_succ_of_lt hmany)]
    rfl
  rw [withinBounds_of_le hfit]
  simp only [bind, Except.bind, Except.map]
  rcases Nat.lt_or_ge maxStates (A.numStates + B.numStates + 1) with hmany | hroom
  · rw [outcome_addState_of_le (by rw [numStates_sideBySide]; exact Nat.le_of_lt_succ hmany), withinBounds_of_lt hmany]
  have hstart : Computes accept (A.numStates + B.numStates + 1) [⟨.fresh 0, A.numStates + B.numStates⟩]
      [A.numStates + B.numStates] := h.fresh (Nat.lt_succ_self _) Nat.zero_lt_one
  have hleft : ∀ {S : StateSet}, (∀ q, S.contains q → q < A.numStates) → _ :=
    h.left (N := A.numStates + B.numStates + 1) (Nat.le_add_right_of_le (Nat.le_add_right _ _))
  have hright : ∀ {S : StateSet}, (∀ q, S.contains q → q < B.numStates) → _ :=
    h.right (Nat.le_succ (A.numStates + B.numStates))
  rw [outcome_addState (by rw [numStates_sideBySide]; exact hroom), withinBounds_of_le hroom, numStates_sideBySide]
  simp only
  rw [hstart.addStarts_eq (Nat.le_refl _)]
  simp only
  rw [hstart.addLinks_eq (hleft hA.starts_lt) (Nat.le_refl _)]
  simp only
  rw [hstart.addLinks_eq (hright hB.starts_lt) (Nat.le_refl _)]
  simp only
  rw [(hleft hA.finals_lt).addFinals_eq (Nat.le_refl _)]
  simp only
  rw [(hright hB.finals_lt).addFinals_eq (Nat.le_refl _)]
  simp only [linkAll_append, finals_linkAll, starts_sideBySide, finals_sideBySide, StateSet.empty_union,
    StateSet.ofList_singleton, StateSet.ofList_toList, StateSet.ofList_map_toList]
  rfl

theorem WellFormed.concatenateSteps_eq (hA : A.WellFormed) (hB : B.WellFormed)
    (h : Accepts accept A.numStates B.numStates 0) : concatenateSteps accept A B = A.concatenate B := by
  rw [concatenateSteps, hA.sideBySideSteps_eq hB h, Automaton.concatenate]
  rcases Nat.lt_or_ge maxStates (A.numStates + B.numStates) with hmany | hfit
  · rw [withinBounds_of_lt hmany, withinBounds_of_lt hmany]
    rfl
  have hcount : A.numStates + B.numStates ≤ (A.sideBySide B).numStates := (numStates_sideBySide A B).ge
  have hleft : ∀ {S : StateSet}, (∀ q, S.contains q → q < A.numStates) → _ :=
    h.left (Nat.le_add_right A.numStates B.numStates)
  have hright : ∀ {S : StateSet}, (∀ q, S.contains q → q < B.numStates) → _ := h.right (Nat.le_refl _)
  rw [withinBounds_of_le hfit, withinBounds_of_le hfit]
  simp only [bind, Except.bind, Except.map]
  rw [(hleft hA.starts_lt).addStarts_eq hcount]
  simp only
  rw [(hleft hA.finals_lt).addLinks_eq (hright hB.starts_lt) (by exact hcount)]
  simp only
  rw [(hright hB.finals_lt).addFinals_eq (by exact hcount)]
  simp only
  rw [(hleft hA.finals_lt).addFinals_eq (by exact hcount)]
  simp only [finals_linkAll, starts_sideBySide, finals_sideBySide, StateSet.empty_union, StateSet.ofList_toList,
    StateSet.ofList_map_toList]
  unfold Automaton.chain
  split
  · rfl
  · rw [StateSet.union_empty]
    rfl

theorem WellFormed.kleeneStarSteps_eq (hA : A.WellFormed) (h : Accepts accept A.numStates 0 2) :
    kleeneStarSteps accept A = A.kleeneStar := by
  have hcopy := hA.embedSteps_eq (R := ∅) fun q hq => h.left_check hq
  have hcount : (∅ : Automaton).numStates + A.numStates = A.numStates := numStates_embed_empty A
  rw [kleeneStarSteps, hcopy, hcount, Automaton.kleeneStar]
  rcases Nat.lt_or_ge maxStates A.numStates with hmany | hfit
  · rw [withinBounds_of_lt hmany, withinBounds_of_lt (Nat.lt_add_right 2 hmany)]
    rfl
  rw [withinBounds_of_le hfit]
  simp only [bind, Except.bind]
  rcases Nat.lt_or_ge maxStates (A.numStates + 1) with hmany | hone
  · rw [outcome_addState_of_le (by rw [numStates_embed_empty]; exact Nat.le_of_lt_succ hmany),
      withinBounds_of_lt (Nat.lt_succ_of_lt hmany)]
  rw [outcome_addState (by rw [numStates_embed_empty]; exact hone), numStates_embed_empty]
  simp only
  rcases Nat.lt_or_ge maxStates (A.numStates + 2) with hmany | htwo
  · rw [outcome_addState_of_le (by exact Nat.le_of_lt_succ hmany), withinBounds_of_lt hmany]
  rw [outcome_addState (by exact htwo), withinBounds_of_le htwo]
  have hleft : ∀ {S : StateSet}, (∀ q, S.contains q → q < A.numStates) → _ :=
    h.left (N := A.numStates + 1 + 1) (Nat.le_add_right _ 2)
  have hstart : Computes accept (A.numStates + 1 + 1) [⟨.fresh 0, A.numStates⟩] [A.numStates] :=
    h.fresh (Nat.lt_add_of_pos_right Nat.two_pos) Nat.two_pos
  have hfinish : Computes accept (A.numStates + 1 + 1) [⟨.fresh 1, A.numStates + 1⟩] [A.numStates + 1] :=
    h.fresh (Nat.lt_succ_self _) Nat.one_lt_two
  have hinto : Computes accept (A.numStates + 1 + 1)
      (⟨.fresh 1, A.numStates + 1⟩ :: A.starts.toList.map (leftCopy (∅ : Automaton).numStates))
      ((A.numStates + 1) :: A.starts.toList) := hfinish.append (hleft hA.starts_lt)
  simp only
  rw [hstart.addStarts_eq (Nat.le_refl _)]
  simp only
  rw [hfinish.addFinals_eq (Nat.le_refl _)]
  simp only
  rw [hstart.addLinks_eq hinto (Nat.le_refl _)]
  simp only
  rw [(hleft hA.finals_lt).addLinks_eq ((hleft hA.starts_lt).append hfinish) (by exact Nat.le_refl _)]
  simp only [starts_embed_empty, finals_embed_empty, StateSet.empty_union, StateSet.ofList_singleton]
  rfl

end

end RegularLanguages.Automaton
