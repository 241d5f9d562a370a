import RegularLanguages.Automaton.Minimization
import RegularLanguages.Proofs.Numbering
import RegularLanguages.Proofs.Reduced
import RegularLanguages.Proofs.Saturation
import RegularLanguages.Proofs.Tables

/-!
Minimization keeps the language and reaches the fewest states: the numbered parts of the refined partition
form a reduced automaton.
-/
namespace RegularLanguages

namespace Table

private def previousParts (T : Table) : StateMap :=
  .ofList ((T.partRows T.refine).toList.zipIdx.flatMap fun e =>
    e.1.map fun target => (target, .singleton e.2))

private def nextParts (T : Table) (i : Nat) : List (Option Nat) :=
  ((T.partRows T.refine)[i]?.getD []).map fun target =>
    if (T.liveParts T.refine).contains target then some target else none

private theorem contains_previousParts {T : Table} {i j : Nat} :
    (T.previousParts.find j).contains i ↔
      ∃ row, (T.partRows T.refine)[i]? = some row ∧ j ∈ row := by
  simp only [previousParts, StateMap.contains_find_ofList, List.mem_flatMap, List.mem_map,
    Prod.mk.injEq, Prod.exists, List.mem_zipIdx_iff_getElem?, Array.getElem?_toList]
  constructor
  · rintro ⟨S, ⟨row, k, hrow, _, hj, rfl, rfl⟩, hS⟩
    obtain rfl : k = i := by simpa using hS
    exact ⟨row, hrow, hj⟩
  · rintro ⟨row, hrow, hj⟩
    exact ⟨_, ⟨row, i, hrow, j, hj, rfl, rfl⟩, by simp⟩

private theorem contains_liveParts_iff_reaches (T : Table) (i : Nat) :
    (T.liveParts T.refine).contains i ↔
      ∃ j, (T.finalParts T.refine).contains j ∧ StateSet.Reaches T.previousParts.find j i := by
  apply StateSet.contains_saturate (Finset.range T.refine.parts.size)
  · intro j i hi
    obtain ⟨row, hrow, _⟩ := contains_previousParts.1 hi
    have hlt := (Array.getElem?_eq_some_iff.1 hrow).1
    simpa [partRows, representatives] using hlt
  · simp

namespace Represents

variable {T : Table} {A : Automaton} {start : State}

theorem refined (h : T.Represents A start) : T.refine.Valid T.numRows := (refine_refining h.closed).valid

private theorem exists_row (h : T.Represents A start) {i : Nat} (hi : i < T.refine.parts.size) :
    ∃ r < T.numRows, T.refine.partOf r = i := h.refined.inhabited i hi

private theorem partOf_target (h : T.Represents A start) {p q : Nat} (hp : p < T.numRows) (hq : q < T.numRows)
    (he : T.refine.partOf p = T.refine.partOf q) {a : SymbolId} (ha : a < T.numSymbols) :
    T.refine.partOf (T.target p a) = T.refine.partOf (T.target q a) := by
  have htargets := ((Table.partOf_refine_eq_iff h.closed hp hq).1 he).target ha
  exact (Table.partOf_refine_eq_iff h.closed (h.closed.target_lt p hp a ha)
    (h.closed.target_lt q hq a ha)).2 htargets

theorem representatives_getElem? (h : T.Represents A start) {r : Nat} (hr : r < T.numRows) :
    ∃ s < T.numRows, T.refine.partOf s = T.refine.partOf r ∧
      (representatives T.refine)[T.refine.partOf r]? = some s := by
  have hi := h.refined.partOf_lt r hr
  have hmem := h.refined.contains_partOf hr
  obtain ⟨s, l, hl⟩ := List.exists_cons_of_ne_nil (List.ne_nil_of_mem (StateSet.mem_toList.2 hmem))
  have hs : (T.refine.partAt (T.refine.partOf r)).contains s :=
    StateSet.mem_toList.1 (hl ▸ List.mem_cons_self)
  obtain ⟨hlt, he⟩ := (h.refined.contains_partAt _ hi s).1 hs
  refine ⟨s, hlt, he, ?_⟩
  rw [Refinement.partAt, Array.getElem?_eq_getElem hi] at hl
  simp only [Option.getD_some] at hl
  simp [representatives, hi, StateSet.first?, hl]

theorem partRows_getElem? (h : T.Represents A start) {r : Nat} (hr : r < T.numRows) (a : SymbolId) :
    ((T.partRows T.refine)[T.refine.partOf r]?.getD [])[a]? =
      if a < T.numSymbols then some (T.refine.partOf (T.target r a)) else none := by
  obtain ⟨s, hs, he, hrep⟩ := h.representatives_getElem? hr
  have hlen := h.length_targets s hs
  simp only [partRows, Array.getElem?_map, hrep, Option.map_some, Option.getD_some, List.getElem?_map]
  split
  · rename_i ha
    rw [← h.partOf_target hs hr he ha, target]
    rw [List.getElem?_eq_getElem (hlen ▸ ha)]
    rfl
  · rename_i ha
    rw [List.getElem?_eq_none (hlen ▸ Nat.not_lt.1 ha)]
    rfl

theorem contains_finalParts (h : T.Represents A start) {r : Nat} (hr : r < T.numRows) :
    (T.finalParts T.refine).contains (T.refine.partOf r) = (T.state? r).any A.finals.contains := by
  obtain ⟨s, hs, he, hrep⟩ := h.representatives_getElem? hr
  have hlt := (Array.getElem?_eq_some_iff.1 hrep).1
  rw [finalParts, StateSet.contains_below, decide_eq_true hlt, Bool.true_and, hrep, Option.any_some,
    ← h.contains_finals r hr]
  exact (refine_refining h.closed).finals s hs r hr he

private theorem contains_previous (h : T.Represents A start) {r : Nat} (hr : r < T.numRows) {j : Nat} :
    (T.previousParts.find j).contains (T.refine.partOf r) ↔
      ∃ a < T.numSymbols, T.refine.partOf (T.target r a) = j := by
  rw [contains_previousParts]
  constructor
  · rintro ⟨row, hrow, hj⟩
    obtain ⟨a, ha⟩ := List.getElem?_of_mem hj
    have hcell := h.partRows_getElem? hr a
    rw [hrow, Option.getD_some, ha] at hcell
    split at hcell
    · rename_i hlt
      exact ⟨a, hlt, (Option.some.inj hcell).symm⟩
    · cases hcell
  · rintro ⟨a, ha, rfl⟩
    have hcell := h.partRows_getElem? hr a
    rw [if_pos ha] at hcell
    cases hrow : (T.partRows T.refine)[T.refine.partOf r]? with
    | none => simp [hrow] at hcell
    | some row =>
      rw [hrow] at hcell
      exact ⟨row, rfl, List.mem_of_getElem? hcell⟩

/-- A part is live when some word is accepted from its rows. -/
theorem contains_liveParts (h : T.Represents A start) {r : Nat} (hr : r < T.numRows) :
    (T.liveParts T.refine).contains (T.refine.partOf r) ↔ ∃ word, A.acceptsFrom (T.state? r) word := by
  rw [contains_liveParts_iff_reaches]
  constructor
  · rintro ⟨j, hj, hreach⟩
    generalize hi : T.refine.partOf r = i at hreach
    induction hreach generalizing r with
    | refl =>
      subst hi
      rw [h.contains_finalParts hr] at hj
      exact ⟨[], hj⟩
    | tail _ hstep ih =>
      subst hi
      obtain ⟨a, ha, he⟩ := (h.contains_previous hr).1 hstep
      obtain ⟨word, hword⟩ := ih (h.closed.target_lt r hr a ha) he
      obtain ⟨name, hname⟩ := Alphabet.exists_name (h.numSymbols_eq ▸ ha)
      refine ⟨name :: word, ?_⟩
      rw [Automaton.acceptsFrom_cons, h.step?_state? hr hname]
      exact hword
  · rintro ⟨word, hword⟩
    induction word generalizing r with
    | nil => exact ⟨_, (h.contains_finalParts hr).trans hword, .refl⟩
    | cons name word ih =>
      rw [Automaton.acceptsFrom_cons] at hword
      cases ha : A.alphabet.id? name with
      | none => simp [Automaton.step?_unknown ha, Automaton.acceptsFrom_none] at hword
      | some a =>
        have hlt : a < T.numSymbols := h.numSymbols_eq ▸ Alphabet.lt_size_of_id? ha
        rw [h.step?_state? hr ha] at hword
        obtain ⟨j, hj, hreach⟩ := ih (h.closed.target_lt r hr a hlt) hword
        exact ⟨j, hj, hreach.tail ((h.contains_previous hr).2 ⟨a, hlt, rfl⟩)⟩

private theorem nextParts_getElem? (h : T.Represents A start) {r : Nat} (hr : r < T.numRows)
    {a j : Nat} : (T.nextParts (T.refine.partOf r))[a]? = some (some j) ↔
      a < T.numSymbols ∧ T.refine.partOf (T.target r a) = j ∧ (T.liveParts T.refine).contains j := by
  rw [nextParts, List.getElem?_map, h.partRows_getElem? hr]
  by_cases ha : a < T.numSymbols
  · simp only [ha, if_true, Option.map_some, Option.some.injEq, true_and]
    constructor
    · intro hj
      split at hj
      · rename_i hlive
        cases hj
        exact ⟨rfl, hlive⟩
      · cases hj
    · rintro ⟨rfl, hlive⟩
      rw [if_pos hlive]
  · simp [ha]

private theorem exists_row_of_reaches (h : T.Represents A start) {i : Nat}
    (hi : Exploration.Reaches T.nextParts (T.refine.partOf 0) i) :
    ∃ r < T.numRows, T.refine.partOf r = i := by
  induction hi with
  | refl => exact ⟨0, h.zero_lt, rfl⟩
  | tail _ hstep ih =>
    obtain ⟨r, hr, rfl⟩ := ih
    obtain ⟨a, ha⟩ := List.getElem?_of_mem hstep
    obtain ⟨hlt, he, _⟩ := (h.nextParts_getElem? hr).1 ha
    exact ⟨_, h.closed.target_lt r hr a hlt, he⟩

private theorem numbers_quotient (h : T.Represents A start) :
    Automaton.Numbers id T.nextParts (T.refine.partOf 0) (T.numbering T.refine)
      (quotient A T T.refine) := by
  have hE : Exploration.Complete id T.nextParts (T.refine.partOf 0) (T.numbering T.refine) := by
    apply Exploration.explore_complete Function.injective_id (Finset.range T.refine.parts.size)
    · intro i hi
      obtain ⟨r, hr, rfl⟩ := h.exists_row_of_reaches hi
      exact Finset.mem_range.2 (h.refined.partOf_lt r hr)
    · simp
  exact { hE with numStates_eq := rfl, starts_eq := rfl, transitions_eq := rfl }

private theorem next?_quotient_of_live (h : T.Represents A start) {i r : Nat} {a : SymbolId}
    (hr : r < T.numRows) (ha : a < T.numSymbols)
    (hi : (T.numbering T.refine).found[i]? = some (T.refine.partOf r))
    (hlive : (T.liveParts T.refine).contains (T.refine.partOf (T.target r a))) :
    ∃ j, (quotient A T T.refine).next? i a = some j ∧
      (T.numbering T.refine).found[j]? = some (T.refine.partOf (T.target r a)) := by
  have hN := h.numbers_quotient
  have hcell := (h.nextParts_getElem? hr).2 ⟨ha, rfl, hlive⟩
  have hreach := (hN.reached _ (Array.mem_of_getElem? hi)).tail (List.mem_of_getElem? hcell)
  obtain ⟨j, hj⟩ := hN.found_of_reaches hreach
  exact ⟨j, hN.next?_iff.2 ⟨_, _, hi, hcell, hj⟩, hj⟩

private theorem next?_quotient_of_dead (h : T.Represents A start) {i r : Nat} {a : SymbolId}
    (hr : r < T.numRows) (hi : (T.numbering T.refine).found[i]? = some (T.refine.partOf r))
    (hdead : ¬ (T.liveParts T.refine).contains (T.refine.partOf (T.target r a))) :
    (quotient A T T.refine).next? i a = none := by
  rw [Option.eq_none_iff_forall_ne_some]
  intro j hj
  obtain ⟨y, z, hy, hz, _⟩ := h.numbers_quotient.next?_iff.1 hj
  obtain rfl := Option.some.inj (hi.symm.trans hy)
  obtain ⟨_, he, hz⟩ := (h.nextParts_getElem? hr).1 hz
  exact hdead (he ▸ hz)

private theorem acceptsFrom_quotient (h : T.Represents A start) (word : List String) {i r : Nat}
    (hr : r < T.numRows) (hi : (T.numbering T.refine).found[i]? = some (T.refine.partOf r)) :
    (quotient A T T.refine).acceptsFrom (some i) word = A.acceptsFrom (T.state? r) word := by
  induction word generalizing i r with
  | nil =>
    have hlt := (Array.getElem?_eq_some_iff.1 hi).1
    change (StateSet.below _ _).contains i = _
    rw [StateSet.contains_below, decide_eq_true hlt, Bool.true_and, hi, Option.any_some,
      h.contains_finalParts hr]
    rfl
  | cons name word ih =>
    rw [Automaton.acceptsFrom_cons, Automaton.acceptsFrom_cons]
    cases ha : A.alphabet.id? name with
    | none =>
      rw [Automaton.step?_unknown ha, Automaton.step?_unknown (A := quotient A T T.refine) ha,
        Automaton.acceptsFrom_none, Automaton.acceptsFrom_none]
    | some a =>
      have hlt : a < T.numSymbols := h.numSymbols_eq ▸ Alphabet.lt_size_of_id? ha
      have htarget := h.closed.target_lt r hr a hlt
      have hstep : (quotient A T T.refine).step? (some i) name = (quotient A T T.refine).next? i a := by
        change ((A.alphabet.id? name).bind _) = _
        rw [ha]
        rfl
      rw [hstep, h.step?_state? hr ha]
      by_cases hlive : (T.liveParts T.refine).contains (T.refine.partOf (T.target r a))
      · obtain ⟨j, hnext, hj⟩ := h.next?_quotient_of_live hr hlt hi hlive
        rw [hnext]
        exact ih htarget hj
      · rw [h.next?_quotient_of_dead hr hi hlive, Automaton.acceptsFrom_none]
        rw [h.contains_liveParts htarget, not_exists] at hlive
        exact (Bool.eq_false_iff.2 (hlive word)).symm

private theorem exists_row_of_found (h : T.Represents A start) {i j : Nat}
    (hi : (T.numbering T.refine).found[i]? = some j) : ∃ r < T.numRows, T.refine.partOf r = j :=
  h.exists_row_of_reaches (h.numbers_quotient.reached j (Array.mem_of_getElem? hi))

private theorem length_nextParts (h : T.Represents A start) {r : Nat} (hr : r < T.numRows) :
    (T.nextParts (T.refine.partOf r)).length = A.alphabet.size := by
  rw [nextParts, List.length_map, ← h.numSymbols_eq]
  refine Nat.le_antisymm ?_ (Nat.le_of_not_lt fun hlt => ?_)
  · have hcell := h.partRows_getElem? hr T.numSymbols
    rwa [if_neg (Nat.lt_irrefl _), List.getElem?_eq_none_iff] at hcell
  · have hcell := h.partRows_getElem? hr ((T.partRows T.refine)[T.refine.partOf r]?.getD []).length
    rw [if_pos hlt, List.getElem?_eq_none (Nat.le_refl _)] at hcell
    cases hcell

private theorem length_nextParts_le (h : T.Represents A start) (i : Nat) :
    (T.nextParts i).length ≤ A.alphabet.size := by
  cases hi : (T.partRows T.refine)[i]? with
  | none =>
    rw [nextParts, hi]
    exact Nat.zero_le _
  | some row =>
    have hlt := (Array.getElem?_eq_some_iff.1 hi).1
    obtain ⟨r, hr, rfl⟩ := h.exists_row (by simpa [partRows, representatives] using hlt)
    exact (h.length_nextParts hr).le

-- What the numbering keeps of a transition is live.
private theorem next?_quotient_live (h : T.Represents A start) {i j : State} {a : SymbolId}
    (hj : (quotient A T T.refine).next? i a = some j) :
    ∃ word, (quotient A T T.refine).acceptsFrom (some j) word := by
  obtain ⟨x, z, hx, hz, hj⟩ := h.numbers_quotient.next?_iff.1 hj
  obtain ⟨r, hr, rfl⟩ := h.exists_row_of_found hx
  obtain ⟨hlt, rfl, hlive⟩ := (h.nextParts_getElem? hr).1 hz
  have htarget := h.closed.target_lt r hr a hlt
  obtain ⟨word, hword⟩ := (h.contains_liveParts htarget).1 hlive
  exact ⟨word, (h.acceptsFrom_quotient word htarget hj).trans hword⟩

private theorem quotient_distinct (h : T.Represents A start) {i j : State}
    (hi : i < (quotient A T T.refine).numStates) (hj : j < (quotient A T T.refine).numStates)
    (hsame : ∀ word, (quotient A T T.refine).acceptsFrom (some i) word =
      (quotient A T T.refine).acceptsFrom (some j) word) : i = j := by
  have hfoundi := Array.getElem?_eq_getElem hi
  have hfoundj := Array.getElem?_eq_getElem hj
  obtain ⟨p, hp, hpi⟩ := h.exists_row_of_found hfoundi
  obtain ⟨q, hq, hqj⟩ := h.exists_row_of_found hfoundj
  rw [← hpi] at hfoundi
  rw [← hqj] at hfoundj
  have hparts : T.refine.partOf p = T.refine.partOf q := by
    refine (h.partOf_refine_eq_iff hp hq).2 fun word => ?_
    rw [← h.acceptsFrom_quotient word hp hfoundi, ← h.acceptsFrom_quotient word hq hfoundj, hsame]
  exact h.numbers_quotient.indexed.position_unique hfoundi (hparts ▸ hfoundj)

theorem reduced_quotient (h : T.Represents A start) : (quotient A T T.refine).Reduced where
  deterministic := h.numbers_quotient.isDeterministic
  first?_starts := h.numbers_quotient.first?_starts
  numStates_pos := (Array.getElem?_eq_some_iff.1 h.numbers_quotient.first).1
  next_lt i a j hj := by
    obtain ⟨_, _, _, _, hfound⟩ := h.numbers_quotient.next?_iff.1 hj
    exact (Array.getElem?_eq_some_iff.1 hfound).1
  next_live _ _ _ hj := h.next?_quotient_live hj
  reached _ hi := h.numbers_quotient.exists_word h.length_nextParts_le hi
  distinct _ hi _ hj hsame := h.quotient_distinct hi hj hsame

theorem breadthFirst_quotient (h : T.Represents A start) : (quotient A T T.refine).BreadthFirst := by
  refine ⟨Nat, id, T.nextParts, _, _, Function.injective_id, h.numbers_quotient, fun i hi => ?_⟩
  obtain ⟨r, hr, rfl⟩ := h.exists_row_of_reaches (h.numbers_quotient.reached i hi)
  exact h.length_nextParts hr

theorem accepts_quotient (h : T.Represents A start) (hA : A.isDeterministic)
    (hstart : A.starts.first? = some start) (word : List String) :
    (quotient A T T.refine).accepts word = A.accepts word := by
  rw [h.reduced_quotient.accepts_eq, Automaton.accepts_eq_acceptsFrom hA, hstart, ← h.state?_zero]
  exact h.acceptsFrom_quotient word h.zero_lt h.numbers_quotient.first

end Represents

end Table

namespace Automaton

/-- The minimal automaton of a deterministic one is reduced, over the same alphabet, for the same language. -/
theorem minimize_reduced {A : Automaton} (hA : A.isDeterministic) :
    ∃ M, A.minimize = .ok M ∧ M.Reduced ∧ M.alphabet = A.alphabet ∧
      ∀ word, M.accepts word = A.accepts word := by
  obtain ⟨start, hstart, _⟩ := exists_start hA
  have h := Table.ofStart_represents A start
  refine ⟨Table.quotient A (Table.ofStart A start) (Table.ofStart A start).refine, ?_, h.reduced_quotient,
    rfl, h.accepts_quotient hA hstart⟩
  rw [minimize, Table.ofAutomaton, if_pos hA, hstart]
  rfl

/-- Minimization answers the quotient of a table. -/
theorem exists_table_of_minimize {A M : Automaton} (h : A.minimize = .ok M) :
    ∃ T start, Table.Represents T A start ∧ M = Table.quotient A T T.refine := by
  rw [minimize] at h
  cases hT : Table.ofAutomaton A with
  | error failure => simp [hT, Except.map] at h
  | ok T =>
    obtain ⟨start, hstart⟩ := Table.exists_represents hT
    rw [hT] at h
    exact ⟨T, start, hstart, (Except.ok.inj h).symm⟩

theorem minimize_breadthFirst {A M : Automaton} (h : A.minimize = .ok M) : M.BreadthFirst := by
  obtain ⟨T, start, hT, rfl⟩ := exists_table_of_minimize h
  exact hT.breadthFirst_quotient

/-- Minimization succeeds on the deterministic automata alone. The result is deterministic, has the same
symbols under the same numbers, accepts the same words, and has no more states than any deterministic automaton
that accepts them. -/
theorem minimize_exact (A : Automaton) :
    (A.isDeterministic = true → ∃ M, A.minimize = .ok M ∧ M.isDeterministic ∧ M.alphabet = A.alphabet ∧
      (∀ word, M.accepts word = A.accepts word) ∧
      ∀ B : Automaton, B.WellFormed → B.isDeterministic → (∀ word, B.accepts word = A.accepts word) →
        M.numStates ≤ B.numStates) ∧
    (A.isDeterministic = false → A.minimize = .error .notDeterministic) := by
  refine ⟨fun hA => ?_, fun hA => ?_⟩
  · obtain ⟨M, hM, hreduced, halphabet, hlanguage⟩ := minimize_reduced hA
    refine ⟨M, hM, hreduced.deterministic, halphabet, hlanguage, fun B hB hdet hsame => ?_⟩
    exact hreduced.numStates_le hdet hB.staysBelow fun word => (hsame word).trans (hlanguage word).symm
  · rw [minimize, Table.ofAutomaton, hA]
    rfl

theorem minimize_circle_le : (circle 2).isDeterministic ∧ ∃ M, (circle 2).minimize = .ok M ∧
    M.isDeterministic ∧ M.alphabet = (circle 2).alphabet ∧
      (∀ word, M.accepts word = (circle 2).accepts word) ∧ M.numStates ≤ 2 := by
  have hcircle : (circle 2).isDeterministic := by decide
  obtain ⟨M, hM, hdet, halphabet, hlanguage, hleast⟩ := (minimize_exact (circle 2)).1 hcircle
  exact ⟨hcircle, M, hM, hdet, halphabet, hlanguage,
    hleast (circle 2) (circle_wellFormed (by decide)) hcircle fun _ => rfl⟩

end Automaton

end RegularLanguages
