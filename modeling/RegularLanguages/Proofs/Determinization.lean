import Mathlib.Data.Finset.Image
import Mathlib.Data.Finset.Range
import RegularLanguages.Automaton.Determinization
import RegularLanguages.Proofs.Numbering

/-!
The subset construction comes to an end and keeps the language: after any word, the deterministic automaton
is in the state that stands for the configuration.
-/
namespace RegularLanguages

theorem StateSet.bits_injective : Function.Injective StateSet.bits := fun S T h => by
  cases S
  cases T
  exact congrArg StateSet.mk h

theorem StateSet.bits_lt {S : StateSet} {n : Nat} (h : ∀ q, S.contains q → q < n) :
    S.bits < 1 <<< n := by
  rw [Nat.one_shiftLeft]
  refine Nat.lt_pow_two_of_testBit _ fun q hq => ?_
  exact Bool.eq_false_iff.2 fun hc => Nat.not_lt.2 hq (h q hc)

namespace Automaton

variable {A : Automaton}

theorem Path.lt_width {p q : State} {word : List String} (h : A.Path p word q)
    (hp : p < A.transitions.width) : q < A.transitions.width := by
  induction h with
  | nil => exact hp
  | epsilon edge _ ih | symbol edge _ ih =>
    obtain ⟨k, _, hk⟩ := edge
    exact ih (Transitions.lt_width hk)

private theorem move_bits_lt (S : StateSet) (a : SymbolId) : (A.move S a).bits < 1 <<< A.transitions.width := by
  refine StateSet.bits_lt fun q hq => ?_
  obtain ⟨p, s, _, hs, h⟩ := contains_move.1 hq
  exact h.lt_width (Transitions.lt_width hs)

private theorem read_empty (name : String) : A.read ∅ name = ∅ := by
  refine StateSet.ext fun q => ?_
  rw [StateSet.contains_empty, Bool.eq_false_iff]
  intro h
  obtain ⟨p, _, hp, _⟩ := contains_read.1 h
  simp at hp

private theorem foldl_read_empty (word : List String) : word.foldl A.read ∅ = ∅ := by
  induction word with
  | nil => rfl
  | cons name word ih => rw [List.foldl_cons, read_empty, ih]

theorem nextSubsets_getElem? {S T : StateSet} {a : SymbolId} :
    (A.nextSubsets S)[a]? = some (some T) ↔ a < A.alphabet.size ∧ T.isEmpty = false ∧ A.move S a = T := by
  simp only [nextSubsets, Alphabet.ids, List.getElem?_map, Option.map_eq_some_iff,
    List.getElem?_eq_some_iff, List.length_range, List.getElem_range, exists_prop]
  constructor
  · rintro ⟨b, ⟨hb, rfl⟩, h⟩
    split at h
    · cases h
    · rename_i hne
      cases h
      exact ⟨hb, Bool.eq_false_iff.2 hne, rfl⟩
  · rintro ⟨ha, hne, rfl⟩
    exact ⟨a, ⟨ha, rfl⟩, by simp [hne]⟩

/-- Every configuration but the first is a set of targets, so the bound on the search is never what ends it. -/
theorem subsets_complete (A : Automaton) :
    Exploration.Complete StateSet.bits A.nextSubsets (A.closure A.starts) A.subsets := by
  let U : Finset StateSet :=
    insert (A.closure A.starts) ((Finset.range (1 <<< A.transitions.width)).image StateSet.mk)
  refine Exploration.explore_complete StateSet.bits_injective U (fun T hT => ?_) ?_
  · induction hT with
    | refl => exact Finset.mem_insert_self _ _
    | tail _ hstep =>
      obtain ⟨a, ha⟩ := List.getElem?_of_mem hstep
      obtain ⟨_, _, rfl⟩ := nextSubsets_getElem?.1 ha
      refine Finset.mem_insert_of_mem (Finset.mem_image.2 ⟨_, Finset.mem_range.2 ?_, rfl⟩)
      exact move_bits_lt _ _
  · refine (Finset.card_insert_le _ _).trans (Nat.succ_le_succ ?_)
    exact Finset.card_image_le.trans (Finset.card_range _).le

theorem determinize_numbers (A : Automaton) :
    Numbers StateSet.bits A.nextSubsets (A.closure A.starts) A.subsets A.determinize :=
  { subsets_complete A with numStates_eq := rfl, starts_eq := rfl, transitions_eq := rfl }

theorem determinize_breadthFirst (A : Automaton) : A.determinize.BreadthFirst := by
  refine ⟨StateSet, StateSet.bits, A.nextSubsets, _, _, StateSet.bits_injective, determinize_numbers A,
    fun S _ => ?_⟩
  rw [nextSubsets, List.length_map]
  exact List.length_range

private theorem after?_determinize (word : List String) {i : State} {S : StateSet}
    (hi : A.subsets.found[i]? = some S) :
    match A.determinize.after? (some i) word with
    | some j => A.subsets.found[j]? = some (word.foldl A.read S)
    | none => word.foldl A.read S = ∅ := by
  have hN := determinize_numbers A
  induction word generalizing i S with
  | nil => exact hi
  | cons name word ih =>
    rw [after?_cons, List.foldl_cons]
    match hj : A.determinize.step? (some i) name with
    | some j =>
      obtain ⟨_, a, hp, ha, hnext⟩ := step?_eq_some_iff.1 hj
      obtain rfl := Option.some.inj hp
      obtain ⟨S', T, hS', hT, hjT⟩ := hN.next?_iff.1 hnext
      obtain rfl := Option.some.inj (hi.symm.trans hS')
      obtain ⟨_, _, hmove⟩ := nextSubsets_getElem?.1 hT
      have hread : A.read S name = T := by
        change A.alphabet.id? name = some a at ha
        rw [read, ha]
        exact hmove
      exact hread ▸ ih hjT
    | none =>
      have hread : A.read S name = ∅ := by
        rw [read]
        split
        · rename_i a ha
          by_contra hne
          have hnonempty : (A.move S a).isEmpty = false := Bool.eq_false_iff.2 (mt StateSet.isEmpty_iff.1 hne)
          have hT := nextSubsets_getElem?.2 ⟨Alphabet.lt_size_of_id? ha, hnonempty, rfl⟩
          obtain ⟨j, hjT⟩ := hN.found_of_reaches
            ((hN.reached S (Array.mem_of_getElem? hi)).tail (List.mem_of_getElem? hT))
          have := (step?_eq_some_iff (A := A.determinize)).2 ⟨i, a, rfl, ha, hN.next?_iff.2 ⟨S, _, hi, hT, hjT⟩⟩
          rw [hj] at this
          cases this
        · rfl
      rw [after?_none, hread, foldl_read_empty]

/-- A word leads to the state that stands for its configuration. -/
theorem found_of_after?_determinize {word : List String} {i : State}
    (h : A.determinize.after? (some 0) word = some i) : A.subsets.found[i]? = some (A.configuration word) := by
  have hafter := after?_determinize word (determinize_numbers A).first
  rwa [h] at hafter

/-- Nothing but the empty configuration is lost. -/
theorem exists_after?_determinize {word : List String} (h : (A.configuration word).isEmpty = false) :
    ∃ i, A.determinize.after? (some 0) word = some i := by
  have hafter := after?_determinize word (determinize_numbers A).first
  cases hi : A.determinize.after? (some 0) word with
  | some i => exact ⟨i, rfl⟩
  | none =>
    rw [hi] at hafter
    exact absurd (StateSet.isEmpty_iff.2 hafter) (Bool.eq_false_iff.1 h)

/-- Only the start may stand for no state of `A` at all. -/
theorem nonempty_of_next?_determinize {i j : State} {a : SymbolId} {S : StateSet}
    (h : A.determinize.next? i a = some j) (hS : A.subsets.found[j]? = some S) : ∃ q, S.contains q := by
  obtain ⟨_, T, _, hT, hj⟩ := (determinize_numbers A).next?_iff.1 h
  obtain rfl := Option.some.inj (hj.symm.trans hS)
  exact StateSet.isEmpty_eq_false_iff.1 (nextSubsets_getElem?.1 hT).2.1

theorem exists_word_determinize {i : State} (hi : i < A.determinize.numStates) :
    ∃ word, A.determinize.after? (some 0) word = some i := by
  refine (determinize_numbers A).exists_word (fun S => ?_) hi
  rw [nextSubsets, List.length_map]
  exact List.length_range.le

theorem determinize_isDeterministic (A : Automaton) : A.determinize.isDeterministic :=
  (determinize_numbers A).isDeterministic

theorem contains_finals_determinize {i : State} {S : StateSet} (hi : A.subsets.found[i]? = some S) :
    A.determinize.finals.contains i = S.meets A.finals := by
  change (StateSet.below A.subsets.found.size fun i => (A.subsets.found[i]?.getD ∅).meets A.finals).contains i = _
  rw [StateSet.contains_below, hi, decide_eq_true (Array.getElem?_eq_some_iff.1 hi).1]
  rfl

theorem accepts_determinize (A : Automaton) (word : List String) :
    A.determinize.accepts word = A.accepts word := by
  have hN := determinize_numbers A
  rw [accepts_eq_acceptsFrom hN.isDeterministic, hN.first?_starts, acceptsFrom, accepts, configuration]
  have hafter := after?_determinize word hN.first
  cases hj : A.determinize.after? (some 0) word with
  | some j =>
    rw [hj] at hafter
    exact contains_finals_determinize hafter
  | none =>
    rw [hj] at hafter
    change word.foldl A.read (A.closure A.starts) = ∅ at hafter
    rw [hafter, StateSet.meets_empty]
    rfl

/-- The subset construction has no subset left to expand when it stops, and its result is deterministic, has
the same symbols under the same numbers, and accepts the same words. -/
theorem determinize_exact (A : Automaton) :
    A.subsets.pending? = none ∧ A.determinize.isDeterministic ∧
      A.determinize.alphabet = A.alphabet ∧ ∀ word, A.determinize.accepts word = A.accepts word :=
  ⟨(subsets_complete A).finished, determinize_isDeterministic A, rfl, accepts_determinize A⟩

end Automaton

end RegularLanguages
