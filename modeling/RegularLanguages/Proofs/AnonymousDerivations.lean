import RegularLanguages.Automaton.Session
import RegularLanguages.Proofs.Anonymity

/-!
Constructions do not look states up by their names: from operands that are equal but for the names of states they
derive automata that are equal but for the names of states, or fail alike. Names may be missing, repeated, or look like
those that the constructions make up.
-/
namespace RegularLanguages

namespace Automaton

/-- Automata that are equal but for the names of states, or equal failures. -/
inductive SameOutcome : Except Failure Automaton → Except Failure Automaton → Prop
  | ok {M N : Automaton} (h : M.SameUpToNames N) : SameOutcome (.ok M) (.ok N)
  | error (e : Failure) : SameOutcome (.error e) (.error e)

theorem SameOutcome.refl (r : Except Failure Automaton) : SameOutcome r r := by
  cases r with
  | ok M => exact .ok (.refl M)
  | error e => exact .error e

variable {M N A A' B B' : Automaton}

namespace SameUpToNames

theorem withSink (h : M.SameUpToNames N) (missing : List (State × SymbolId)) :
    (M.withSink missing).SameUpToNames (N.withSink missing) := by
  refine of_same (congrArg (· + 1) h.numStates_eq) h.alphabet_eq h.starts_eq h.finals_eq ?_
  simp only [Automaton.withSink, h.numStates_eq, h.alphabet_eq]
  exact h.transitions_same.addAll _

theorem removeEpsilon (h : M.SameUpToNames N) : M.removeEpsilon.SameUpToNames N.removeEpsilon := by
  have hbypass : M.bypass = N.bypass := by
    funext q
    simp only [bypass, h.closure_eq, h.finals_eq, h.alphabet_eq, h.edgesOn_eq]
  refine ⟨h.numStates_eq, h.alphabet_eq, h.starts_eq, ?_, ?_⟩
  · simp only [Automaton.removeEpsilon, hbypass, h.numStates_eq]
  · simp only [Automaton.removeEpsilon, hbypass, h.numStates_eq]

theorem reverse (h : M.SameUpToNames N) : M.reverse.SameUpToNames N.reverse := by
  refine ⟨h.numStates_eq, h.alphabet_eq, h.finals_eq, h.starts_eq, ?_⟩
  simp only [Automaton.reverse, h.toList_eq]

theorem flipFinals (h : M.SameUpToNames N) : M.flipFinals.SameUpToNames N.flipFinals := by
  refine ⟨h.numStates_eq, h.alphabet_eq, h.starts_eq, ?_, h.toList_eq⟩
  simp only [Automaton.flipFinals, h.numStates_eq, h.finals_eq]

theorem widened (hA : A.SameUpToNames A') (hB : B.SameUpToNames B') :
    (A.widened B).SameUpToNames (A'.widened B') := by
  refine ⟨hA.numStates_eq, ?_, hA.starts_eq, hA.finals_eq, hA.toList_eq⟩
  simp only [Automaton.widened, hA.alphabet_eq, hB.alphabet_eq]

theorem embed (hA : A.SameUpToNames A') (hB : B.SameUpToNames B') : (A.embed B).SameUpToNames (A'.embed B') := by
  have hrelabel : B.relabel = B'.relabel := by
    funext alphabet l
    cases l with
    | epsilon => rfl
    | symbol a => rw [relabel, relabel, hB.alphabet_eq]
  refine of_same ?_ ?_ hA.starts_eq hA.finals_eq ?_
  · simp only [Automaton.embed, hA.numStates_eq, hB.numStates_eq]
  · simp only [Automaton.embed, hA.alphabet_eq, hB.alphabet_eq]
  · simp only [Automaton.embed, hA.numStates_eq, hA.alphabet_eq, hB.alphabet_eq, hB.toList_eq, hrelabel]
    exact hA.transitions_same.addAll _

theorem linkAll (h : M.SameUpToNames N) (sources targets : List State) :
    (M.linkAll sources targets).SameUpToNames (N.linkAll sources targets) :=
  of_same h.numStates_eq h.alphabet_eq h.starts_eq h.finals_eq (h.transitions_same.addAll _)

/-- New start and final states, and any number of states. -/
theorem withEnds (h : M.SameUpToNames N) (numStates : Nat) (starts finals : StateSet) :
    SameUpToNames { M with numStates := numStates, starts := starts, finals := finals }
      { N with numStates := numStates, starts := starts, finals := finals } :=
  ⟨rfl, h.alphabet_eq, rfl, rfl, h.toList_eq⟩

theorem disjointUnion (hA : A.SameUpToNames A') (hB : B.SameUpToNames B') :
    (A.disjointUnion B).SameUpToNames (A'.disjointUnion B') := by
  have hcopies := (embed (embed (refl ∅) hA) hB).linkAll [A'.numStates + B'.numStates]
    (A'.starts.toList ++ B'.starts.toList.map (A'.numStates + ·))
  simp only [Automaton.disjointUnion, hA.numStates_eq, hB.numStates_eq, hA.starts_eq, hB.starts_eq, hA.finals_eq,
    hB.finals_eq]
  exact hcopies.withEnds _ _ _

theorem chain (hA : A.SameUpToNames A') (hB : B.SameUpToNames B') : (A.chain B).SameUpToNames (A'.chain B') := by
  have hcopies := (embed (embed (refl ∅) hA) hB).linkAll A'.finals.toList
    (B'.starts.toList.map (A'.numStates + ·))
  simp only [Automaton.chain, hA.numStates_eq, hA.starts_eq, hB.starts_eq, hA.finals_eq, hB.finals_eq, hB.accepts_eq]
  exact ⟨hcopies.numStates_eq, hcopies.alphabet_eq, rfl, rfl, hcopies.toList_eq⟩

theorem loop (h : M.SameUpToNames N) : M.loop.SameUpToNames N.loop := by
  have hcopy := ((embed (refl ∅) h).linkAll [N.numStates] ((N.numStates + 1) :: N.starts.toList)).linkAll
    N.finals.toList (N.starts.toList ++ [N.numStates + 1])
  simp only [Automaton.loop, h.numStates_eq, h.starts_eq, h.finals_eq]
  exact hcopy.withEnds _ _ _

theorem pairing (hA : A.SameUpToNames A') (hB : B.SameUpToNames B') :
    (A.pairing B).SameUpToNames (A'.pairing B') := by
  have hcommon : A.commonNames B = A'.commonNames B' := by
    rw [commonNames, commonNames, hA.alphabet_eq, hB.alphabet_eq]
  have hrows : ∀ {M N : Automaton}, M.SameUpToNames N → M.rowsOn = N.rowsOn := by
    intro M N h
    funext names
    have hrow : M.rowOn names = N.rowOn names := by
      funext q
      rw [rowOn, rowOn, h.alphabet_eq]
      exact List.map_congr_left fun a _ => h.next?_eq q a
    rw [rowsOn, rowsOn, hrow, h.numStates_eq]
  refine ⟨?_, ?_, ?_, ?_, ?_⟩
  · simp only [Automaton.pairing, hA.numStates_eq, hB.numStates_eq]
  · simp only [Automaton.pairing, hcommon]
  · simp only [Automaton.pairing, hB.numStates_eq, hA.starts_eq, hB.starts_eq]
  · simp only [Automaton.pairing, hA.numStates_eq, hB.numStates_eq, hA.finals_eq, hB.finals_eq]
  · simp only [Automaton.pairing, hB.numStates_eq, hcommon, hrows hA, hrows hB]

theorem requireTotal_eq (h : M.SameUpToNames N) : M.requireTotal = N.requireTotal := by
  rw [requireTotal, requireTotal, h.isDeterministic_eq, h.isTotal_eq]

private theorem ofAutomaton_eq (h : M.SameUpToNames N) : Table.ofAutomaton M = Table.ofAutomaton N := by
  have hrow : Table.row M = Table.row N := by
    funext q
    rw [Table.row, Table.row, h.alphabet_eq]
    exact List.map_congr_left fun a _ => h.next?_eq q a
  have hstart : Table.ofStart M = Table.ofStart N := by
    funext start
    rw [Table.ofStart, Table.ofStart, Table.reached, Table.reached, hrow, h.transitions_same.keys_eq, h.alphabet_eq,
      h.finals_eq]
  rw [Table.ofAutomaton, Table.ofAutomaton, h.isDeterministic_eq, h.starts_eq, hstart]

/-- The states behind the parts give names to the result, and nothing else. -/
theorem quotient (h : M.SameUpToNames N) (T : Table) (R : Refinement) :
    (Table.quotient M T R).SameUpToNames (Table.quotient N T R) := ⟨rfl, h.alphabet_eq, rfl, rfl, rfl⟩

theorem minimize (h : M.SameUpToNames N) : SameOutcome M.minimize N.minimize := by
  rw [Automaton.minimize, Automaton.minimize, h.ofAutomaton_eq]
  cases Table.ofAutomaton N with
  | ok T => exact .ok (h.quotient T T.refine)
  | error e => exact .error e

theorem withinBounds {n : Nat} {f g : Unit → Automaton} (h : (f ()).SameUpToNames (g ())) :
    SameOutcome (Automaton.withinBounds n f) (Automaton.withinBounds n g) := by
  unfold Automaton.withinBounds
  split
  · exact .ok h
  · exact .error _

theorem complete (h : M.SameUpToNames N) : SameOutcome M.complete N.complete := by
  have hmissing : M.missing = N.missing := by
    simp only [missing, h.alphabet_eq, h.numStates_eq, h.transitions_same.get?_eq]
  rw [Automaton.complete, Automaton.complete, hmissing, h.numStates_eq]
  by_cases hnil : N.missing.isEmpty
  · rw [if_pos hnil, if_pos hnil]
    exact .ok h
  · rw [if_neg hnil, if_neg hnil]
    exact withinBounds (h.withSink _)

theorem union (hA : A.SameUpToNames A') (hB : B.SameUpToNames B') : SameOutcome (A.union B) (A'.union B') := by
  rw [Automaton.union, Automaton.union, hA.numStates_eq, hB.numStates_eq]
  exact withinBounds (hA.disjointUnion hB)

theorem concatenate (hA : A.SameUpToNames A') (hB : B.SameUpToNames B') :
    SameOutcome (A.concatenate B) (A'.concatenate B') := by
  rw [Automaton.concatenate, Automaton.concatenate, hA.numStates_eq, hB.numStates_eq]
  exact withinBounds (hA.chain hB)

theorem kleeneStar (h : M.SameUpToNames N) : SameOutcome M.kleeneStar N.kleeneStar := by
  rw [Automaton.kleeneStar, Automaton.kleeneStar, h.numStates_eq]
  exact withinBounds h.loop

theorem product (hA : A.SameUpToNames A') (hB : B.SameUpToNames B') : SameOutcome (A.product B) (A'.product B') := by
  rw [Automaton.product, Automaton.product, hA.numStates_eq, hB.numStates_eq]
  split
  · exact .ok (hA.pairing hB)
  · exact .error _

theorem intersect (hA : A.SameUpToNames A') (hB : B.SameUpToNames B') :
    SameOutcome (A.intersect B) (A'.intersect B') := by
  rw [Automaton.intersect, Automaton.intersect, hA.requireTotal_eq, hB.requireTotal_eq]
  cases A'.requireTotal with
  | error e => exact .error e
  | ok =>
    cases B'.requireTotal with
    | error e => exact .error e
    | ok => exact hA.product hB

theorem complement (h : M.SameUpToNames N) : SameOutcome M.complement N.complement := by
  rw [Automaton.complement, Automaton.complement, h.requireTotal_eq]
  cases N.requireTotal with
  | error e => exact .error e
  | ok => exact .ok h.flipFinals

theorem difference (hA : A.SameUpToNames A') (hB : B.SameUpToNames B') :
    SameOutcome (A.difference B) (A'.difference B') := by
  have hleft := (hA.widened hB).determinize.complete
  have hright := (hB.widened hA).determinize.complete
  rw [Automaton.difference, Automaton.difference]
  generalize (A.widened B).determinize.complete = L, (A'.widened B').determinize.complete = L' at hleft
  generalize (B.widened A).determinize.complete = R, (B'.widened A').determinize.complete = R' at hright
  cases hleft with
  | error e => exact .error e
  | ok hL =>
    cases hright with
    | error e => exact .error e
    | ok hR => exact hL.product hR.flipFinals

theorem canonical (hA : A.SameUpToNames A') (hB : B.SameUpToNames B') :
    SameOutcome (A.canonical B) (A'.canonical B') :=
  (hA.widened hB).determinize.minimize

private theorem pairFrom?_eq (hA : A.SameUpToNames A') (hB : B.SameUpToNames B') (steps : Nat) (P : Pairing) :
    A.pairFrom? B steps P = A'.pairFrom? B' steps P := by
  have htargets : A.jointTargets B = A'.jointTargets B' := by
    funext p q
    simp only [jointTargets, hA.alphabet_eq, hA.nextByName?_eq, hB.nextByName?_eq]
  induction steps generalizing P with
  | zero => rfl
  | succ steps ih => simp only [pairFrom?, hA.finals_eq, hB.finals_eq, htargets, ih]

theorem agreeInStep_eq (hA : A.SameUpToNames A') (hB : B.SameUpToNames B') :
    A.agreeInStep B = A'.agreeInStep B' := by
  simp only [agreeInStep, hA.numStates_eq, hB.numStates_eq, hA.starts_eq, hB.starts_eq, hA.pairFrom?_eq hB]

theorem isEquivalent_eq (hA : A.SameUpToNames A') (hB : B.SameUpToNames B') :
    A.isEquivalent B = A'.isEquivalent B' := by
  have hleft := hA.canonical hB
  have hright := hB.canonical hA
  unfold isEquivalent
  generalize A.canonical B = L, A'.canonical B' = L' at hleft
  generalize B.canonical A = R, B'.canonical A' = R' at hright
  cases hleft with
  | error => rfl
  | ok hL =>
    cases hright with
    | error => rfl
    | ok hR => exact hL.agreeInStep_eq hR

end SameUpToNames

end Automaton

open Automaton

theorem Derivation.derive_sameOutcome {store store' : Store} (h : ∀ x, (store x).SameUpToNames (store' x))
    (derivation : Derivation) : SameOutcome (derivation.derive store) (derivation.derive store') := by
  cases derivation with
  | withAlphabet alphabet => exact .ok (.refl _)
  | expression e => exact .refl e.toAutomaton
  | copy x => exact .ok (h x)
  | determinize x => exact .ok (h x).determinize
  | minimize x => exact (h x).minimize
  | complete x => exact (h x).complete
  | removeEpsilon x => exact .ok (h x).removeEpsilon
  | reverse x => exact .ok (h x).reverse
  | kleeneStar x => exact (h x).kleeneStar
  | complement x => exact (h x).complement
  | union x y => exact (h x).union (h y)
  | concatenate x y => exact (h x).concatenate (h y)
  | intersect x y => exact (h x).intersect (h y)
  | difference x y => exact (h x).difference (h y)

/-- Names of states never influence results. When the automata that two stores hold differ in nothing else, so do those
that are derived from them, and the failures and all answers are equal. -/
theorem Store.names_irrelevant (store store' : Store) (h : ∀ x, (store x).SameUpToNames (store' x)) :
    (∀ x, (store x).SameAnswers (store' x)) ∧
    (∀ x y, (store x).isEquivalent (store y) = (store' x).isEquivalent (store' y)) ∧
    ∀ derivation : Derivation, SameOutcome (derivation.derive store) (derivation.derive store') :=
  ⟨fun x => (h x).sameAnswers, fun x y => (h x).isEquivalent_eq (h y), Derivation.derive_sameOutcome h⟩

/-- A circle both of whose states are named like a set of states. -/
def maskedCircle : Automaton :=
  { circle 2 with names := (∅ : StateNames).setAll [(0, "\x7b0, 1\x7d"), (1, "\x7b0, 1\x7d")] }

theorem Store.names_irrelevant_circle : maskedCircle.stateName 0 = maskedCircle.stateName 1 ∧
    (circle 2).stateName 0 ≠ maskedCircle.stateName 0 ∧ (circle 2).SameUpToNames maskedCircle ∧
    (circle 2).SameAnswers maskedCircle ∧ maskedCircle.isEquivalent maskedCircle = (circle 2).isEquivalent (circle 2) ∧
    SameOutcome (circle 2).minimize maskedCircle.minimize ∧
    SameOutcome ((circle 2).union (circle 2)) (maskedCircle.union maskedCircle) := by
  have hsame : (circle 2).SameUpToNames maskedCircle := ⟨rfl, rfl, rfl, rfl, rfl⟩
  obtain ⟨hanswers, hequivalent, hderived⟩ :=
    Store.names_irrelevant (fun _ => circle 2) (fun _ => maskedCircle) fun _ => hsame
  exact ⟨by decide, by decide, hsame, hanswers "x", (hequivalent "x" "x").symm, hderived (.minimize "x"),
    hderived (.union "x" "x")⟩

end RegularLanguages
