import RegularLanguages.Proofs.AnonymousDerivations
import RegularLanguages.Proofs.ByName
import RegularLanguages.Proofs.Subsets

/-!
Automata that are the same by name behave the same: their states with one name take part in the same runs, so the subset
construction finds corresponding configurations in the same order.
-/
namespace RegularLanguages.Automaton

variable {A B : Automaton} {N M : Alphabet} {p q p' : State} {T U : StateSet}

def Counterpart (A B : Automaton) (p q : State) : Prop := ∃ name, A.findState? name = some p ∧ B.findState? name = some q

def Covers (A B : Automaton) (T U : StateSet) : Prop := ∀ p, T.contains p → ∃ q, A.Counterpart B p q ∧ U.contains q

def Matches (A B : Automaton) (T U : StateSet) : Prop := A.Covers B T U ∧ B.Covers A U T

theorem Counterpart.symm (h : A.Counterpart B p q) : B.Counterpart A q p := by
  obtain ⟨name, hp, hq⟩ := h
  exact ⟨name, hq, hp⟩

/-- Counterparts are unique. -/
theorem Counterpart.unique (hA : A.Named N) {q' : State} (h : A.Counterpart B p q) (h' : A.Counterpart B p q') :
    q = q' := by
  obtain ⟨name, hp, hq⟩ := h
  obtain ⟨other, hp', hq'⟩ := h'
  obtain rfl := hA.name_unique hp hp'
  exact Option.some.inj (hq.symm.trans hq')

theorem Matches.symm (h : A.Matches B T U) : B.Matches A U T := ⟨h.2, h.1⟩

namespace SameByName

section Direction

variable (h : A.SameByName B) (hA : A.Named N)

include h hA

theorem edge_counterpart {l : Label String} (hedge : A.Edge p l p') (hq : A.Counterpart B p q) :
    ∃ q', B.Edge q l q' ∧ A.Counterpart B p' q' := by
  obtain ⟨k, hk, hedge⟩ := hedge
  obtain ⟨name, hname, hcounter⟩ := hq
  obtain ⟨target, htarget⟩ := hA.exists_name (hA.transitions p k p' hedge).2.2
  obtain ⟨r, q', hr, hq', hedge'⟩ := (h.joins_iff name k target).1 ⟨p, p', hname, htarget, hedge⟩
  obtain rfl := Option.some.inj (hr.symm.trans hcounter)
  exact ⟨q', ⟨k, h.alphabet_eq ▸ hk, hedge'⟩, target, htarget, hq'⟩

/-- Runs are followed by the counterparts of their states. -/
theorem path_counterpart {word : List String} (hpath : A.Path p word p') (hq : A.Counterpart B p q) :
    ∃ q', B.Path q word q' ∧ A.Counterpart B p' q' := by
  induction hpath generalizing q with
  | nil => exact ⟨q, .nil q, hq⟩
  | epsilon edge _ ih =>
    obtain ⟨r, hedge, hr⟩ := h.edge_counterpart hA edge hq
    obtain ⟨q', hpath, hq'⟩ := ih hr
    exact ⟨q', .epsilon hedge hpath, hq'⟩
  | symbol edge _ ih =>
    obtain ⟨r, hedge, hr⟩ := h.edge_counterpart hA edge hq
    obtain ⟨q', hpath, hq'⟩ := ih hr
    exact ⟨q', .symbol hedge hpath, hq'⟩

theorem covers_starts : A.Covers B A.starts B.starts := by
  intro p hp
  obtain ⟨name, hname⟩ := hA.exists_name (hA.starts_lt p hp)
  obtain ⟨q, hq, hstart⟩ := (h.startsAt_iff name).1 ⟨p, hname, hp⟩
  exact ⟨q, ⟨name, hname, hq⟩, hstart⟩

theorem covers_closure (hT : A.Covers B T U) : A.Covers B (A.closure T) (B.closure U) := by
  intro r hr
  obtain ⟨p, hp, hpath⟩ := contains_closure.1 hr
  obtain ⟨q, hq, hU⟩ := hT p hp
  obtain ⟨s, hpath, hs⟩ := h.path_counterpart hA hpath hq
  exact ⟨s, hs, contains_closure.2 ⟨q, hU, hpath⟩⟩

theorem covers_move (hT : A.Covers B T U) (a : SymbolId) : A.Covers B (A.move T a) (B.move U a) := by
  intro r hr
  obtain ⟨p, s, hp, hedge, hpath⟩ := contains_move.1 hr
  obtain ⟨q, hq, hU⟩ := hT p hp
  obtain ⟨name, hname⟩ := Alphabet.exists_name (of_decide_eq_true (hA.transitions p (.symbol a) s hedge).2.1)
  obtain ⟨s', hedge', hs⟩ := h.edge_counterpart hA (edge_symbol_iff.2 ⟨a, hname, hedge⟩) hq
  obtain ⟨r', hpath', hr'⟩ := h.path_counterpart hA hpath hs
  obtain ⟨b, hb, hedge'⟩ := edge_symbol_iff.1 hedge'
  obtain rfl := Option.some.inj ((h.alphabet_eq ▸ hname).symm.trans hb)
  exact ⟨r', hr', contains_move.2 ⟨q, s', hU, hedge', hpath'⟩⟩

end Direction

theorem meets_of_covers (h : A.SameByName B) (hT : A.Covers B T U) (hmeets : T.meets A.finals) :
    U.meets B.finals := by
  obtain ⟨p, hp, hfinal⟩ := StateSet.meets_iff.1 hmeets
  obtain ⟨q, ⟨name, hname, hq⟩, hU⟩ := hT p hp
  obtain ⟨r, hr, hfinal⟩ := (h.endsAt_iff name).1 ⟨p, hname, hfinal⟩
  obtain rfl := Option.some.inj (hr.symm.trans hq)
  exact StateSet.meets_iff.2 ⟨r, hU, hfinal⟩

end SameByName

theorem Covers.isEmpty (h : A.Covers B T U) (hU : U.isEmpty) : T.isEmpty := by
  refine Bool.of_not_eq_false fun hne => ?_
  obtain ⟨p, hp⟩ := StateSet.isEmpty_eq_false_iff.1 hne
  obtain ⟨q, _, hq⟩ := h p hp
  rw [StateSet.isEmpty_iff.1 hU, StateSet.contains_empty] at hq
  cases hq

private theorem contains_of_covers (hA : A.Named N) {U' : StateSet} (hback : B.Covers A U T) (h : A.Covers B T U')
    (hq : U.contains q) : U'.contains q := by
  obtain ⟨p, hp, hT⟩ := hback q hq
  obtain ⟨q', hq', hU'⟩ := h p hT
  exact hp.symm.unique hA hq' ▸ hU'

theorem Matches.unique (hA : A.Named N) {U' : StateSet} (h : A.Matches B T U) (h' : A.Matches B T U') : U = U' :=
  StateSet.eq_of_contains_iff fun _ => ⟨contains_of_covers hA h.2 h'.1, contains_of_covers hA h'.2 h.1⟩

private theorem matches_biUnique (hA : A.Named N) (hB : B.Named M) : Relator.BiUnique (A.Matches B) :=
  ⟨fun _ _ _ h h' => h.symm.unique hB h'.symm, fun _ _ _ h h' => h.unique hA h'⟩

namespace SameByName

variable (h : A.SameByName B) (hA : A.Named N) (hB : B.Named M)

include h

private theorem meets_eq (hT : A.Matches B T U) : T.meets A.finals = U.meets B.finals :=
  Bool.eq_iff_iff.2 ⟨h.meets_of_covers hT.1, h.symm.meets_of_covers hT.2⟩

include hA hB

private theorem matches_next (hT : A.Matches B T U) :
    List.Forall₂ (Option.Rel (A.Matches B)) (A.nextSubsets T) (B.nextSubsets U) := by
  rw [nextSubsets, nextSubsets, ← h.alphabet_eq, List.forall₂_map_left_iff, List.forall₂_map_right_iff,
    List.forall₂_same]
  intro a _
  have hmove : A.Matches B (A.move T a) (B.move U a) :=
    ⟨h.covers_move hA hT.1 a, h.symm.covers_move hB hT.2 a⟩
  have hempty : (A.move T a).isEmpty = (B.move U a).isEmpty := Bool.eq_iff_iff.2 ⟨hmove.2.isEmpty, hmove.1.isEmpty⟩
  simp only [hempty]
  split
  · exact .none
  · exact .some hmove

private theorem subsets_inStep : Exploration.InStep (A.Matches B) A.subsets B.subsets := by
  have hstart : A.Matches B (A.closure A.starts) (B.closure B.starts) :=
    ⟨h.covers_closure hA (h.covers_starts hA), h.symm.covers_closure hB (h.symm.covers_starts hB)⟩
  exact Exploration.explore_inStep StateSet.bits_injective StateSet.bits_injective (matches_biUnique hA hB)
    (fun _ _ => h.matches_next hA hB) hstart (subsets_complete A).finished (subsets_complete B).finished

/-- Deterministic automata forget the numbers of the states that they come from. -/
theorem determinize_sameUpToNames : A.determinize.SameUpToNames B.determinize :=
  determinize_sameUpToNames_of_inStep (h.subsets_inStep hA hB) h.alphabet_eq fun _ _ => h.meets_eq

theorem accepts_eq (word : List String) : A.accepts word = B.accepts word := by
  rw [← accepts_determinize A, ← accepts_determinize B]
  exact (h.determinize_sameUpToNames hA hB).accepts_eq word

theorem isEmpty_eq : A.isEmpty = B.isEmpty := by
  rw [Bool.eq_iff_iff, isEmpty_iff, isEmpty_iff]
  simp only [h.accepts_eq hA hB]

end SameByName

private theorem isDeterministic_iff_singleton :
    A.isDeterministic ↔ (∃ s, A.starts = .singleton s) ∧ A.transitions.isDeterministic := by
  constructor
  · intro h
    obtain ⟨s, _, hs⟩ := exists_start h
    refine ⟨⟨s, StateSet.eq_of_contains_iff fun q => ?_⟩, transitions_isDeterministic h⟩
    rw [hs, StateSet.contains_singleton_iff]
    exact eq_comm
  · rintro ⟨⟨s, hs⟩, htransitions⟩
    exact isDeterministic_of_singleton hs htransitions

namespace Named

variable (hA : A.Named N)

include hA

private theorem starts_eq_singleton_iff :
    (∃ s, A.starts = .singleton s) ↔ ∃ name, ∀ other, A.StartsAt other ↔ other = name := by
  constructor
  · rintro ⟨s, hs⟩
    have hmem : ∀ q, A.starts.contains q ↔ s = q := fun q => by
      rw [hs, StateSet.contains_singleton_iff]
    obtain ⟨name, hname⟩ := hA.exists_name (hA.starts_lt s ((hmem s).2 rfl))
    refine ⟨name, fun other => ⟨?_, ?_⟩⟩
    · rintro ⟨q, hq, hstart⟩
      exact hA.name_unique hq ((hmem q).1 hstart ▸ hname)
    · rintro rfl
      exact ⟨s, hname, (hmem s).2 rfl⟩
  · rintro ⟨name, hname⟩
    obtain ⟨s, hs, hstart⟩ := (hname name).2 rfl
    refine ⟨s, StateSet.eq_of_contains_iff fun q => ?_⟩
    rw [StateSet.contains_singleton_iff]
    constructor
    · intro hq
      obtain ⟨other, hother⟩ := hA.exists_name (hA.starts_lt q hq)
      obtain rfl := (hname other).1 ⟨q, hother, hq⟩
      exact Option.some.inj (hs.symm.trans hother)
    · rintro rfl
      exact hstart

private theorem transitions_isDeterministic_iff : A.transitions.isDeterministic ↔
    ∀ source l target, A.Joins source l target → l ≠ .epsilon ∧
      ∀ other, A.Joins source l other → target = other := by
  rw [Transitions.isDeterministic_iff]
  constructor
  · rintro hedges source l target ⟨p, q, hp, hq, hedge⟩
    refine ⟨(hedges p l q hedge).1, ?_⟩
    rintro other ⟨p', r, hp', hr, hedge'⟩
    obtain rfl := Option.some.inj (hp.symm.trans hp')
    exact hA.name_unique hq ((hedges p l q hedge).2 r hedge' ▸ hr)
  · intro hjoins p l q hedge
    have hlt := hA.transitions p l q hedge
    obtain ⟨source, hsource⟩ := hA.exists_name hlt.1
    obtain ⟨target, htarget⟩ := hA.exists_name hlt.2.2
    obtain ⟨hl, hunique⟩ := hjoins source l target ⟨p, q, hsource, htarget, hedge⟩
    refine ⟨hl, fun r hedge' => ?_⟩
    obtain ⟨other, hother⟩ := hA.exists_name (hA.transitions p l r hedge').2.2
    obtain rfl := hunique other ⟨p, r, hsource, hother, hedge'⟩
    exact Option.some.inj (htarget.symm.trans hother)

/-- To be deterministic is a matter of names. -/
theorem isDeterministic_iff : A.isDeterministic ↔
    (∃ name, ∀ other, A.StartsAt other ↔ other = name) ∧
    ∀ source l target, A.Joins source l target → l ≠ .epsilon ∧
      ∀ other, A.Joins source l other → target = other := by
  rw [isDeterministic_iff_singleton, hA.starts_eq_singleton_iff, hA.transitions_isDeterministic_iff]

end Named

theorem SameByName.isDeterministic_eq (h : A.SameByName B) (hA : A.Named N) (hB : B.Named M) :
    A.isDeterministic = B.isDeterministic := by
  rw [Bool.eq_iff_iff, hA.isDeterministic_iff, hB.isDeterministic_iff]
  simp only [h.startsAt_iff, h.joins_iff]

end RegularLanguages.Automaton
