import RegularLanguages.Proofs.Registration

/-!
Automata compared by the names of their states, whatever the numbers: how start states, final states and transitions that
are added between named states show, and that states nobody refers to do not show.
-/
namespace RegularLanguages.Automaton

variable {A B : Automaton} {N M : Alphabet} {name source target : String} {p q : State}

def StartsAt (A : Automaton) (name : String) : Prop := ∃ q, A.findState? name = some q ∧ A.starts.contains q

def EndsAt (A : Automaton) (name : String) : Prop := ∃ q, A.findState? name = some q ∧ A.finals.contains q

def Joins (A : Automaton) (source : String) (l : Label SymbolId) (target : String) : Prop :=
  ∃ p q, A.findState? source = some p ∧ A.findState? target = some q ∧ A.transitions.contains p l q

/-- Equal but for the numbers of states, and for states without any role. -/
structure SameByName (A B : Automaton) : Prop where
  alphabet_eq : A.alphabet = B.alphabet
  startsAt_iff : ∀ name, A.StartsAt name ↔ B.StartsAt name
  endsAt_iff : ∀ name, A.EndsAt name ↔ B.EndsAt name
  joins_iff : ∀ source l target, A.Joins source l target ↔ B.Joins source l target

namespace SameByName

theorem refl (A : Automaton) : A.SameByName A := ⟨rfl, fun _ => .rfl, fun _ => .rfl, fun _ _ _ => .rfl⟩

theorem symm (h : A.SameByName B) : B.SameByName A :=
  ⟨h.alphabet_eq.symm, fun name => (h.startsAt_iff name).symm, fun name => (h.endsAt_iff name).symm,
    fun source l target => (h.joins_iff source l target).symm⟩

theorem trans {C : Automaton} (h : A.SameByName B) (g : B.SameByName C) : A.SameByName C :=
  ⟨h.alphabet_eq.trans g.alphabet_eq, fun name => (h.startsAt_iff name).trans (g.startsAt_iff name),
    fun name => (h.endsAt_iff name).trans (g.endsAt_iff name),
    fun source l target => (h.joins_iff source l target).trans (g.joins_iff source l target)⟩

end SameByName

/-- States that are only mentioned have no role. -/
theorem Named.registerAll_sameByName (h : A.Named N) {names : List String}
    (hroom : (N.internAll names).size ≤ maxStates) : (A.registerAll names).SameByName A := by
  have hframe := A.registerAll_frame names
  have hnamed := h.registerAll hroom
  have hfind : ∀ {name q}, q < A.numStates →
      ((A.registerAll names).findState? name = some q ↔ A.findState? name = some q) := by
    intro name q hq
    rw [hnamed.findState?_eq, h.findState?_eq]
    exact ⟨fun hid => Alphabet.id?_of_id?_internAll hid (h.size_eq ▸ hq), Alphabet.id?_internAll⟩
  refine ⟨(congrArg alphabet hframe).trans rfl, fun name => ?_, fun name => ?_, fun source l target => ?_⟩
  · rw [StartsAt, StartsAt, congrArg starts hframe]
    refine exists_congr fun q => and_congr_left fun hq => hfind (h.starts_lt q hq)
  · rw [EndsAt, EndsAt, congrArg finals hframe]
    refine exists_congr fun q => and_congr_left fun hq => hfind (h.finals_lt q hq)
  · rw [Joins, Joins, congrArg transitions hframe]
    refine exists_congr fun p => exists_congr fun q => ?_
    constructor
    · rintro ⟨hp, hq, hpq⟩
      obtain ⟨hplt, _, hqlt⟩ := h.transitions p l q hpq
      exact ⟨(hfind hplt).1 hp, (hfind hqlt).1 hq, hpq⟩
    · rintro ⟨hp, hq, hpq⟩
      obtain ⟨hplt, _, hqlt⟩ := h.transitions p l q hpq
      exact ⟨(hfind hplt).2 hp, (hfind hqlt).2 hq, hpq⟩

namespace Named

theorem addStart (h : A.Named N) (hq : A.findState? name = some q) : (A.addStart q).automaton.Named N := by
  have hwell := h.toWellFormed.addStart q
  rw [addStart_of_lt (h.findState?_lt hq)] at hwell ⊢
  exact ⟨hwell, h.size_eq, h.findState?_eq, h.name?_eq⟩

theorem addFinal (h : A.Named N) (hq : A.findState? name = some q) : (A.addFinal q).automaton.Named N := by
  have hwell := h.toWellFormed.addFinal q
  rw [addFinal_of_lt (h.findState?_lt hq)] at hwell ⊢
  exact ⟨hwell, h.size_eq, h.findState?_eq, h.name?_eq⟩

theorem addTransition (h : A.Named N) (hp : A.findState? source = some p) (hq : A.findState? target = some q)
    (label : Label String) : (A.addTransition p label q).automaton.Named N := by
  have hwell := h.toWellFormed.addTransition p label q
  rw [addTransition_of_lt (h.findState?_lt hp) (h.findState?_lt hq)] at hwell ⊢
  cases label <;> exact ⟨hwell, h.size_eq, h.findState?_eq, h.name?_eq⟩

/-- A state with a name is the only one that joins the named members of a set when it joins the set. -/
theorem exists_insert_iff (h : A.Named N) (hq : A.findState? name = some q) (set : StateSet) (other : String) :
    (∃ r, A.findState? other = some r ∧ (set.insert q).contains r) ↔
      (∃ r, A.findState? other = some r ∧ set.contains r) ∨ other = name := by
  simp only [StateSet.contains_insert_iff]
  constructor
  · rintro ⟨r, hr, hmem | rfl⟩
    · exact Or.inl ⟨r, hr, hmem⟩
    · exact Or.inr (h.name_unique hr hq)
  · rintro (⟨r, hr, hmem⟩ | rfl)
    · exact ⟨r, hr, Or.inl hmem⟩
    · exact ⟨q, hq, Or.inr rfl⟩

theorem startsAt_addStart (h : A.Named N) (hq : A.findState? name = some q) (other : String) :
    (A.addStart q).automaton.StartsAt other ↔ A.StartsAt other ∨ other = name := by
  rw [addStart_of_lt (h.findState?_lt hq)]
  exact h.exists_insert_iff hq A.starts other

theorem endsAt_addFinal (h : A.Named N) (hq : A.findState? name = some q) (other : String) :
    (A.addFinal q).automaton.EndsAt other ↔ A.EndsAt other ∨ other = name := by
  rw [addFinal_of_lt (h.findState?_lt hq)]
  exact h.exists_insert_iff hq A.finals other

theorem joins_addTransition (h : A.Named N) (hp : A.findState? source = some p) (hq : A.findState? target = some q)
    (label : Label String) (a : String) (l : Label SymbolId) (b : String) :
    (A.addTransition p label q).automaton.Joins a l b ↔
      A.Joins a l b ∨ (a = source ∧ l = (A.internLabel label).2 ∧ b = target) := by
  rw [addTransition_of_lt (h.findState?_lt hp) (h.findState?_lt hq)]
  have hfind : ∀ name, (A.internLabel label).1.findState? name = A.findState? name := by
    cases label <;> exact fun _ => rfl
  change (∃ r s, (A.internLabel label).1.findState? a = some r ∧ (A.internLabel label).1.findState? b = some s ∧
    (A.transitions.add p (A.internLabel label).2 q).contains r l s) ↔ _
  simp only [hfind, Transitions.contains_add]
  constructor
  · rintro ⟨r, s, hr, hs, hedge | ⟨rfl, rfl, rfl⟩⟩
    · exact Or.inl ⟨r, s, hr, hs, hedge⟩
    · exact Or.inr ⟨h.name_unique hr hp, rfl, h.name_unique hs hq⟩
  · rintro (⟨r, s, hr, hs, hedge⟩ | ⟨rfl, rfl, rfl⟩)
    · exact ⟨r, s, hr, hs, Or.inl hedge⟩
    · exact ⟨p, q, hp, hq, Or.inr ⟨rfl, rfl, rfl⟩⟩

end Named

namespace SameByName

variable {p' q' : State} (h : A.SameByName B) (hA : A.Named N) (hB : B.Named M)

include h hA hB

theorem addStart (hp : A.findState? name = some p) (hq : B.findState? name = some q) :
    (A.addStart p).automaton.SameByName (B.addStart q).automaton := by
  have hstarts : ∀ other,
      (A.addStart p).automaton.StartsAt other ↔ (B.addStart q).automaton.StartsAt other := fun other => by
    rw [hA.startsAt_addStart hp, hB.startsAt_addStart hq, h.startsAt_iff]
  rw [addStart_of_lt (hA.findState?_lt hp), addStart_of_lt (hB.findState?_lt hq)] at hstarts ⊢
  exact ⟨h.alphabet_eq, hstarts, h.endsAt_iff, h.joins_iff⟩

theorem addFinal (hp : A.findState? name = some p) (hq : B.findState? name = some q) :
    (A.addFinal p).automaton.SameByName (B.addFinal q).automaton := by
  have hfinals : ∀ other,
      (A.addFinal p).automaton.EndsAt other ↔ (B.addFinal q).automaton.EndsAt other := fun other => by
    rw [hA.endsAt_addFinal hp, hB.endsAt_addFinal hq, h.endsAt_iff]
  rw [addFinal_of_lt (hA.findState?_lt hp), addFinal_of_lt (hB.findState?_lt hq)] at hfinals ⊢
  exact ⟨h.alphabet_eq, h.startsAt_iff, hfinals, h.joins_iff⟩

theorem addTransition (hp : A.findState? source = some p) (hp' : B.findState? source = some p')
    (hq : A.findState? target = some q) (hq' : B.findState? target = some q') (label : Label String) :
    (A.addTransition p label q).automaton.SameByName (B.addTransition p' label q').automaton := by
  have hlabel : (A.internLabel label).2 = (B.internLabel label).2 := by
    cases label with
    | epsilon => rfl
    | symbol s => simp only [internLabel, addSymbol, h.alphabet_eq]
  refine ⟨?_, fun other => ?_, fun other => ?_, fun a l b => ?_⟩
  · rw [addTransition_of_lt (hA.findState?_lt hp) (hA.findState?_lt hq),
      addTransition_of_lt (hB.findState?_lt hp') (hB.findState?_lt hq')]
    cases label with
    | epsilon => exact h.alphabet_eq
    | symbol s => exact congrArg (Alphabet.intern · s) h.alphabet_eq
  · rw [addTransition_of_lt (hA.findState?_lt hp) (hA.findState?_lt hq),
      addTransition_of_lt (hB.findState?_lt hp') (hB.findState?_lt hq')]
    cases label <;> exact h.startsAt_iff other
  · rw [addTransition_of_lt (hA.findState?_lt hp) (hA.findState?_lt hq),
      addTransition_of_lt (hB.findState?_lt hp') (hB.findState?_lt hq')]
    cases label <;> exact h.endsAt_iff other
  · rw [hA.joins_addTransition hp hq, hB.joins_addTransition hp' hq', h.joins_iff, hlabel]

end SameByName

end RegularLanguages.Automaton
