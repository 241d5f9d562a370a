import RegularLanguages.Proofs.Derived
import RegularLanguages.Proofs.Equivalence
import RegularLanguages.Proofs.Totality

/-!
Pairs of states run side by side: on a word the pairing of two deterministic automata does what both do. So a difference
accepts what the first automaton accepts and the second does not, whatever their alphabets.
-/
namespace RegularLanguages.Automaton

variable {A B : Automaton}

private theorem getElem?_pairs {α β γ : Type} {f : α → β → γ} {as : List α} {bs : List β} {i j : Nat} {a : α} {b : β}
    (ha : as[i]? = some a) (hb : bs[j]? = some b) : (pairs f as bs)[i * bs.length + j]? = some (f a b) := by
  have hj : j < (bs.map (f a)).length := by
    rw [List.length_map]
    exact (List.getElem?_eq_some_iff.1 hb).1
  induction as generalizing i with
  | nil => cases ha
  | cons a' as ih =>
    have hcons : pairs f (a' :: as) bs = bs.map (f a') ++ pairs f as bs := rfl
    rw [hcons]
    cases i with
    | zero =>
      obtain rfl := Option.some.inj ha
      rw [Nat.zero_mul, Nat.zero_add, List.getElem?_append_left hj, List.getElem?_map, hb]
      rfl
    | succ i =>
      have hindex : (i + 1) * bs.length + j = (bs.map (f a')).length + (i * bs.length + j) := by
        rw [List.length_map, Nat.succ_mul]
        omega
      rw [hindex, List.getElem?_append_right (Nat.le_add_right _ _), Nat.add_sub_cancel_left]
      exact ih ha

theorem mem_commonNames {name : String} :
    name ∈ A.commonNames B ↔ name ∈ A.alphabet.names ∧ name ∈ B.alphabet.names := by
  simp [commonNames, Alphabet.contains]

theorem names_pairing (A B : Automaton) : (A.pairing B).alphabet.names = A.commonNames B :=
  Alphabet.names_ofNames (A.alphabet.nodup.filter _)

/-- What a row holds is where the state leads on the name there. -/
theorem rowOn_eq_some_iff {names : List String} {p r : State} {a : Nat} : (A.rowOn names p)[a]? = some (some r) ↔
    ∃ name, names[a]? = some name ∧ A.next? p (A.alphabet.idOf name) = some r := by
  simp [rowOn, Option.map_eq_some_iff]

theorem nextByName?_eq {name : String} (h : name ∈ A.alphabet.names) (p : State) :
    A.nextByName? p name = A.next? p (A.alphabet.idOf name) := by
  rw [nextByName?, Alphabet.id?_eq_some_iff.2 (Alphabet.name?_idOf h)]
  rfl

/-- A pair leads to the pair of where its states lead, if both lead somewhere. -/
theorem contains_pairing {p q r : State} (hp : p < A.numStates) (hq : q < B.numStates) {c : SymbolId} :
    (A.pairing B).transitions.contains (p * B.numStates + q) (.symbol c) r ↔
      ∃ name, (A.commonNames B)[c]? = some name ∧
        ∃ s t, A.nextByName? p name = some s ∧ B.nextByName? q name = some t ∧ s * B.numStates + t = r := by
  have hleft : (A.rowsOn (A.commonNames B))[p]? = some (A.rowOn (A.commonNames B) p) := by
    rw [rowsOn, List.getElem?_map, List.getElem?_range hp, Option.map_some]
  have hright : (B.rowsOn (A.commonNames B))[q]? = some (B.rowOn (A.commonNames B) q) := by
    rw [rowsOn, List.getElem?_map, List.getElem?_range hq, Option.map_some]
  have hrow := getElem?_pairs (f := pairRow B.numStates) hleft hright
  have hlength : (B.rowsOn (A.commonNames B)).length = B.numStates := by simp [rowsOn]
  rw [hlength] at hrow
  have hnames : ∀ {name}, (A.commonNames B)[c]? = some name →
      A.nextByName? p name = A.next? p (A.alphabet.idOf name) ∧
        B.nextByName? q name = B.next? q (B.alphabet.idOf name) := fun h =>
    have hmem := mem_commonNames.1 (List.mem_of_getElem? h)
    ⟨nextByName?_eq hmem.1 p, nextByName?_eq hmem.2 q⟩
  refine Transitions.contains_ofRows.trans ?_
  constructor
  · rintro ⟨row, c', hrow', hlabel, hc⟩
    cases hlabel
    obtain rfl := Option.some.inj (hrow.symm.trans hrow')
    obtain ⟨s, t, hs, ht, hr⟩ := pairRow_eq_some_iff.1 hc
    obtain ⟨name, hname, hs⟩ := rowOn_eq_some_iff.1 hs
    obtain ⟨name', hname', ht⟩ := rowOn_eq_some_iff.1 ht
    obtain rfl := Option.some.inj (hname.symm.trans hname')
    obtain ⟨hnext, hnext'⟩ := hnames hname
    exact ⟨name, hname, s, t, hnext.trans hs, hnext'.trans ht, hr⟩
  · rintro ⟨name, hname, s, t, hs, ht, hr⟩
    obtain ⟨hnext, hnext'⟩ := hnames hname
    refine ⟨_, c, hrow, rfl, pairRow_eq_some_iff.2 ⟨s, t, ?_, ?_, hr⟩⟩
    · exact rowOn_eq_some_iff.2 ⟨name, hname, hnext.symm.trans hs⟩
    · exact rowOn_eq_some_iff.2 ⟨name, hname, hnext'.symm.trans ht⟩

theorem mem_names_of_step? {q : Option State} {name : String} {r : State} (h : A.step? q name = some r) :
    name ∈ A.alphabet.names := by
  obtain ⟨_, _, _, ha, _⟩ := step?_eq_some_iff.1 h
  exact List.mem_of_getElem? (Alphabet.id?_eq_some_iff.1 ha)

/-- A pair leads to the pair of where its states lead. No symbol but the common ones leads on from both. -/
theorem step?_pairing {p q : State} (hp : p < A.numStates) (hq : q < B.numStates) (name : String) :
    (A.pairing B).step? (some (p * B.numStates + q)) name = (A.step? (some p) name).bind fun s =>
      (B.step? (some q) name).map fun t => s * B.numStates + t := by
  have hdet : (A.pairing B).transitions.isDeterministic := Transitions.ofRows_isDeterministic _
  have hid : ∀ {c}, (A.pairing B).alphabet.id? name = some c ↔ (A.commonNames B)[c]? = some name := by
    intro c
    rw [Alphabet.id?_eq_some_iff, Alphabet.name?, names_pairing]
  refine Option.ext fun r => ?_
  simp only [Option.bind_eq_some_iff, Option.map_eq_some_iff]
  constructor
  · intro h
    obtain ⟨_, c, hpair, hc, hnext⟩ := step?_eq_some_iff.1 h
    obtain rfl := Option.some.inj hpair
    obtain ⟨name', hname, s, t, hs, ht, hr⟩ := (contains_pairing hp hq).1 ((next?_eq_some_iff hdet).1 hnext)
    obtain rfl := Option.some.inj ((hid.1 hc).symm.trans hname)
    exact ⟨s, hs, t, ht, hr⟩
  · rintro ⟨s, hs, t, ht, hr⟩
    have hmem := mem_commonNames.2 ⟨mem_names_of_step? hs, mem_names_of_step? ht⟩
    obtain ⟨c, hc⟩ := List.getElem?_of_mem hmem
    have hpair := (contains_pairing hp hq).2 ⟨name, hc, s, t, hs, ht, hr⟩
    exact step?_eq_some_iff.2 ⟨_, c, rfl, hid.2 hc, (next?_eq_some_iff hdet).2 hpair⟩

theorem contains_finals_pairing {p q : State} (hp : p < A.numStates) (hq : q < B.numStates) :
    (A.pairing B).finals.contains (p * B.numStates + q) = (A.finals.contains p && B.finals.contains q) := by
  change (StateSet.below _ _).contains _ = _
  rw [StateSet.contains_below, decide_eq_true (pair_lt hp hq), Bool.true_and, pair_div hq, pair_mod hq]

/-- The only start of a pairing is the pair of the starts. -/
theorem exists_starts_pairing (hA : A.isDeterministic) (hB : B.isDeterministic) :
    ∃ s t, A.starts.first? = some s ∧ B.starts.first? = some t ∧
      (A.pairing B).starts = .singleton (s * B.numStates + t) := by
  obtain ⟨s, hs, hsingle⟩ := exists_start hA
  obtain ⟨t, ht, hsingle'⟩ := exists_start hB
  refine ⟨s, t, hs, ht, StateSet.ext fun r => ?_⟩
  change (StateSet.ofList _).contains r = _
  rw [StateSet.contains_ofList, StateSet.contains_singleton, decide_eq_decide, mem_pairs]
  simp [hsingle, hsingle']

theorem pairing_isDeterministic (hA : A.isDeterministic) (hB : B.isDeterministic) :
    (A.pairing B).isDeterministic := by
  obtain ⟨_, _, _, _, hstarts⟩ := exists_starts_pairing hA hB
  exact isDeterministic_of_singleton hstarts (Transitions.ofRows_isDeterministic _)

/-- Where both states of a pair lead somewhere on every common symbol, so does the pair. -/
theorem pairing_isTotal (hA : A.isTotal) (hB : B.isTotal) : (A.pairing B).isTotal := by
  have hdet := pairing_isDeterministic (isTotal_iff.1 hA).1 (isTotal_iff.1 hB).1
  refine isTotal_iff.2 ⟨hdet, fun r hr c hc => ?_⟩
  rw [Alphabet.size, names_pairing] at hc
  have hname := List.getElem?_eq_getElem hc
  obtain ⟨hleft, hright⟩ := mem_commonNames.1 (List.getElem_mem hc)
  obtain ⟨p, hp, q, hq, rfl⟩ := exists_pair hr
  obtain ⟨s, hs⟩ := exists_step? hA hleft hp
  obtain ⟨t, ht⟩ := exists_step? hB hright hq
  exact ⟨_, (contains_pairing hp hq).2 ⟨_, hname, s, t, hs, ht, rfl⟩⟩

namespace WellFormed

variable (hA : A.WellFormed) (hB : B.WellFormed)

include hA hB

/-- A pair accepts what both of its states accept. -/
theorem acceptsFrom_pairing {p q : State} (hp : p < A.numStates) (hq : q < B.numStates) (word : List String) :
    (A.pairing B).acceptsFrom (some (p * B.numStates + q)) word =
      (A.acceptsFrom (some p) word && B.acceptsFrom (some q) word) := by
  induction word generalizing p q with
  | nil => exact contains_finals_pairing hp hq
  | cons name word ih =>
    simp only [acceptsFrom_cons, step?_pairing hp hq]
    cases hs : A.step? (some p) name with
    | none => rw [Option.bind_none, acceptsFrom_none, acceptsFrom_none, Bool.false_and]
    | some s =>
      rw [Option.bind_some]
      cases ht : B.step? (some q) name with
      | none => rw [Option.map_none, acceptsFrom_none, acceptsFrom_none, Bool.and_false]
      | some t => exact ih (hA.step?_lt hs) (hB.step?_lt ht)

theorem accepts_pairing (hdetA : A.isDeterministic) (hdetB : B.isDeterministic) (word : List String) :
    (A.pairing B).accepts word = (A.accepts word && B.accepts word) := by
  obtain ⟨s, t, hs, ht, hstarts⟩ := exists_starts_pairing hdetA hdetB
  rw [accepts_eq_acceptsFrom (pairing_isDeterministic hdetA hdetB), accepts_eq_acceptsFrom hdetA,
    accepts_eq_acceptsFrom hdetB, hstarts, StateSet.first?_singleton, hs, ht]
  exact hA.acceptsFrom_pairing hB (hA.staysBelow [] s hs) (hB.staysBelow [] t ht) word

end WellFormed

theorem determinize_completion_isTotal (A : Automaton) : A.determinize.completion.isTotal :=
  (determinize_wellFormed A).completion_isTotal (determinize_isDeterministic A)

theorem accepts_determinize_completion (A : Automaton) (word : List String) :
    A.determinize.completion.accepts word = A.accepts word := by
  rw [(determinize_wellFormed A).accepts_completion, accepts_determinize]

theorem completed_isTotal (A B : Automaton) : (A.completed B).isTotal := determinize_completion_isTotal _

private theorem names_completed (A B : Automaton) : (A.completed B).alphabet.names =
    A.alphabet.names ++ B.alphabet.names.filter fun name => !A.alphabet.contains name := by
  rw [completed, alphabet_completion]
  exact Alphabet.names_internAll B.alphabet.nodup

theorem mem_names_completed {name : String} :
    name ∈ (A.completed B).alphabet.names ↔ name ∈ A.alphabet.names ∨ name ∈ B.alphabet.names := by
  rw [completed, alphabet_completion]
  exact Alphabet.mem_names_internAll

theorem WellFormed.accepts_completed (hA : A.WellFormed) (word : List String) :
    (A.completed B).accepts word = A.accepts word := by
  rw [completed, accepts_determinize_completion, hA.accepts_widened]

private theorem mem_names_of_accepts {word : List String} (h : A.accepts word) : ∀ name ∈ word, name ∈ A.alphabet.names := by
  obtain ⟨p, q, _, _, hpath⟩ := accepts_iff.1 h
  exact hpath.mem_names

private theorem names_pairing_completed (A B : Automaton) :
    ((A.completed B).pairing (B.completed A).flipFinals).alphabet.names =
      A.alphabet.names ++ B.alphabet.names.filter fun name => !A.alphabet.contains name := by
  rw [names_pairing, ← names_completed]
  refine List.filter_eq_self.2 fun name hname => List.contains_iff_mem.2 ?_
  exact mem_names_completed.2 (mem_names_completed.1 hname).symm

private theorem accepts_pairing_completed (hA : A.WellFormed) (hB : B.WellFormed) (word : List String) :
    ((A.completed B).pairing (B.completed A).flipFinals).accepts word ↔ A.accepts word ∧ ¬ B.accepts word := by
  -- What the first automaton accepts is over the symbols of both, where one of `B` and its complement accepts.
  have hwell := completed_wellFormed B A
  have htotal := completed_isTotal B A
  have hdet := (isTotal_iff.1 htotal).1
  rw [(completed_wellFormed A B).accepts_pairing hwell.flipFinals (isTotal_iff.1 (completed_isTotal A B)).1 hdet,
    Bool.and_eq_true, hA.accepts_completed, hwell.accepts_flipFinals htotal, hB.accepts_completed]
  refine and_congr_right fun haccepts => and_iff_right fun name hname => ?_
  exact mem_names_completed.2 (Or.inr (mem_names_of_accepts haccepts name hname))

/-- A difference fails only when an operand has no room for its sink or there are more pairs of states than can be
numbered. Otherwise it accepts what `A` accepts and `B` does not, over the symbols of `A` and then the new ones of `B`. -/
theorem difference_exact (hA : A.WellFormed) (hB : B.WellFormed) :
    ((A.widened B).determinize.Full ∨ (B.widened A).determinize.Full) ∧ A.difference B = .error .counterOverflow ∨
      ∃ L R, (A.widened B).determinize.complete = .ok L ∧ (B.widened A).determinize.complete = .ok R ∧
        (maxStates < L.numStates * R.numStates ∧ A.difference B = .error .tooManyStates ∨
          L.numStates * R.numStates ≤ maxStates ∧
            ∃ D, A.difference B = .ok D ∧ (∀ word, D.accepts word ↔ A.accepts word ∧ ¬ B.accepts word) ∧
              D.alphabet.names =
                A.alphabet.names ++ B.alphabet.names.filter fun name => !A.alphabet.contains name) := by
  rw [difference]
  rcases (A.widened B).determinize.complete_cases with ⟨hfull, hleft⟩ | ⟨_, hleft⟩
  · rw [hleft]
    exact Or.inl ⟨Or.inl hfull, rfl⟩
  rcases (B.widened A).determinize.complete_cases with ⟨hfull, hright⟩ | ⟨_, hright⟩
  · rw [hleft, hright]
    exact Or.inl ⟨Or.inr hfull, rfl⟩
  · rw [hleft, hright]
    have hproduct := (A.completed B).product_cases (B.completed A).flipFinals
    refine Or.inr ⟨A.completed B, B.completed A, rfl, rfl, hproduct.imp_right fun ⟨hfit, hok⟩ => ?_⟩
    exact ⟨hfit, _, hok, accepts_pairing_completed hA hB, names_pairing_completed A B⟩

/-- The operands share no symbol, and the empty word is the only one that both accept. -/
theorem difference_circle : (circle 2).WellFormed ∧
    ({ circle 2 with alphabet := .ofNames ["b"] } : Automaton).WellFormed ∧
    ∃ D, (circle 2).difference { circle 2 with alphabet := .ofNames ["b"] } = .ok D ∧
      D.accepts ["a", "a"] ∧ D.accepts [] = false ∧ D.alphabet.names = ["a", "b"] := by
  have hleft : (circle 2).WellFormed := circle_wellFormed (by decide)
  have hright : ({ circle 2 with alphabet := .ofNames ["b"] } : Automaton).WellFormed :=
    hleft.addSymbols (by decide)
  refine ⟨hleft, hright, ?_⟩
  rcases difference_exact hleft hright with ⟨hfull, _⟩ | ⟨L, R, hL, hR, hcases⟩
  · rcases hfull with ⟨_, hmany⟩ | ⟨_, hmany⟩
    · exact absurd hmany (by decide +kernel)
    · exact absurd hmany (by decide +kernel)
  · rcases hcases with ⟨hmany, _⟩ | ⟨_, D, hD, hlanguage, hnames⟩
    · rw [← of_complete hL, ← of_complete hR] at hmany
      exact absurd hmany (by decide +kernel)
    · refine ⟨D, hD, (hlanguage _).2 (by decide +kernel), Bool.eq_false_iff.2 fun h => ?_, hnames⟩
      exact absurd ((hlanguage _).1 h) (by decide +kernel)

end RegularLanguages.Automaton
