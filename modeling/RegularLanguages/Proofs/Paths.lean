import RegularLanguages.Automaton.Acceptance
import RegularLanguages.Proofs.Alphabets
import RegularLanguages.Proofs.Relation
import RegularLanguages.Proofs.Saturation

/-!
Acceptance by paths: a word is accepted exactly when it is spelled along some path from a start state to a
final state.
-/
namespace RegularLanguages.Automaton

def Edge (A : Automaton) (p : State) (l : Label String) (q : State) : Prop :=
  ∃ k, A.alphabet.resolve k = some l ∧ A.transitions.contains p k q

/-- The word is spelled by the edges from `p` to `q`. Epsilon edges add nothing to it. -/
inductive Path (A : Automaton) : State → List String → State → Prop
  | nil (q : State) : Path A q [] q
  | epsilon {p q r : State} {word : List String} (edge : A.Edge p .epsilon q) (rest : Path A q word r) :
    Path A p word r
  | symbol {p q r : State} {name : String} {word : List String} (edge : A.Edge p (.symbol name) q)
    (rest : Path A q word r) : Path A p (name :: word) r

variable {A : Automaton}

theorem edge_epsilon_iff {p q : State} :
    A.Edge p .epsilon q ↔ A.transitions.contains p .epsilon q := by
  constructor
  · rintro ⟨k, hk, h⟩
    cases k with
    | epsilon => exact h
    | symbol a => simp [Alphabet.resolve] at hk
  · exact fun h => ⟨.epsilon, rfl, h⟩

theorem edge_symbol_iff {p q : State} {name : String} :
    A.Edge p (.symbol name) q ↔
      ∃ a, A.alphabet.id? name = some a ∧ A.transitions.contains p (.symbol a) q := by
  constructor
  · rintro ⟨k, hk, h⟩
    cases k with
    | epsilon => simp [Alphabet.resolve] at hk
    | symbol a => exact ⟨a, Alphabet.id?_eq_some_iff.2 (by simpa [Alphabet.resolve] using hk), h⟩
  · rintro ⟨a, ha, h⟩
    exact ⟨.symbol a, by simp [Alphabet.resolve, Alphabet.id?_eq_some_iff.1 ha], h⟩

theorem Path.append {p q r : State} {u v : List String} (h : A.Path p u q) (g : A.Path q v r) :
    A.Path p (u ++ v) r := by
  induction h with
  | nil => exact g
  | epsilon edge _ ih => exact .epsilon edge (ih g)
  | symbol edge _ ih => exact .symbol edge (ih g)

theorem Path.mono {B : Automaton} (hedges : ∀ p l q, A.Edge p l q → B.Edge p l q) {p q : State}
    {word : List String} (h : A.Path p word q) : B.Path p word q := by
  induction h with
  | nil => exact .nil _
  | epsilon edge _ ih => exact .epsilon (hedges _ _ _ edge) ih
  | symbol edge _ ih => exact .symbol (hedges _ _ _ edge) ih

/-- Paths depend on the alphabet and the transitions only. -/
theorem path_congr (A B : Automaton) (halphabet : A.alphabet = B.alphabet)
    (htransitions : A.transitions = B.transitions) {p q : State} {word : List String} :
    A.Path p word q ↔ B.Path p word q := by
  have hedges : ∀ p l q, A.Edge p l q ↔ B.Edge p l q := fun p l q => by rw [Edge, Edge, halphabet, htransitions]
  exact ⟨Path.mono fun p l q => (hedges p l q).1, Path.mono fun p l q => (hedges p l q).2⟩

theorem Path.single_epsilon {p q : State} (h : A.Edge p .epsilon q) : A.Path p [] q :=
  .epsilon h (.nil q)

theorem Path.single_symbol {p q : State} {name : String} (h : A.Edge p (.symbol name) q) :
    A.Path p [name] q :=
  .symbol h (.nil q)

/-- A path that spells a word reads its first symbol after some epsilon edges. -/
theorem path_cons_iff {p r : State} {name : String} {word : List String} :
    A.Path p (name :: word) r ↔
      ∃ q s, A.Path p [] q ∧ A.Edge q (.symbol name) s ∧ A.Path s word r := by
  constructor
  · intro h
    generalize hw : name :: word = w at h
    induction h with
    | nil => cases hw
    | epsilon edge _ ih =>
      obtain ⟨q, s, hq, hs, hr⟩ := ih hw
      exact ⟨q, s, .epsilon edge hq, hs, hr⟩
    | symbol edge rest =>
      cases hw
      exact ⟨_, _, .nil _, edge, rest⟩
  · rintro ⟨q, s, hq, hs, hr⟩
    exact hq.append (.symbol hs hr)

/-- Wherever a word is cut, its path passes through some state. -/
theorem Path.split {p r : State} {u v : List String} (h : A.Path p (u ++ v) r) :
    ∃ q, A.Path p u q ∧ A.Path q v r := by
  induction u generalizing p with
  | nil => exact ⟨p, .nil p, h⟩
  | cons name u ih =>
    obtain ⟨s, t, hs, edge, hrest⟩ := path_cons_iff.1 h
    obtain ⟨q, hq, hv⟩ := ih hrest
    exact ⟨q, path_cons_iff.2 ⟨s, t, hs, edge, hq⟩, hv⟩

theorem path_nil_iff {p q : State} :
    A.Path p [] q ↔ StateSet.Reaches (fun q => A.transitions.targets q .epsilon) p q := by
  constructor
  · intro h
    generalize hw : ([] : List String) = w at h
    induction h with
    | nil => exact .refl
    | epsilon edge _ ih => exact (ih hw).head (edge_epsilon_iff.1 edge)
    | symbol => cases hw
  · intro h
    induction h with
    | refl => exact .nil _
    | tail _ hstep ih => exact ih.append (.single_epsilon (edge_epsilon_iff.2 hstep))

/-- The closure of a set holds what paths without symbols lead to. -/
theorem contains_closure {S : StateSet} {q : State} :
    (A.closure S).contains q ↔ ∃ p, S.contains p ∧ A.Path p [] q := by
  simp only [path_nil_iff]
  refine StateSet.contains_saturate (Finset.range A.transitions.width) (fun p q hq => ?_) (by simp) S q
  exact Finset.mem_range.2 (Transitions.lt_width hq)

theorem contains_move {S : StateSet} {a : SymbolId} {q : State} :
    (A.move S a).contains q ↔
      ∃ p s, S.contains p ∧ A.transitions.contains p (.symbol a) s ∧ A.Path s [] q := by
  simp only [move, contains_closure, edgesOn, StateSet.contains_image]
  constructor
  · rintro ⟨s, ⟨p, hp, hs⟩, hq⟩
    exact ⟨p, s, hp, hs, hq⟩
  · rintro ⟨p, s, hp, hs, hq⟩
    exact ⟨s, ⟨p, hp, hs⟩, hq⟩

theorem contains_read {S : StateSet} {name : String} {q : State} :
    (A.read S name).contains q ↔
      ∃ p s, S.contains p ∧ A.Edge p (.symbol name) s ∧ A.Path s [] q := by
  simp only [read, edge_symbol_iff]
  cases A.alphabet.id? name with
  | none => simp
  | some a => simp [contains_move]

private theorem contains_foldl_read {S : StateSet} {word : List String} {q : State}
    (hS : ∀ p r, S.contains p → A.Path p [] r → S.contains r) :
    (word.foldl A.read S).contains q ↔ ∃ p, S.contains p ∧ A.Path p word q := by
  induction word generalizing S with
  | nil => exact ⟨fun h => ⟨q, h, .nil q⟩, fun ⟨p, hp, h⟩ => hS p q hp h⟩
  | cons name word ih =>
    rw [List.foldl_cons, ih]
    · simp only [contains_read, path_cons_iff]
      constructor
      · rintro ⟨r, ⟨p, s, hp, hs, hr⟩, hq⟩
        exact ⟨p, hp, p, s, .nil p, hs, hr.append hq⟩
      · rintro ⟨p, hp, p', s, hp', hs, hq⟩
        exact ⟨s, ⟨p', s, hS p p' hp hp', hs, .nil s⟩, hq⟩
    · intro p r hp hr
      obtain ⟨p', s, hp', hs, h⟩ := contains_read.1 hp
      exact contains_read.2 ⟨p', s, hp', hs, h.append hr⟩

theorem contains_configuration {word : List String} {q : State} :
    (A.configuration word).contains q ↔ ∃ p, A.starts.contains p ∧ A.Path p word q := by
  rw [configuration, contains_foldl_read]
  · simp only [contains_closure]
    constructor
    · rintro ⟨r, ⟨p, hp, hr⟩, hq⟩
      exact ⟨p, hp, hr.append hq⟩
    · rintro ⟨p, hp, hq⟩
      exact ⟨p, ⟨p, hp, .nil p⟩, hq⟩
  · intro p r hp hr
    obtain ⟨s, hs, h⟩ := contains_closure.1 hp
    exact contains_closure.2 ⟨s, hs, h.append hr⟩

theorem accepts_iff {word : List String} :
    A.accepts word ↔
      ∃ p q, A.starts.contains p ∧ A.finals.contains q ∧ A.Path p word q := by
  rw [accepts, StateSet.meets_iff]
  simp only [contains_configuration]
  constructor
  · rintro ⟨q, ⟨p, hp, h⟩, hq⟩
    exact ⟨p, q, hp, hq, h⟩
  · rintro ⟨p, q, hp, hq, h⟩
    exact ⟨q, ⟨p, hp, h⟩, hq⟩

/-- The words that some path spells from `p` to a final state. -/
def languageFrom (A : Automaton) (p : State) : Set (List String) :=
  { word | ∃ q, A.finals.contains q ∧ A.Path p word q }

theorem mem_languageFrom {p : State} {word : List String} :
    word ∈ A.languageFrom p ↔ ∃ q, A.finals.contains q ∧ A.Path p word q := Iff.rfl

theorem accepts_iff_languageFrom {word : List String} :
    A.accepts word ↔ ∃ p, A.starts.contains p ∧ word ∈ A.languageFrom p := by
  rw [accepts_iff]
  constructor
  · rintro ⟨p, q, hp, hq, h⟩
    exact ⟨p, hp, q, hq, h⟩
  · rintro ⟨p, hp, q, hq, h⟩
    exact ⟨p, q, hp, hq, h⟩

theorem cons_mem_languageFrom {p : State} {name : String} {word : List String} :
    name :: word ∈ A.languageFrom p ↔
      ∃ q s, A.Path p [] q ∧ A.Edge q (.symbol name) s ∧ word ∈ A.languageFrom s := by
  constructor
  · rintro ⟨f, hf, h⟩
    obtain ⟨q, s, hq, hs, hrest⟩ := path_cons_iff.1 h
    exact ⟨q, s, hq, hs, f, hf, hrest⟩
  · rintro ⟨q, s, hq, hs, f, hf, hrest⟩
    exact ⟨f, hf, path_cons_iff.2 ⟨q, s, hq, hs, hrest⟩⟩

end RegularLanguages.Automaton
