import RegularLanguages.Proofs.Paths

/-!
Runs of deterministic automata: a word leads to at most one state, and it is accepted when that state is
final.
-/
namespace RegularLanguages.Automaton

/-- Where a symbol leads. Nowhere leads nowhere. -/
def step? (A : Automaton) (q : Option State) (name : String) : Option State :=
  q.bind fun q => A.nextByName? q name

def after? (A : Automaton) (q : Option State) (word : List String) : Option State :=
  word.foldl A.step? q

/-- Whether a word leads from `q` to a final state: the words of the residual language of `q`. -/
def acceptsFrom (A : Automaton) (q : Option State) (word : List String) : Bool :=
  (A.after? q word).any A.finals.contains

variable {A : Automaton}

@[simp] theorem after?_nil (q : Option State) : A.after? q [] = q := rfl

@[simp] theorem after?_cons (q : Option State) (name : String) (word : List String) :
    A.after? q (name :: word) = A.after? (A.step? q name) word := rfl

theorem after?_append (q : Option State) (u v : List String) :
    A.after? q (u ++ v) = A.after? (A.after? q u) v := List.foldl_append

theorem after?_none (word : List String) : A.after? none word = none := by
  induction word with
  | nil => rfl
  | cons name word ih => exact ih

theorem acceptsFrom_nil (q : Option State) : A.acceptsFrom q [] = q.any A.finals.contains := rfl

theorem acceptsFrom_cons (q : Option State) (name : String) (word : List String) :
    A.acceptsFrom q (name :: word) = A.acceptsFrom (A.step? q name) word := rfl

theorem acceptsFrom_append (q : Option State) (u v : List String) :
    A.acceptsFrom q (u ++ v) = A.acceptsFrom (A.after? q u) v := by
  rw [acceptsFrom, after?_append]
  rfl

theorem acceptsFrom_none (word : List String) : A.acceptsFrom none word = false := by
  rw [acceptsFrom, after?_none]
  rfl

theorem step?_eq_some_iff {q : Option State} {name : String} {r : State} :
    A.step? q name = some r ↔
      ∃ p a, q = some p ∧ A.alphabet.id? name = some a ∧ A.next? p a = some r := by
  simp only [step?, nextByName?, Option.bind_eq_some_iff]
  constructor
  · rintro ⟨p, hp, a, ha, h⟩
    exact ⟨p, a, hp, ha, h⟩
  · rintro ⟨p, a, hp, ha, h⟩
    exact ⟨p, hp, a, ha, h⟩

theorem step?_unknown {name : String} (hname : A.alphabet.id? name = none) (q : Option State) :
    A.step? q name = none := by
  cases q <;> simp [step?, nextByName?, hname]

/-- In a deterministic relation the least target is the only one. -/
theorem next?_eq_some_iff (h : A.transitions.isDeterministic) {q r : State} {a : SymbolId} :
    A.next? q a = some r ↔ A.transitions.contains q (.symbol a) r := by
  rw [Transitions.isDeterministic_iff] at h
  simp only [next?, Option.bind_eq_some_iff, StateSet.first?_eq_some_iff, Transitions.contains_iff,
    Transitions.get?]
  constructor
  · rintro ⟨S, hS, hr, _⟩
    exact ⟨S, hS, hr⟩
  · rintro ⟨S, hS, hr⟩
    refine ⟨S, hS, hr, fun p hp => Nat.le_of_eq ?_⟩
    exact (h q _ r (Transitions.contains_iff.2 ⟨S, hS, hr⟩)).2 p (Transitions.contains_iff.2 ⟨S, hS, hp⟩)

theorem exists_start (h : A.isDeterministic) :
    ∃ s, A.starts.first? = some s ∧ ∀ p, A.starts.contains p ↔ p = s := by
  rw [isDeterministic, Bool.and_eq_true, beq_iff_eq, ← StateSet.length_toList] at h
  obtain ⟨s, hs⟩ := List.length_eq_one_iff.1 h.1
  refine ⟨s, by rw [StateSet.first?, hs]; rfl, fun p => ?_⟩
  rw [← StateSet.mem_toList, hs, List.mem_singleton]

theorem transitions_isDeterministic (h : A.isDeterministic) : A.transitions.isDeterministic := by
  rw [isDeterministic, Bool.and_eq_true] at h
  exact h.2

theorem isDeterministic_of_singleton {q : State} (hstarts : A.starts = .singleton q)
    (h : A.transitions.isDeterministic) : A.isDeterministic := by
  rw [isDeterministic, hstarts, StateSet.card_singleton, h]
  rfl

theorem path_iff_after? (h : A.transitions.isDeterministic) {p q : State} {word : List String} :
    A.Path p word q ↔ A.after? (some p) word = some q := by
  constructor
  · intro hp
    induction hp with
    | nil => rfl
    | epsilon edge =>
      have := (Transitions.isDeterministic_iff.1 h _ _ _ (edge_epsilon_iff.1 edge)).1
      exact absurd rfl this
    | symbol edge _ ih =>
      obtain ⟨a, ha, ht⟩ := edge_symbol_iff.1 edge
      rw [after?_cons, step?_eq_some_iff.2 ⟨_, a, rfl, ha, (next?_eq_some_iff h).2 ht⟩]
      exact ih
  · intro hq
    induction word generalizing p with
    | nil =>
      obtain rfl := Option.some.inj hq
      exact .nil p
    | cons name word ih =>
      rw [after?_cons] at hq
      match hr : A.step? (some p) name with
      | none => simp [hr, after?_none] at hq
      | some r =>
        obtain ⟨_, a, hp, ha, ht⟩ := step?_eq_some_iff.1 hr
        obtain rfl := Option.some.inj hp
        rw [hr] at hq
        exact .symbol (edge_symbol_iff.2 ⟨a, ha, (next?_eq_some_iff h).1 ht⟩) (ih hq)

/-- A deterministic automaton accepts the residual language of its start state. -/
theorem accepts_eq_acceptsFrom (h : A.isDeterministic) (word : List String) :
    A.accepts word = A.acceptsFrom A.starts.first? word := by
  obtain ⟨s, hs, hstarts⟩ := exists_start h
  rw [Bool.eq_iff_iff, accepts_iff, acceptsFrom, hs, Option.any_eq_true]
  simp only [hstarts, path_iff_after? (transitions_isDeterministic h)]
  constructor
  · rintro ⟨p, q, rfl, hq, h⟩
    exact ⟨q, h, hq⟩
  · rintro ⟨q, h, hq⟩
    exact ⟨s, q, rfl, hq, h⟩

end RegularLanguages.Automaton
