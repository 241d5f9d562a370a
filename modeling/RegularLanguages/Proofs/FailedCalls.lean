import RegularLanguages.Proofs.Counterparts
import RegularLanguages.Proofs.Elimination
import RegularLanguages.Recognizer.Session

/-!
What calls that fail leave behind: the states that they mention before they fail, and nothing else. Such states have no
part in what is accepted, but they take numbers.
-/
namespace RegularLanguages.Recognizer

open Automaton

variable {V E : Type}

section Mentions

variable (text : V → Except E String)

/-- The texts of values, up to the first value that has none. -/
def texts : List V → List String
  | [] => []
  | v :: rest =>
    match text v with
    | .ok name => name :: texts rest
    | .error _ => []

def stateTexts : Option (Wrapped V) → List String
  | some (.state v) => texts text [v]
  | _ => []

def endTexts : Option (Wrapped V) → Option (Wrapped V) → List String
  | some (.state source), some (.state target) => texts text [source, target]
  | _, _ => []

/-- The names of the states that a call comes to mention, in order. -/
def Request.mentions : Request V E → List String
  | addTransition source _ target => endTexts text source target
  | addStart state | addFinal state => stateTexts text state
  | ask _ => []

end Mentions

def register (R : Recognizer V) (names : List String) : Recognizer V :=
  { R with automaton := R.automaton.registerAll names }

variable {text : V → Except E String} {R S : Recognizer V} {N M : Alphabet}

private theorem texts_error {v : V} {e : E} (h : text v = .error e) (rest : List V) : texts text (v :: rest) = [] := by
  rw [texts, h]

private theorem texts_ok {v : V} {name : String} (h : text v = .ok name) (rest : List V) :
    texts text (v :: rest) = name :: texts text rest := by
  rw [texts, h]

theorem automaton_note (R : Recognizer V) (name : String) (v : V) : (R.note name v).automaton = R.automaton := by
  unfold note
  split <;> rfl

section Registering

variable {β : Type} {f : Recognizer V → State → Call V E β} {v : V}

private theorem withState_error {e : E} (h : text v = .error e) : R.withState text v f = ⟨R, .error (.raised e)⟩ := by
  rw [withState, h]

theorem withState_ok (hR : R.automaton.Named N) {name : String} (hv : text v = .ok name)
    (hroom : (N.intern name).size ≤ maxStates) :
    ∃ q, (R.register [name]).automaton.findState? name = some q ∧ R.withState text v f = f (R.register [name]) q := by
  obtain ⟨hanswer, hnamed⟩ := hR.state hroom
  refine ⟨(N.intern name).idOf name, ?_, ?_⟩
  · change (R.automaton.state name).automaton.findState? name = _
    rw [hnamed.findState?_eq, Alphabet.id?_idOf (Alphabet.mem_names_intern.2 (Or.inr rfl))]
  · rw [withState, hv]
    simp only [proceed, hanswer]
    rfl

end Registering

private theorem linkOn_cases (text : V → Except E String) (label : Option (Wrapped V)) :
    (∃ e, ∀ (R : Recognizer V) p q, R.linkOn text p label q = ⟨R, .error e⟩) ∨
    (∀ (R : Recognizer V) p q, R.linkOn text p label q = R.link p .epsilon q) ∨
    ∃ name v, ∀ (R : Recognizer V) p q, R.linkOn text p label q = (R.note name v).link p (.symbol name) q := by
  unfold linkOn
  split
  · exact Or.inr (Or.inl fun _ _ _ => rfl)
  · rename_i v
    cases hv : text v with
    | ok name => exact Or.inr (Or.inr ⟨name, v, fun _ _ _ => rfl⟩)
    | error e => exact Or.inl ⟨.raised e, fun _ _ _ => rfl⟩
  · exact Or.inl ⟨.noLabel, fun _ _ _ => rfl⟩

/-- `R` has the states of the names in `N`, and `S` those of some of them, the names in `M`. In all else they agree. -/
structure Shadows (N M : Alphabet) (R S : Recognizer V) : Prop where
  full : R.automaton.Named N
  partly : S.automaton.Named M
  subset : M.names ⊆ N.names
  symbols_eq : R.symbols = S.symbols
  same : R.automaton.SameByName S.automaton

namespace Shadows

variable {names : List String} {name source target : String} {p q p' q' : State} (h : Shadows N M R S)

include h

theorem internAll_subset (names : List String) : (M.internAll names).names ⊆ (N.internAll names).names := by
  intro name hname
  rw [Alphabet.mem_names_internAll] at hname ⊢
  exact hname.imp_left (h.subset ·)

theorem room (hroom : (N.internAll names).size ≤ maxStates) : (M.internAll names).size ≤ maxStates :=
  Nat.le_trans (Alphabet.size_le_of_subset (h.internAll_subset names)) hroom

/-- States that only the one mentions do not matter. -/
theorem register (hroom : (N.internAll names).size ≤ maxStates) :
    Shadows (N.internAll names) M (R.register names) S where
  full := h.full.registerAll hroom
  partly := h.partly
  subset _ hname := Alphabet.mem_names_internAll.2 (Or.inl (h.subset hname))
  symbols_eq := h.symbols_eq
  same := (h.full.registerAll_sameByName hroom).trans h.same

private theorem registerBoth (hroom : (N.internAll names).size ≤ maxStates) :
    Shadows (N.internAll names) (M.internAll names) (R.register names) (S.register names) where
  full := h.full.registerAll hroom
  partly := h.partly.registerAll (h.room hroom)
  subset := h.internAll_subset names
  symbols_eq := h.symbols_eq
  same := (h.full.registerAll_sameByName hroom).trans
    (h.same.trans (h.partly.registerAll_sameByName (h.room hroom)).symm)

theorem note (name : String) (v : V) : Shadows N M (R.note name v) (S.note name v) := by
  unfold Recognizer.note
  rw [h.symbols_eq]
  split
  · exact h
  · exact ⟨h.full, h.partly, h.subset, rfl, h.same⟩

theorem addStart (hp : R.automaton.findState? name = some p) (hq : S.automaton.findState? name = some q) :
    Shadows N M { R with automaton := (R.automaton.addStart p).automaton }
      { S with automaton := (S.automaton.addStart q).automaton } :=
  ⟨h.full.addStart hp, h.partly.addStart hq, h.subset, h.symbols_eq, h.same.addStart h.full h.partly hp hq⟩

theorem addFinal (hp : R.automaton.findState? name = some p) (hq : S.automaton.findState? name = some q) :
    Shadows N M { R with automaton := (R.automaton.addFinal p).automaton }
      { S with automaton := (S.automaton.addFinal q).automaton } :=
  ⟨h.full.addFinal hp, h.partly.addFinal hq, h.subset, h.symbols_eq, h.same.addFinal h.full h.partly hp hq⟩

/-- A transition between states is added without failure. -/
theorem link (hp : R.automaton.findState? source = some p) (hp' : S.automaton.findState? source = some p')
    (hq : R.automaton.findState? target = some q) (hq' : S.automaton.findState? target = some q')
    (label : Label String) :
    ∃ added, (R.link (E := E) p label q).answer = .ok added ∧
      Shadows N M (R.link (E := E) p label q).recognizer (S.link (E := E) p' label q').recognizer := by
  have hlinked : ∀ {R : Recognizer V} {N p q}, R.automaton.Named N → R.automaton.findState? source = some p →
      R.automaton.findState? target = some q → ∃ added, R.link (E := E) p label q =
        ⟨{ R with automaton := (R.automaton.addTransition p label q).automaton }, .ok added⟩ := by
    intro R N p q hR hp hq
    rw [Recognizer.link, addTransition_of_lt (hR.findState?_lt hp) (hR.findState?_lt hq)]
    exact ⟨_, rfl⟩
  obtain ⟨added, hR⟩ := hlinked h.full hp hq
  obtain ⟨_, hS⟩ := hlinked h.partly hp' hq'
  rw [hR, hS]
  exact ⟨added, rfl, h.full.addTransition hp hq label, h.partly.addTransition hp' hq' label, h.subset, h.symbols_eq,
    h.same.addTransition h.full h.partly hp hp' hq hq' label⟩

end Shadows

/-- A call fails and leaves only the states that it mentions, or it succeeds and keeps the recognizers alike. -/
def Settles {α : Type} (N M : Alphabet) (R : Recognizer V) (names : List String) (c d : Call V E α) : Prop :=
  (∃ e, c = ⟨R.register names, .error e⟩) ∨
  ∃ a, c.answer = .ok a ∧ Shadows (N.internAll names) (M.internAll names) c.recognizer d.recognizer

section Settling

variable {source target : String} {p q p' q' : State}

/-- A state is registered first. What the call does then decides how it settles. -/
theorem Shadows.withState_settles {β : Type} (h : Shadows N M R S) {v : V} {rest : List V}
    {f g : Recognizer V → State → Call V E β} (hroom : (N.internAll (texts text (v :: rest))).size ≤ maxStates)
    (hnext : ∀ {name p q}, ((N.internAll [name]).internAll (texts text rest)).size ≤ maxStates →
      (R.register [name]).automaton.findState? name = some p →
      (S.register [name]).automaton.findState? name = some q →
      Shadows (N.internAll [name]) (M.internAll [name]) (R.register [name]) (S.register [name]) →
      Settles (N.internAll [name]) (M.internAll [name]) (R.register [name]) (texts text rest)
        (f (R.register [name]) p) (g (S.register [name]) q)) :
    Settles N M R (texts text (v :: rest)) (R.withState text v f) (S.withState text v g) := by
  cases hv : text v with
  | error e =>
    rw [texts_error hv]
    exact Or.inl ⟨.raised e, withState_error hv⟩
  | ok name =>
    rw [texts_ok hv] at hroom ⊢
    have hfirst : (N.internAll [name]).size ≤ maxStates := Nat.le_trans (Alphabet.size_le_internAll _) hroom
    obtain ⟨p, hp, hR⟩ := withState_ok h.full hv hfirst (f := f)
    obtain ⟨q, hq, hS⟩ := withState_ok h.partly hv (h.room hfirst) (f := g)
    rw [hR, hS]
    exact hnext hroom hp hq (h.registerBoth hfirst)

theorem Shadows.onState_settles (h : Shadows N M R S) {act : Automaton → State → Automaton.Registration Unit}
    (state : Option (Wrapped V))
    (hact : ∀ {N M R S name p q}, Shadows (V := V) N M R S → R.automaton.findState? name = some p →
      S.automaton.findState? name = some q →
      (act R.automaton p).answer = .ok () ∧ (act S.automaton q).answer = .ok () ∧
      Shadows N M { R with automaton := (act R.automaton p).automaton }
        { S with automaton := (act S.automaton q).automaton })
    (hroom : (N.internAll (stateTexts text state)).size ≤ maxStates) :
    Settles N M R (stateTexts text state) (R.onState text act state) (S.onState text act state) := by
  rcases state with _ | v | v | _
  case some.state =>
    refine h.withState_settles hroom fun _ hp hq hregistered => ?_
    obtain ⟨hactR, hactS, hboth⟩ := hact hregistered hp hq
    simp only [proceed, hactR, hactS]
    exact Or.inr ⟨(), rfl, hboth⟩
  all_goals exact Or.inl ⟨.wrongKind, rfl⟩

private theorem Shadows.addStart_settles (h : Shadows N M R S) (state : Option (Wrapped V))
    (hroom : (N.internAll (stateTexts text state)).size ≤ maxStates) :
    Settles N M R (stateTexts text state) (R.addStart text state) (S.addStart text state) := by
  refine h.onState_settles state (fun g hp hq => ⟨?_, ?_, g.addStart hp hq⟩) hroom
  · rw [addStart_of_lt (g.full.findState?_lt hp)]
  · rw [addStart_of_lt (g.partly.findState?_lt hq)]

private theorem Shadows.addFinal_settles (h : Shadows N M R S) (state : Option (Wrapped V))
    (hroom : (N.internAll (stateTexts text state)).size ≤ maxStates) :
    Settles N M R (stateTexts text state) (R.addFinal text state) (S.addFinal text state) := by
  refine h.onState_settles state (fun g hp hq => ⟨?_, ?_, g.addFinal hp hq⟩) hroom
  · rw [addFinal_of_lt (g.full.findState?_lt hp)]
  · rw [addFinal_of_lt (g.partly.findState?_lt hq)]

private theorem Shadows.linkOn_settles (h : Shadows N M R S) (hp : R.automaton.findState? source = some p)
    (hp' : S.automaton.findState? source = some p') (hq : R.automaton.findState? target = some q)
    (hq' : S.automaton.findState? target = some q') (label : Option (Wrapped V)) :
    Settles N M R [] (R.linkOn text p label q) (S.linkOn text p' label q') := by
  rcases linkOn_cases text label with ⟨e, hlink⟩ | hlink | ⟨name, v, hlink⟩
  · rw [hlink]
    exact Or.inl ⟨_, rfl⟩
  · rw [hlink, hlink]
    exact Or.inr (h.link hp hp' hq hq' .epsilon)
  · rw [hlink, hlink]
    exact Or.inr ((h.note name v).link (by rwa [automaton_note]) (by rwa [automaton_note])
      (by rwa [automaton_note]) (by rwa [automaton_note]) (.symbol name))

private theorem Shadows.addTransition_settles (h : Shadows N M R S) (source label target : Option (Wrapped V))
    (hroom : (N.internAll (endTexts text source target)).size ≤ maxStates) :
    Settles N M R (endTexts text source target) (R.addTransition text source label target)
      (S.addTransition text source label target) := by
  rcases source with _ | s | s | _
  case some.state =>
    rcases target with _ | t | t | _
    case some.state =>
      refine h.withState_settles hroom fun hroom hp hp' hsource => ?_
      refine hsource.withState_settles hroom fun hroom hq hq' hends => ?_
      -- The target may be the source; in any case the number of the source stays.
      exact hends.linkOn_settles (hsource.full.findState?_registerAll _ hroom hp)
        (hsource.partly.findState?_registerAll _ (hsource.room hroom) hp') hq hq' label
    all_goals exact Or.inl ⟨.wrongKind, rfl⟩
  all_goals exact Or.inl ⟨.wrongKind, rfl⟩

end Settling

/-- What a call does to recognizers that are alike: if it fails, it leaves only the states that it mentions, and if not,
it keeps them alike. -/
theorem Shadows.perform (h : Shadows N M R S) (request : Request V E)
    (hroom : (N.internAll (request.mentions text)).size ≤ maxStates) :
    (∃ e, R.perform text request = (R.register (request.mentions text), some e)) ∨
    ∃ R', R.perform text request = (R', none) ∧
      Shadows (N.internAll (request.mentions text)) (M.internAll (request.mentions text)) R'
        (S.perform text request).1 := by
  have hsettles : ∀ {α : Type} {names : List String} {c d : Call V E α}, Settles N M R names c d →
      (∃ e, (c.recognizer, failure? c.answer) = (R.register names, some e)) ∨
      ∃ R', (c.recognizer, failure? c.answer) = (R', none) ∧
        Shadows (N.internAll names) (M.internAll names) R' d.recognizer := by
    rintro α names c d (⟨e, rfl⟩ | ⟨a, ha, hboth⟩)
    · exact Or.inl ⟨e, rfl⟩
    · exact Or.inr ⟨c.recognizer, by rw [ha]; rfl, hboth⟩
  cases request with
  | addTransition source label target => exact hsettles (h.addTransition_settles source label target hroom)
  | addStart state => exact hsettles (h.addStart_settles state hroom)
  | addFinal state => exact hsettles (h.addFinal_settles state hroom)
  | ask query =>
    change (∃ e, (R, query.failure? text R) = (R, some e)) ∨
      ∃ R', (R, query.failure? text R) = (R', none) ∧ Shadows N M R' S
    cases query.failure? text R with
    | none => exact Or.inr ⟨R, rfl, h⟩
    | some e => exact Or.inl ⟨e, rfl⟩

/-- The calls that fail can be left out, but for the states that they mention. -/
theorem Shadows.performAll (h : Shadows N M R S) (requests : List (Request V E))
    (hroom : (N.internAll (requests.flatMap (Request.mentions text))).size ≤ maxStates) :
    Shadows (N.internAll (requests.flatMap (Request.mentions text)))
      (M.internAll ((R.succeeding text requests).flatMap (Request.mentions text)))
      (R.performAll text requests) (S.performAll text (R.succeeding text requests)) := by
  induction requests generalizing N M R S with
  | nil => exact h
  | cons request rest ih =>
    have hsplit : ∀ (N : Alphabet) (names more : List String),
        N.internAll (names ++ more) = (N.internAll names).internAll more := fun _ _ _ => List.foldl_append
    rw [List.flatMap_cons, hsplit] at hroom ⊢
    have hfirst : (N.internAll (request.mentions text)).size ≤ maxStates :=
      Nat.le_trans (Alphabet.size_le_internAll _) hroom
    rcases h.perform request hfirst with ⟨e, hfail⟩ | ⟨R', hok, hboth⟩
    · have hrest : R.succeeding text (request :: rest) =
          (R.register (request.mentions text)).succeeding text rest := by
        rw [succeeding, hfail]
      have hall : R.performAll text (request :: rest) = (R.register (request.mentions text)).performAll text rest :=
        congrArg (fun r : Recognizer V × Option (Failure E) => r.1.performAll text rest) hfail
      rw [hrest, hall]
      exact ih (h.register hfirst) hroom
    · have hrest : R.succeeding text (request :: rest) = request :: R'.succeeding text rest := by
        rw [succeeding, hok]
      have hall : R.performAll text (request :: rest) = R'.performAll text rest :=
        congrArg (fun r : Recognizer V × Option (Failure E) => r.1.performAll text rest) hok
      rw [hrest, hall, List.flatMap_cons, hsplit]
      exact ih hboth hroom

theorem empty_shadows : Shadows (V := V) ∅ ∅ ∅ ∅ := ⟨empty_named, empty_named, fun _ => id, rfl, .refl _⟩

/-- Equal but for states without any role, and for the numbers of states. All that does not show these is equal. -/
structure SameBehaviour (text : V → Except E String) (R S : Recognizer V) : Prop where
  symbols_eq : R.symbols = S.symbols
  sameByName : R.automaton.SameByName S.automaton
  accepts_eq : ∀ word : Word V E, R.accepts text word = S.accepts text word
  isEmpty_eq : R.automaton.isEmpty = S.automaton.isEmpty
  isDeterministic_eq : R.automaton.isDeterministic = S.automaton.isDeterministic
  toExpression_iff : ∀ order word,
    word ∈ (R.automaton.toExpression order).language ↔ word ∈ (S.automaton.toExpression order).language
  determinize_same : R.determinize.recognizer.automaton.SameUpToNames S.determinize.recognizer.automaton
  minimize_same : SameOutcome (R.minimize.map fun D => D.recognizer.automaton)
    (S.minimize.map fun D => D.recognizer.automaton)

theorem Shadows.sameBehaviour (h : Shadows N M R S) (text : V → Except E String) : R.SameBehaviour text S where
  symbols_eq := h.symbols_eq
  sameByName := h.same
  accepts_eq word := by
    have haccepts : R.automaton.accepts = S.automaton.accepts := funext (h.same.accepts_eq h.full h.partly)
    unfold Recognizer.accepts
    rw [haccepts]
  isEmpty_eq := h.same.isEmpty_eq h.full h.partly
  isDeterministic_eq := h.same.isDeterministic_eq h.full h.partly
  toExpression_iff order word := by
    rw [mem_language_toExpression h.full.toWellFormed, mem_language_toExpression h.partly.toWellFormed,
      h.same.accepts_eq h.full h.partly]
  determinize_same := h.same.determinize_sameUpToNames h.full h.partly
  minimize_same := by
    have hminimize := (h.same.determinize_sameUpToNames h.full h.partly).minimize
    unfold Recognizer.minimize DeterministicRecognizer.minimize Recognizer.determinize
    generalize R.automaton.determinize.minimize = left at hminimize ⊢
    generalize S.automaton.determinize.minimize = right at hminimize ⊢
    cases hminimize with
    | ok hsame => exact .ok hsame
    | error e => exact .error e

/-- As long as states can be numbered, a call that fails leaves nothing but the states that it has mentioned. States are
numbered in the order in which calls mention them, also calls that fail then. But for states without any role and for the
numbers of states, the calls that fail might never have been made. This is so whatever the values are, as long as a value
always has the same text, or none. -/
theorem failed_calls_leave_states (text : V → Except E String) (requests : List (Request V E))
    (hroom : (Alphabet.ofNames (requests.flatMap (Request.mentions text))).size ≤ maxStates) :
    (∀ before request rest e, requests = before ++ request :: rest →
      ((after text before).perform text request).2 = some e →
      ((after text before).perform text request).1 = (after text before).register (request.mentions text)) ∧
    (after text requests).automaton.stateNames =
      (Alphabet.ofNames (requests.flatMap (Request.mentions text))).names ∧
    (after text requests).SameBehaviour text (after text (succeeding text ∅ requests)) := by
  have hall := empty_shadows.performAll requests hroom
  refine ⟨?_, hall.full.stateNames_eq, hall.sameBehaviour text⟩
  rintro before request rest e rfl hfail
  rw [Alphabet.ofNames, List.flatMap_append, List.flatMap_cons, ← List.append_assoc, Alphabet.internAll,
    List.foldl_append, List.foldl_append] at hroom
  have hroom := Nat.le_trans (Alphabet.size_le_internAll _) hroom
  have hbefore := empty_shadows.performAll before (Nat.le_trans (Alphabet.size_le_internAll _) hroom)
  rcases hbefore.perform request hroom with ⟨_, hperform⟩ | ⟨_, hperform, _⟩
  · exact congrArg Prod.fst hperform
  · rw [after, hperform] at hfail
    cases hfail

/-- Numbers with their decimal texts, and a value whose text raises an error. -/
def clumsyText : Option Nat → Except String String
  | some n => .ok (toString n)
  | none => .error "no text"

/-- A transition that cannot be added, because its label is not wrapped, after a call that succeeds; another transition that
cannot be added, because its target has no text; and a word of one symbol. -/
def clumsyRequests : List (Request (Option Nat) String) :=
  [.addStart (some (.state (some 0))),
    .addTransition (some (.state (some 1))) none (some (.state (some 2))),
    .addTransition (some (.state (some 3))) (some .epsilon) (some (.state none)),
    .addTransition (some (.state (some 0))) (some (.symbol (some 7))) (some (.state (some 4))),
    .ask (.accepts (.sequence [some (.symbol (some 7))] none))]

theorem failed_calls_leave_states_clumsy :
    (Alphabet.ofNames (clumsyRequests.flatMap (Request.mentions clumsyText))).size ≤ maxStates ∧
    (after clumsyText (clumsyRequests.take 2)).automaton.stateNames = ["0", "1", "2"] ∧
    (after clumsyText clumsyRequests).automaton.stateNames = ["0", "1", "2", "3", "4"] ∧
    (after clumsyText clumsyRequests).SameBehaviour clumsyText
      (after clumsyText (succeeding clumsyText ∅ clumsyRequests)) := by
  have hroom : (Alphabet.ofNames (clumsyRequests.flatMap (Request.mentions clumsyText))).size ≤ maxStates := by decide
  obtain ⟨hfailed, hnames, hsame⟩ := failed_calls_leave_states clumsyText clumsyRequests hroom
  have hleft := hfailed (clumsyRequests.take 1) _ _ .noLabel rfl rfl
  exact ⟨hroom, congrArg (fun R : Recognizer (Option Nat) => R.automaton.stateNames) hleft, hnames, hsame⟩

/-- Such calls are not without traces: leaving them out leaves out their states. -/
theorem failed_call_leaves_trace :
    (after clumsyText clumsyRequests).automaton.numStates = 5 ∧
    (after clumsyText (succeeding clumsyText ∅ clumsyRequests)).automaton.numStates = 2 ∧
    ¬ ∀ requests, after clumsyText requests = after clumsyText (succeeding clumsyText ∅ requests) := by
  have hall : (after clumsyText clumsyRequests).automaton.numStates = 5 := by decide
  have hrest : (after clumsyText (succeeding clumsyText ∅ clumsyRequests)).automaton.numStates = 2 := by decide
  refine ⟨hall, hrest, fun h => ?_⟩
  rw [h clumsyRequests, hrest] at hall
  cases hall

end RegularLanguages.Recognizer
