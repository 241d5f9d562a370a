import RegularLanguages.Automaton.Equivalence
import RegularLanguages.Automaton.Product
import RegularLanguages.Automaton.Words
import RegularLanguages.Expression.Elimination
import RegularLanguages.Expression.Thompson

/-!
What the constructions report about their work: an event when one of them is finished, and finer events
for single splits and eliminations. A construction that fails reports no end.
-/
namespace RegularLanguages

inductive Level
  | debug
  | trace
  deriving DecidableEq

def Level.name : Level → String
  | debug => "DEBUG"
  | trace => "TRACE"

inductive Event
  | subsetConstruction (before after : Nat)
  | minimization (before after : Nat)
  | split (part kept added : Nat)
  | product (left right result : Nat)
  | thompson (operators states : Nat)
  | eliminating (name : String)
  | elimination (states operators : Nat)
  deriving DecidableEq

namespace Event

def level : Event → Level
  | split .. | eliminating .. => .trace
  | _ => .debug

def message : Event → String
  | subsetConstruction before after => s!"subset construction: {before} states -> {after} states"
  | minimization before after => s!"minimization: {before} states -> {after} states"
  | split part kept added => s!"split partition {part} into {kept} + {added} states"
  | product left right result => s!"product: {left} x {right} states -> {result} states"
  | thompson operators states =>
    s!"thompson construction: {operators} operators -> {states} states"
  | eliminating name => s!"eliminating state {name}"
  | elimination states operators =>
    s!"state elimination: {states} states -> {operators} operators"

end Event

/-- A value with the events on the way to it. -/
structure Traced (α : Type) where
  value : α
  events : List Event

namespace Traced

def after {α : Type} (t : Traced α) (events : List Event) : Traced α := ⟨t.value, events ++ t.events⟩

def map {α β : Type} (f : α → β) (t : Traced α) : Traced β := ⟨f t.value, t.events⟩

/-- Goes on with the value, unless there is none. -/
def andThen {ε α β : Type} (t : Traced (Except ε α)) (f : α → Traced (Except ε β)) : Traced (Except ε β) :=
  match t.value with
  | .ok a => (f a).after t.events
  | .error e => ⟨.error e, t.events⟩

end Traced

namespace Automaton

def determinizationEvent (A D : Automaton) : Event := .subsetConstruction A.numStates D.numStates

def tracedDeterminize (A : Automaton) : Traced Automaton :=
  let D := A.determinize
  ⟨D, [A.determinizationEvent D]⟩

/-- `minimize` with its events: the splits and then the end. -/
def tracedMinimize (A : Automaton) : Traced (Except Failure Automaton) :=
  match Table.ofAutomaton A with
  | .error e => ⟨.error e, []⟩
  | .ok T =>
    let R := T.refine
    let M := Table.quotient A T R
    ⟨.ok M, R.splits.toList.map (fun s => .split s.part s.kept.card s.added.card) ++
      [.minimization A.numStates M.numStates]⟩

def productEvents (A B : Automaton) : Except Failure Automaton → List Event
  | .ok P => [.product A.numStates B.numStates P.numStates]
  | .error _ => []

def tracedIntersect (A B : Automaton) : Traced (Except Failure Automaton) :=
  let P := A.intersect B
  ⟨P, A.productEvents B P⟩

/-- `determinize` and then `complete`, with the event of the first. -/
def tracedTotal (A : Automaton) : Traced (Except Failure Automaton) := A.tracedDeterminize.map complete

/-- `difference` with its events: both determinizations and then the product. -/
def tracedDifference (A B : Automaton) : Traced (Except Failure Automaton) :=
  (A.widened B).tracedTotal.andThen fun left => (B.widened A).tracedTotal.andThen fun right =>
    let P := left.product right.flipFinals
    ⟨P, left.productEvents right.flipFinals P⟩

def tracedCanonical (A B : Automaton) : Traced (Except Failure Automaton) :=
  let D := (A.widened B).tracedDeterminize
  D.value.tracedMinimize.after D.events

def tracedIsEquivalent (A B : Automaton) : Traced Bool :=
  let left := A.tracedCanonical B
  let right := B.tracedCanonical A
  ⟨match left.value, right.value with
    | .ok L, .ok R => L.agreeInStep R
    | _, _ => false, left.events ++ right.events⟩

def tracedAcceptedWords (A : Automaton) (bound : Nat) : Traced (List (List String)) :=
  A.tracedDeterminize.map fun D => D.wordsOf bound

/-- `toExpression` with its events: the states as they are eliminated and then the end. -/
def tracedToExpression (A : Automaton) (order : EliminationOrder) : Traced Expression :=
  let (e, gone) := A.elimination order
  ⟨e, gone.map (fun q => .eliminating (A.stateName q)) ++ [.elimination A.numStates e.numOperators]⟩

end Automaton

namespace Expression

def tracedToAutomaton (e : Expression) : Traced (Except Failure Automaton) :=
  let A := e.toAutomaton
  ⟨A, match A with
    | .ok A => [.thompson e.numOperators A.numStates]
    | .error _ => []⟩

def tracedAccepts (e : Expression) (word : List String) : Traced (Except Failure Bool) :=
  e.tracedToAutomaton.map fun A => A.map fun A => A.accepts word

end Expression

section Values

open Automaton

private theorem Traced.value_andThen {ε α β : Type} (t : Traced (Except ε α)) (f : α → Traced (Except ε β)) :
    (t.andThen f).value = t.value.bind fun a => (f a).value := by
  unfold andThen
  cases t.value <;> rfl

private theorem value_tracedMinimize (A : Automaton) : A.tracedMinimize.value = A.minimize := by
  unfold tracedMinimize minimize
  cases Table.ofAutomaton A <;> rfl

private theorem value_tracedDifference (A B : Automaton) : (A.tracedDifference B).value = A.difference B := by
  simp only [tracedDifference, Traced.value_andThen]
  rfl

private theorem value_tracedIsEquivalent (A B : Automaton) : (A.tracedIsEquivalent B).value = A.isEquivalent B := by
  have hcanonical : ∀ A B : Automaton, (A.tracedCanonical B).value = A.canonical B := fun A B =>
    value_tracedMinimize (A.widened B).determinize
  simp only [tracedIsEquivalent, hcanonical]
  rfl

/-- To report what is done changes no result. -/
theorem value_traced (A B : Automaton) (e : Expression) :
    A.tracedDeterminize.value = A.determinize ∧ A.tracedMinimize.value = A.minimize ∧
    (A.tracedIntersect B).value = A.intersect B ∧ (A.tracedDifference B).value = A.difference B ∧
    (A.tracedIsEquivalent B).value = A.isEquivalent B ∧
    (∀ bound, (A.tracedAcceptedWords bound).value = A.acceptedWords bound) ∧
    (∀ order, (A.tracedToExpression order).value = A.toExpression order) ∧
    e.tracedToAutomaton.value = e.toAutomaton ∧ ∀ word, (e.tracedAccepts word).value = e.accepts word :=
  ⟨rfl, value_tracedMinimize A, rfl, value_tracedDifference A B, value_tracedIsEquivalent A B, fun _ => rfl,
    fun _ => rfl, rfl, fun _ => rfl⟩

end Values

end RegularLanguages
