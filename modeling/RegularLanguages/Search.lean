import RegularLanguages.StateSet
import Std.Data.ExtTreeMap

/-!
Two searches that the analyses and constructions share: the least set of states closed under a successor
function, and the numbering of what a deterministic system reaches, in breadth-first order.
-/
namespace RegularLanguages

namespace StateSet

/-- Adds the successors of the newly found states to those seen before, until none is new. -/
def grow (next : State → StateSet) : Nat → StateSet → StateSet → StateSet
  | 0, seen, _ => seen
  | rounds + 1, seen, new =>
    if new.isEmpty then seen
    else
      let found := new.image next \ seen
      grow next rounds (seen ∪ found) found

/-- The least superset of `S` closed under `next`. Every round but the last finds a successor not seen
before, so one more round than there are successors is enough. -/
def saturate (next : State → StateSet) (rounds : Nat) (S : StateSet) : StateSet := grow next rounds S S

end StateSet

abbrev StateMap := Std.ExtTreeMap Nat StateSet

namespace StateMap

def find (M : StateMap) (q : State) : StateSet := M[q]?.getD ∅

def ofList (entries : List (State × StateSet)) : StateMap :=
  entries.foldl (fun (M : StateMap) e => M.insert e.1 (find M e.1 ∪ e.2)) ∅

end StateMap

/-- What has been reached of a system in which each element leads to at most one element on each symbol.
Elements are told apart by their keys. -/
structure Exploration (α : Type) where
  /-- The elements reached, in the order in which they were found. -/
  found : Array α
  /-- The position of each element, by its key. -/
  index : Std.ExtTreeMap Nat Nat
  /-- For the elements expanded so far: the positions of the elements they lead to, by symbol. -/
  rows : Array (List (Option Nat))

namespace Exploration

variable {α : Type}

def locate (key : α → Nat) (E : Exploration α) (x : α) : Exploration α × Nat :=
  match E.index[key x]? with
  | some i => (E, i)
  | none =>
    let i := E.found.size
    ({ E with found := E.found.push x, index := E.index.insert (key x) i }, i)

def locateAll (key : α → Nat) : Exploration α → List (Option α) → Exploration α × List (Option Nat)
  | E, [] => (E, [])
  | E, none :: rest =>
    let (E, r) := locateAll key E rest
    (E, none :: r)
  | E, some x :: rest =>
    let (E, i) := locate key E x
    let (E, r) := locateAll key E rest
    (E, some i :: r)

/-- Records what the first element not yet expanded leads to. -/
def advance (key : α → Nat) (E : Exploration α) (successors : List (Option α)) : Exploration α :=
  let (E, r) := locateAll key E successors
  { E with rows := E.rows.push r }

def pending? (E : Exploration α) : Option α := E.found[E.rows.size]?

/-- Expands elements in the order in which they were found, at most `steps` of them. -/
def run (key : α → Nat) (next : α → List (Option α)) : Nat → Exploration α → Exploration α
  | 0, E => E
  | steps + 1, E =>
    match E.pending? with
    | none => E
    | some x => run key next steps (E.advance key (next x))

def start (key : α → Nat) (x : α) : Exploration α := ⟨#[x], (∅ : Std.ExtTreeMap Nat Nat).insert (key x) 0, #[]⟩

/-- What is reached from `x`, if it is at most `bound` elements. -/
def explore (key : α → Nat) (next : α → List (Option α)) (bound : Nat) (x : α) : Exploration α :=
  run key next bound (start key x)

end Exploration

end RegularLanguages
