import RegularLanguages.Automaton.Acceptance

/-!
Transition tables: the reachable part of a deterministic automaton, made total by a sink row where a
transition is missing, and the partition of its rows by the words that they accept.
-/
namespace RegularLanguages

/-- A total deterministic table. Row 0 is the start. -/
structure Table where
  numSymbols : Nat
  /-- The state behind each row; the sink has none. -/
  origins : Array (Option State)
  /-- The accepting rows. -/
  finals : StateSet
  /-- The row that each row leads to, by symbol. -/
  targets : Array (List Nat)

namespace Table

def row (A : Automaton) (q : State) : List (Option State) := A.alphabet.ids.map (A.next? q)

/-- The states reached from `start`, in breadth-first order. All but `start` are targets of a key. -/
def reached (A : Automaton) (start : State) : Exploration State :=
  .explore id (row A) (A.transitions.keys.length + 1) start

def ofStart (A : Automaton) (start : State) : Table :=
  let states := reached A start
  let needsSink := states.rows.any fun r => r.any Option.isNone
  let sink := states.found.size
  let origins := states.found.map some ++ if needsSink then #[none] else #[]
  { numSymbols := A.alphabet.size
    origins := origins
    finals := .below origins.size fun r => ((origins[r]?.join).map A.finals.contains).getD false
    targets := states.rows.map (fun r => r.map fun next => next.getD sink) ++
      if needsSink then #[List.replicate A.alphabet.size sink] else #[] }

def ofAutomaton (A : Automaton) : Except Failure Table :=
  if A.isDeterministic then
    match A.starts.first? with
    | some start => .ok (ofStart A start)
    | none => .error .notDeterministic
  else .error .notDeterministic

def numRows (T : Table) : Nat := T.origins.size

def target (T : Table) (r : Nat) (a : SymbolId) : Nat := ((T.targets[r]?.getD [])[a]?).getD 0

/-- For each row, the rows that lead to it on `a`. -/
def sourcesOn (T : Table) (a : SymbolId) : Array (List Nat) :=
  (List.range T.numRows).foldl (fun S r => S.modify (T.target r a) (r :: ·))
    (Array.replicate T.numRows [])

def sources (T : Table) : Array (Array (List Nat)) :=
  (Array.range T.numSymbols).map T.sourcesOn

/-- The rows that lead into `S`, by the rows that lead to single rows. -/
def predecessors (sources : Array (List Nat)) (S : StateSet) : StateSet :=
  .ofList (S.toList.flatMap fun r => sources[r]?.getD [])

end Table

structure Split where
  /-- The position of the part. -/
  part : Nat
  /-- What stays there: the larger half. -/
  kept : StateSet
  /-- What becomes a part of its own. -/
  added : StateSet

/-- A partition of rows, with the splits that led to it. -/
structure Refinement where
  parts : Array StateSet
  /-- The position of the part that holds each row. -/
  places : Array Nat
  /-- The splits from the first to the last. -/
  splits : Array Split

namespace Refinement

def partOf (R : Refinement) (r : Nat) : Nat := R.places[r]?.getD 0

def ofParts (numRows : Nat) (parts : List StateSet) : Refinement where
  parts := parts.toArray
  places := (Array.range numRows).map fun r => parts.findIdx fun P => P.contains r
  splits := #[]

/-- Cuts a part into its members inside and outside of `S`; none if one side is empty. -/
def cut? (R : Refinement) (S : StateSet) (i : Nat) : Option Split :=
  let part := R.parts[i]?.getD ∅
  let inside := part ∩ S
  let outside := part \ S
  if inside.isEmpty || outside.isEmpty then none
  else if inside.card ≤ outside.card then some ⟨i, outside, inside⟩
  else some ⟨i, inside, outside⟩

/-- The partition after a split. The added half comes last. -/
def apply (R : Refinement) (s : Split) : Refinement where
  parts := (R.parts.setIfInBounds s.part s.kept).push s.added
  places := s.added.toList.foldl (fun P r => P.setIfInBounds r R.parts.size) R.places
  splits := R.splits.push s

/-- The splits that `S` makes, in the order of the least member that a part shares with `S`. -/
def cuts (R : Refinement) (S : StateSet) : List Split :=
  (S.toList.map R.partOf).eraseDups.filterMap (R.cut? S)

def splitBy (R : Refinement) (S : StateSet) : Refinement := (R.cuts S).foldl apply R

end Refinement

namespace Table

/-- Splits every part by the rows that lead into one part on one symbol. The parts take their turns in
their order, each on every symbol; the `turn`th one does nothing if there is no such part. -/
def refineOn (T : Table) (sources : Array (Array (List Nat))) (R : Refinement) (turn : Nat) :
    Refinement :=
  match R.parts[turn / T.numSymbols]? with
  | some part => R.splitBy (predecessors (sources[turn % T.numSymbols]?.getD #[]) part)
  | none => R

/-- The accepting and the other rows, without an empty part. -/
def initialParts (T : Table) : List StateSet :=
  [T.finals, StateSet.full T.numRows \ T.finals].filter fun P => !P.isEmpty

/-- The coarsest partition in which rows of one part accept the same words. There are at most as many
parts as rows, and every part takes one turn on each symbol. -/
def refine (T : Table) : Refinement :=
  (List.range (T.numRows * T.numSymbols)).foldl (T.refineOn T.sources)
    (.ofParts T.numRows T.initialParts)

end Table

end RegularLanguages
