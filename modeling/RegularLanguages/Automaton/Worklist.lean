import RegularLanguages.Automaton.Table

/-!
Refinement with a queue of turns. The turns of a part are queued when the part is made, so that the larger half of a part that
is split takes the turns of the whole part that are left.
-/
namespace RegularLanguages

/-- A partition, and the turns to come: parts by their positions, each with a symbol. The first turn comes first. -/
structure Worklist where
  refinement : Refinement
  pending : List (Nat × SymbolId)

namespace Table

def turnsOf (T : Table) (i : Nat) : List (Nat × SymbolId) := (List.range T.numSymbols).map fun a => (i, a)

end Table

namespace Worklist

def start (T : Table) : Worklist where
  refinement := .ofParts T.numRows T.initialParts
  pending := (List.range T.initialParts.length).flatMap T.turnsOf

/-- Cuts a part by a set of rows. The smaller half becomes a part of its own and gets its turns. -/
def split (T : Table) (S : StateSet) (W : Worklist) (i : Nat) : Worklist :=
  match W.refinement.cut? S i with
  | none => W
  | some s => ⟨W.refinement.apply s, W.pending ++ T.turnsOf W.refinement.parts.size⟩

/-- Takes the first turn: the rows that lead into its part on its symbol cut the parts that they lie in. -/
def turn (T : Table) (W : Worklist) : Worklist :=
  match W.pending with
  | [] => W
  | (i, a) :: pending =>
    let S := Table.predecessors (T.sources[a]?.getD #[]) (W.refinement.parts[i]?.getD ∅)
    (S.toList.map W.refinement.partOf).eraseDups.foldl (split T S) { W with pending }

def after (T : Table) : Nat → Worklist
  | 0 => start T
  | turns + 1 => turn T (after T turns)

end Worklist

end RegularLanguages
