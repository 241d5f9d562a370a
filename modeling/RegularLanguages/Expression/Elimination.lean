import RegularLanguages.Automaton.Reachability
import RegularLanguages.Expression.Basic

/-!
Expressions from automata, by state elimination in a graph whose edges carry expressions.
-/
namespace RegularLanguages

/-- A graph with at most one edge from one node to another. An edge carries an expression; edges are
kept in the order in which their labels were last changed. -/
structure ExpressionGraph where
  edges : List ((Nat × Nat) × Expression)
  nodup : (edges.map (·.1)).Nodup

namespace ExpressionGraph

instance : EmptyCollection ExpressionGraph := ⟨⟨[], List.nodup_nil⟩⟩

def filter (G : ExpressionGraph) (p : Nat × Nat → Bool) : ExpressionGraph :=
  ⟨G.edges.filter fun e => p e.1, (List.filter_sublist.map _).nodup G.nodup⟩

def label? (G : ExpressionGraph) (source target : Nat) : Option Expression :=
  G.edges.lookup (source, target)

/-- Puts an edge last, in the place of the edge that is there. -/
def put (G : ExpressionGraph) (source target : Nat) (label : Expression) : ExpressionGraph where
  edges := (G.filter (· != (source, target))).edges ++ [((source, target), label)]
  nodup := by
    rw [List.map_append]
    refine List.nodup_append.2 ⟨(G.filter (· != (source, target))).nodup, by simp, ?_⟩
    simp [filter]

/-- Adds an edge, or an alternative to the edge that is there. -/
def add (G : ExpressionGraph) (source target : Nat) (label : Expression) : ExpressionGraph :=
  match G.label? source target with
  | some existing => G.put source target (existing.alternative label)
  | none => G.put source target label

/-- The number of edges from each node below `bound` to other nodes. -/
def outDegrees (G : ExpressionGraph) (bound : Nat) : Array Nat :=
  G.edges.foldl (fun D e => if e.1.1 = e.1.2 then D else D.modify e.1.1 (· + 1))
    (Array.replicate bound 0)

def incoming (G : ExpressionGraph) (node : Nat) : List (Nat × Expression) :=
  G.edges.filterMap fun e => if e.1.2 = node ∧ e.1.1 ≠ node then some (e.1.1, e.2) else none

def outgoing (G : ExpressionGraph) (node : Nat) : List (Nat × Expression) :=
  G.edges.filterMap fun e => if e.1.1 = node ∧ e.1.2 ≠ node then some (e.1.2, e.2) else none

/-- The words of any number of rounds through the edge from a node to itself. -/
def repetition (G : ExpressionGraph) (node : Nat) : Expression :=
  match G.label? node node with
  | some loop => loop.iterate
  | none => .epsilon

/-- Removes a node and leads every path through it around it. -/
def eliminate (G : ExpressionGraph) (node : Nat) : ExpressionGraph :=
  let rest := G.filter fun e => e.1 != node && e.2 != node
  let bypasses := (G.incoming node).flatMap fun i => (G.outgoing node).map fun o =>
    (i.1, o.1, i.2.concat ((G.repetition node).concat o.2))
  bypasses.foldl (fun G b => G.add b.1 b.2.1 b.2.2) rest

end ExpressionGraph

inductive EliminationOrder
  /-- The fewest edges to other nodes first; the lowest number among those. -/
  | fewestEdges
  /-- The lowest number first. -/
  | insertion
  deriving DecidableEq

namespace ExpressionGraph

def lightest : List (Nat × Nat) → Option (Nat × Nat)
  | [] => none
  | x :: rest =>
    match lightest rest with
    | some y => if x.2 ≤ y.2 then some x else some y
    | none => some x

def pick (G : ExpressionGraph) : EliminationOrder → List Nat → Option Nat
  | .insertion, nodes => nodes.head?
  | .fewestEdges, nodes =>
    let degrees := G.outDegrees (nodes.foldl max 0 + 1)
    (lightest (nodes.map fun v => (v, degrees[v]?.getD 0))).map (·.1)

/-- Eliminates the nodes in the given order, `count` of them; answers what is left and the nodes as they
went. -/
def eliminateAll (order : EliminationOrder) :
    Nat → List Nat → ExpressionGraph → ExpressionGraph × List Nat
  | 0, _, G => (G, [])
  | count + 1, nodes, G =>
    match G.pick order nodes with
    | none => (G, [])
    | some node =>
      let (H, gone) := eliminateAll order count (nodes.erase node) (G.eliminate node)
      (H, node :: gone)

end ExpressionGraph

namespace Automaton

def labelExpression : Label String → Expression
  | .epsilon => .epsilon
  | .symbol name => .symbol name

/-- The transitions between useful states, then edges from a new node to the useful start states, then
edges from the useful final states to another new node. The new nodes follow the states. -/
def expressionGraph (A : Automaton) : ExpressionGraph :=
  let useful := A.useful
  let inner := A.transitions.toList.filterMap fun t =>
    if useful.contains t.source && useful.contains t.target then
      (A.alphabet.resolve t.label).map fun l => (t.source, t.target, labelExpression l)
    else none
  let ins := (A.starts ∩ useful).toList.map fun q => (A.numStates, q, Expression.epsilon)
  let outs := (A.finals ∩ useful).toList.map fun q => (q, A.numStates + 1, Expression.epsilon)
  (inner ++ ins ++ outs).foldl (fun G e => G.add e.1 e.2.1 e.2.2) ∅

/-- The expression left between the two new nodes when all useful states are eliminated, and the states
in the order of their elimination. -/
def elimination (A : Automaton) (order : EliminationOrder) : Expression × List State :=
  let nodes := A.useful.toList
  let (G, gone) := A.expressionGraph.eliminateAll order nodes.length nodes
  ((G.label? A.numStates (A.numStates + 1)).getD .empty, gone)

def toExpression (A : Automaton) (order : EliminationOrder) : Expression := (A.elimination order).1

end Automaton

end RegularLanguages
