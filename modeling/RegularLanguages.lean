import RegularLanguages.Failure
import RegularLanguages.StateSet.Membership
import RegularLanguages.StateNames
import RegularLanguages.Transitions
import RegularLanguages.Automaton.Registration
import RegularLanguages.Automaton.Acceptance
import RegularLanguages.Automaton.Reachability
import RegularLanguages.Automaton.Session
import RegularLanguages.Automaton.Stepwise
import RegularLanguages.Trace
import RegularLanguages.Expression.Json
import RegularLanguages.Graph.Dot
import RegularLanguages.Graph.Json
import RegularLanguages.Proofs.Alphabets
import RegularLanguages.Proofs.Relation
import RegularLanguages.Proofs.Names
import RegularLanguages.Proofs.Saturation
import RegularLanguages.Proofs.Exploration
import RegularLanguages.Proofs.Paths
import RegularLanguages.Proofs.Runs
import RegularLanguages.Proofs.WellFormed
import RegularLanguages.Proofs.Reachability
import RegularLanguages.Proofs.Acceptance
import RegularLanguages.Proofs.Numbering
import RegularLanguages.Proofs.Determinization
import RegularLanguages.Proofs.Completion
import RegularLanguages.Proofs.Splitting
import RegularLanguages.Proofs.Refinement
import RegularLanguages.Proofs.Tables
import RegularLanguages.Proofs.Reduced
import RegularLanguages.Proofs.Minimization
import RegularLanguages.Proofs.Pairing
import RegularLanguages.Proofs.Equivalence
import RegularLanguages.Proofs.Lockstep
import RegularLanguages.Proofs.Derived
import RegularLanguages.Proofs.Canonical
import RegularLanguages.Proofs.Discovery
import RegularLanguages.Proofs.Subsets
import RegularLanguages.Proofs.Languages
import RegularLanguages.Proofs.ExpressionGraphs
import RegularLanguages.Proofs.Elimination
import RegularLanguages.Proofs.Links
import RegularLanguages.Proofs.Growth
import RegularLanguages.Proofs.Thompson
import RegularLanguages.Proofs.Embedding
import RegularLanguages.Proofs.Sessions
import RegularLanguages.Proofs.Enumeration
import RegularLanguages.Proofs.Reversal
import RegularLanguages.Proofs.Product
import RegularLanguages.Proofs.BooleanOperations
import RegularLanguages.Proofs.Cycles
import RegularLanguages.Proofs.EpsilonRemoval
import RegularLanguages.Proofs.Finiteness
import RegularLanguages.Proofs.Iteration
import RegularLanguages.Proofs.Combination
import RegularLanguages.Proofs.AnonymousDerivations
import RegularLanguages.Proofs.JsonExports
import RegularLanguages.Recognizer.Session
import RegularLanguages.Proofs.FailedCalls
import RegularLanguages.Proofs.Closures
import RegularLanguages.Proofs.Acyclicity
import RegularLanguages.Proofs.NormalForms
import RegularLanguages.Proofs.Fragments
import RegularLanguages.Proofs.DotText
import RegularLanguages.Proofs.Owners
import RegularLanguages.Proofs.Steps
import RegularLanguages.Proofs.Copies
import RegularLanguages.Proofs.StateNumbers
import RegularLanguages.Proofs.Capacities
import RegularLanguages.Proofs.Insertions
import RegularLanguages.Proofs.Worklists
