/-!
Regular expressions as operator trees, their text, and constructors that simplify.
-/
namespace RegularLanguages

inductive Expression
  /-- No word. -/
  | empty
  /-- The empty word alone. -/
  | epsilon
  /-- The word of one symbol. -/
  | symbol (name : String)
  | concatenation (left right : Expression)
  | union (left right : Expression)
  | kleeneStar (inner : Expression)
  deriving DecidableEq

namespace Expression

/-- The concatenation of the parts, nested to the left; `epsilon` when there are none. -/
def sequence : List Expression → Expression
  | [] => epsilon
  | e :: rest => rest.foldl concatenation e

def numSymbols : Expression → Nat
  | empty | epsilon => 0
  | symbol _ => 1
  | concatenation l r | union l r => l.numSymbols + r.numSymbols
  | kleeneStar e => e.numSymbols

def numOperators : Expression → Nat
  | empty | epsilon | symbol _ => 0
  | concatenation l r | union l r => 1 + l.numOperators + r.numOperators
  | kleeneStar e => 1 + e.numOperators

/-- The text of an expression. Every operator is bracketed and symbol names are written as they are. -/
def render : Expression → String
  | empty => "∅"
  | epsilon => "$"
  | symbol name => name
  | concatenation l r => "(" ++ l.render ++ "." ++ r.render ++ ")"
  | union l r => "(" ++ l.render ++ "|" ++ r.render ++ ")"
  | kleeneStar e => "(" ++ e.render ++ ")*"

/-- The concatenation of two expressions, without a factor `epsilon`. -/
def concat : Expression → Expression → Expression
  | empty, _ => empty
  | _, empty => empty
  | epsilon, e => e
  | e, epsilon => e
  | l, r => concatenation l r

/-- The union of two expressions, without `empty` and without the second of two equal ones. -/
def alternative : Expression → Expression → Expression
  | empty, e => e
  | e, empty => e
  | l, r => if l = r then l else union l r

/-- The star of an expression; a star of a star is that star. -/
def iterate : Expression → Expression
  | empty => epsilon
  | epsilon => epsilon
  | kleeneStar e => kleeneStar e
  | e => kleeneStar e

end Expression

end RegularLanguages
