import RegularLanguages.Expression.Basic
import RegularLanguages.Json.Text

/-!
Expressions as JSON. A constructor without operands is its name; any other is an object with its name as
the only key, and two operands are an array.
-/
namespace RegularLanguages

namespace Expression

open Json

def writeTagged (tag : String) (value : List Char) : List Char :=
  '\x7b' :: (writeString tag ++ ':' :: value ++ ['\x7d'])

def toJson : Expression → List Char
  | empty => writeString "Empty"
  | epsilon => writeString "Epsilon"
  | symbol name => writeTagged "Symbol" (writeString name)
  | concatenation l r => writeTagged "Concatenation" ('[' :: (l.toJson ++ ',' :: r.toJson ++ [']']))
  | union l r => writeTagged "Union" ('[' :: (l.toJson ++ ',' :: r.toJson ++ [']']))
  | kleeneStar e => writeTagged "KleeneStar" e.toJson

/-- The expression that a name alone stands for. -/
def ofName? : String → Option Expression
  | "Empty" => some empty
  | "Epsilon" => some epsilon
  | _ => none

def readPair (read : Reader Expression) : Reader (Expression × Expression) := fun s => do
  let (l, s) ← read (← expect '[' s)
  let (r, s) ← read (← expect ',' s)
  return ((l, r), ← expect ']' s)

/-- Reads the operands of the constructor of the given name: `inner` reads one expression and `deeper`
reads one inside an array. -/
def readOperands (inner deeper : Reader Expression) (name : String) : Reader Expression := fun s =>
  match name with
  | "Symbol" => (readString s).map fun p => (symbol p.1, p.2)
  | "KleeneStar" => (inner s).map fun p => (kleeneStar p.1, p.2)
  | "Concatenation" => (readPair deeper s).map fun p => (concatenation p.1.1 p.1.2, p.2)
  | "Union" => (readPair deeper s).map fun p => (union p.1.1 p.1.2, p.2)
  | name => (literal "null".toList s).bind fun s => (ofName? name).map fun e => (e, s)

/-- Reads an expression within at most `depth` nested objects and arrays. A constructor without operands
may also be an object that holds `null`. -/
def read : Nat → Reader Expression
  | depth, s =>
    match skipBlanks s with
    | '"' :: s => do
      let (name, s) ← readChars s
      return (← ofName? (String.ofList name), s)
    | '\x7b' :: s =>
      match depth with
      | 0 => none
      | 1 => do
        let (name, s) ← readString s
        let (e, s) ← readOperands (read 0) (fun _ => none) name (← expect ':' s)
        return (e, ← expect '\x7d' s)
      | depth + 2 => do
        let (name, s) ← readString s
        let (e, s) ← readOperands (read (depth + 1)) (read depth) name (← expect ':' s)
        return (e, ← expect '\x7d' s)
    | _ => none

/-- The deepest nesting of objects and arrays that is read. -/
def maxDepth : Nat := 127

def ofJson? (text : String) : Option Expression := readWhole (read maxDepth) text

end Expression

end RegularLanguages
