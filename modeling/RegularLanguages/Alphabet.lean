/-!
Labels of transitions, and alphabets: symbol names numbered in the order of their registration.
-/
namespace RegularLanguages

abbrev SymbolId := Nat

inductive Label (α : Type)
  | epsilon
  | symbol (a : α)
  deriving DecidableEq

namespace Label

def isEpsilon {α : Type} : Label α → Bool
  | epsilon => true
  | symbol _ => false

/-- The text shown for a label. A symbol whose name is the letter epsilon looks like `epsilon`. -/
def display : Label String → String
  | epsilon => "ε"
  | symbol name => name

/-- The number that stands for epsilon among symbol numbers. No symbol has it. -/
def epsilonCode : Nat := 4294967295

def code : Label SymbolId → Nat
  | epsilon => epsilonCode
  | symbol a => a

def ofCode (n : Nat) : Label SymbolId := if n = epsilonCode then epsilon else symbol n

end Label

/-- Distinct symbol names; the number of a symbol is its position. -/
structure Alphabet where
  names : List String
  nodup : names.Nodup

namespace Alphabet

instance : EmptyCollection Alphabet := ⟨⟨[], List.nodup_nil⟩⟩

instance : Inhabited Alphabet := ⟨∅⟩

def size (A : Alphabet) : Nat := A.names.length

def ids (A : Alphabet) : List SymbolId := List.range A.size

def contains (A : Alphabet) (name : String) : Bool := A.names.contains name

def id? (A : Alphabet) (name : String) : Option SymbolId := A.names.idxOf? name

def name? (A : Alphabet) (a : SymbolId) : Option String := A.names[a]?

/-- The alphabet in which `name` has a number: unchanged if it has one already, else with `name` at
the end. -/
def intern (A : Alphabet) (name : String) : Alphabet :=
  if h : name ∈ A.names then A
  else ⟨A.names ++ [name], by
    refine List.nodup_append.2 ⟨A.nodup, by simp, ?_⟩
    intro x hx y hy hxy
    rw [List.mem_singleton] at hy
    exact h (hy ▸ hxy ▸ hx)⟩

def internAll (A : Alphabet) (names : List String) : Alphabet := names.foldl intern A

def ofNames (names : List String) : Alphabet := internAll ∅ names

/-- The number of a name that `intern` has registered. -/
def idOf (A : Alphabet) (name : String) : SymbolId := A.names.idxOf name

def resolve (A : Alphabet) : Label SymbolId → Option (Label String)
  | .epsilon => some .epsilon
  | .symbol a => (A.name? a).map .symbol

/-- The text shown for a label; a number without a name is shown after a hash sign. -/
def display (A : Alphabet) : Label SymbolId → String
  | .epsilon => "ε"
  | .symbol a => (A.name? a).getD s!"#{a}"

/-- Whether two alphabets hold the same names, in whatever order. -/
def sameNames (A B : Alphabet) : Bool := A.size == B.size && A.names.all B.contains

end Alphabet

end RegularLanguages
