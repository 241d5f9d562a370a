import RegularLanguages.Json.Text

/-!
Skipping values whose meaning does not matter. A skipped string may hold surrogates without a partner.
-/
namespace RegularLanguages.Json

def skipChars : List Char → Option (List Char)
  | [] => none
  | '"' :: rest => some rest
  | '\\' :: 'u' :: a :: b :: c :: d :: rest =>
    match unit? a b c d with
    | some _ => skipChars rest
    | none => none
  | '\\' :: c :: rest => if (unescape? c).isSome then skipChars rest else none
  | c :: rest => if c.toNat < 32 then none else skipChars rest

def skipDigits (s : List Char) : Option (List Char) :=
  match s with
  | c :: _ => if c.isDigit then some (s.dropWhile Char.isDigit) else none
  | [] => none

def skipFraction : List Char → Option (List Char)
  | '.' :: s => skipDigits s
  | s => some s

def skipExponent : List Char → Option (List Char)
  | c :: s =>
    if c = 'e' ∨ c = 'E' then
      match s with
      | '+' :: s => skipDigits s
      | '-' :: s => skipDigits s
      | s => skipDigits s
    else some (c :: s)
  | [] => some []

/-- Skips the digits of an integer, which start with zero only if zero is the only one. -/
def skipInteger (s : List Char) : Option (List Char) :=
  match s with
  | '0' :: rest =>
    match rest with
    | c :: _ => if c.isDigit then none else some rest
    | [] => some rest
  | s => skipDigits s

def skipNumber (s : List Char) : Option (List Char) := do
  let s ← skipInteger (match s with
    | '-' :: s => s
    | s => s)
  skipExponent (← skipFraction s)

mutual

/-- Skips a value, in at most `steps` steps. -/
def skipValue : Nat → List Char → Option (List Char)
  | 0, _ => none
  | steps + 1, s =>
    match skipBlanks s with
    | '"' :: s => skipChars s
    | 'n' :: s => skipWord "ull".toList s
    | 't' :: s => skipWord "rue".toList s
    | 'f' :: s => skipWord "alse".toList s
    | '[' :: s =>
      match skipBlanks s with
      | ']' :: s => some s
      | s => skipElements steps s
    | '\x7b' :: s =>
      match skipBlanks s with
      | '\x7d' :: s => some s
      | s => skipMembers steps s
    | s => skipNumber s

def skipElements : Nat → List Char → Option (List Char)
  | 0, _ => none
  | steps + 1, s =>
    match skipValue steps s with
    | none => none
    | some s =>
      match skipBlanks s with
      | ',' :: s => skipElements steps s
      | ']' :: s => some s
      | _ => none

def skipMembers : Nat → List Char → Option (List Char)
  | 0, _ => none
  | steps + 1, s =>
    match (expect '"' s).bind skipChars |>.bind (expect ':') |>.bind (skipValue steps) with
    | none => none
    | some s =>
      match skipBlanks s with
      | ',' :: s => skipMembers steps s
      | '\x7d' :: s => some s
      | _ => none

end

/-- Skips one value. Every second step consumes a character at least, so twice the length and two more
steps are enough. -/
def skip (s : List Char) : Option (List Char) := skipValue (2 * s.length + 2) s

/-- Reads members with commas between them and the closing brace, at most `count`. Each adds to what has
been gathered, as its name says. -/
def readMembers {α : Type} (member : String → α → Reader α) : Nat → α → Reader α
  | 0, _, _ => none
  | count + 1, gathered, s => do
    let (name, s) ← readString s
    let s ← expect ':' s
    let (gathered, s) ← member name gathered s
    match skipBlanks s with
    | ',' :: s => readMembers member count gathered s
    | '\x7d' :: s => some (gathered, s)
    | _ => none

def readObject {α : Type} (member : String → α → Reader α) (start : α) : Reader α := fun s =>
  match skipBlanks s with
  | '\x7d' :: s => some (start, s)
  | s => readMembers member s.length start s

end RegularLanguages.Json
