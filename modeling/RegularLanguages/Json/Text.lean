/-!
The lexical parts of JSON: blanks, strings, numbers and literals. Strings are written with the fewest
escapes, and read with all of them.
-/
namespace RegularLanguages.Json

abbrev Reader (α : Type) := List Char → Option (α × List Char)

def isBlank (c : Char) : Bool := c == ' ' || c == '\n' || c == '\t' || c == '\x0d'

def skipBlanks (s : List Char) : List Char := s.dropWhile isBlank

def expect (c : Char) (s : List Char) : Option (List Char) :=
  match skipBlanks s with
  | d :: rest => if d = c then some rest else none
  | [] => none

def skipWord (word : List Char) (s : List Char) : Option (List Char) :=
  if word.isPrefixOf s then some (s.drop word.length) else none

def literal (word : List Char) (s : List Char) : Option (List Char) := skipWord word (skipBlanks s)

def hexDigit (n : Nat) : Char := Char.ofNat (if n < 10 then 48 + n else 87 + n)

/-- A character as it stands in a string: the quote, the backslash and control characters are escaped,
with a letter where there is one. -/
def escape (c : Char) : List Char :=
  if c = '"' then ['\\', '"']
  else if c = '\\' then ['\\', '\\']
  else if c = '\x08' then ['\\', 'b']
  else if c = '\x0c' then ['\\', 'f']
  else if c = '\n' then ['\\', 'n']
  else if c = '\x0d' then ['\\', 'r']
  else if c = '\t' then ['\\', 't']
  else if c.toNat < 32 then ['\\', 'u', '0', '0', hexDigit (c.toNat / 16), hexDigit (c.toNat % 16)]
  else [c]

def writeString (s : String) : List Char := '"' :: (s.toList.flatMap escape ++ ['"'])

def hexValue? (c : Char) : Option Nat :=
  if '0' ≤ c ∧ c ≤ '9' then some (c.toNat - 48)
  else if 'a' ≤ c ∧ c ≤ 'f' then some (c.toNat - 87)
  else if 'A' ≤ c ∧ c ≤ 'F' then some (c.toNat - 55)
  else none

def unit? (a b c d : Char) : Option Nat := do
  return (((← hexValue? a) * 16 + (← hexValue? b)) * 16 + (← hexValue? c)) * 16 + (← hexValue? d)

def unescape? (c : Char) : Option Char :=
  if c = '"' then some '"'
  else if c = '\\' then some '\\'
  else if c = '/' then some '/'
  else if c = 'b' then some '\x08'
  else if c = 'f' then some '\x0c'
  else if c = 'n' then some '\n'
  else if c = 'r' then some '\x0d'
  else if c = 't' then some '\t'
  else none

def isHighSurrogate (n : Nat) : Bool := 0xD800 ≤ n && n ≤ 0xDBFF

def isLowSurrogate (n : Nat) : Bool := 0xDC00 ≤ n && n ≤ 0xDFFF

/-- The character of a pair of surrogates. -/
def ofSurrogates (high low : Nat) : Char :=
  Char.ofNat (0x10000 + (high - 0xD800) * 0x400 + (low - 0xDC00))

def prepend (c : Char) (r : Option (List Char × List Char)) : Option (List Char × List Char) :=
  r.map fun p => (c :: p.1, p.2)

/-- Reads a string up to its closing quote. Control characters must be escaped, and surrogates must come
in pairs. -/
def readChars : List Char → Option (List Char × List Char)
  | [] => none
  | '"' :: rest => some ([], rest)
  | '\\' :: 'u' :: a :: b :: c :: d :: '\\' :: 'u' :: e :: f :: g :: h :: rest =>
    match unit? a b c d with
    | none => none
    | some n =>
      if isHighSurrogate n then
        match unit? e f g h with
        | none => none
        | some m => if isLowSurrogate m then prepend (ofSurrogates n m) (readChars rest) else none
      else if isLowSurrogate n then none
      else prepend (Char.ofNat n) (readChars ('\\' :: 'u' :: e :: f :: g :: h :: rest))
  | '\\' :: 'u' :: a :: b :: c :: d :: rest =>
    match unit? a b c d with
    | none => none
    | some n =>
      if isHighSurrogate n || isLowSurrogate n then none
      else prepend (Char.ofNat n) (readChars rest)
  | '\\' :: c :: rest =>
    match unescape? c with
    | some x => prepend x (readChars rest)
    | none => none
  | c :: rest => if c.toNat < 32 then none else prepend c (readChars rest)

def readString : Reader String := fun s => do
  let s ← expect '"' s
  let (chars, s) ← readChars s
  return (String.ofList chars, s)

def readBool : Reader Bool := fun s =>
  match literal "true".toList s with
  | some s => some (true, s)
  | none => (literal "false".toList s).map fun s => (false, s)

/-- Reads a natural number of at most `bound`: digits without a leading zero, a fraction or an exponent. -/
def readNat (bound : Nat) : Reader Nat := fun s =>
  let s := skipBlanks s
  let digits := s.takeWhile Char.isDigit
  let rest := s.dropWhile Char.isDigit
  let value := digits.foldl (fun n c => n * 10 + (c.toNat - 48)) 0
  let ends := match rest with
    | c :: _ => c != '.' && c != 'e' && c != 'E'
    | [] => true
  if digits.isEmpty || (digits.head? == some '0' && digits.length != 1) || bound < value || !ends then none
  else some (value, rest)

def readNullable {α : Type} (read : Reader α) : Reader (Option α) := fun s =>
  match literal "null".toList s with
  | some s => some (none, s)
  | none => (read s).map fun p => (some p.1, p.2)

/-- Reads elements with commas between them, at most `count`, and the closing bracket. -/
def readElements {α : Type} (read : Reader α) : Nat → Reader (List α)
  | 0, _ => none
  | count + 1, s => do
    let (x, s) ← read s
    match skipBlanks s with
    | ',' :: s => (readElements read count s).map fun p => (x :: p.1, p.2)
    | ']' :: s => some ([x], s)
    | _ => none

def readArray {α : Type} (read : Reader α) : Reader (List α) := fun s => do
  let s ← expect '[' s
  match skipBlanks s with
  | ']' :: s => some ([], s)
  | s => readElements read s.length s

/-- The value of a text that holds it and nothing else but blanks. -/
def readWhole {α : Type} (read : Reader α) (s : String) : Option α :=
  match read s.toList with
  | some (x, rest) => if (skipBlanks rest).isEmpty then some x else none
  | none => none

def separate (values : List (List Char)) : List Char := [','].intercalate values

end RegularLanguages.Json
