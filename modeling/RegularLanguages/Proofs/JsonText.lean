import Mathlib.Data.List.Basic
import RegularLanguages.Graph.Json

/-!
What is written is read back: characters, strings, numbers and literals, and then arrays of values and objects of
members, whatever stands behind them.
-/
namespace RegularLanguages.Json

theorem skipBlanks_of_head? {s : List Char} (h : ∀ c ∈ s.head?, isBlank c = false) : skipBlanks s = s := by
  cases s with
  | nil => rfl
  | cons c s => rw [skipBlanks, List.dropWhile_cons_of_neg (by simp [h c rfl])]

@[simp] theorem skipBlanks_cons {c : Char} {s : List Char} (h : isBlank c = false) : skipBlanks (c :: s) = c :: s :=
  skipBlanks_of_head? (by simpa using h)

theorem expect_cons {c : Char} {s : List Char} (h : isBlank c = false) : expect c (c :: s) = some s := by
  rw [expect, skipBlanks_cons h]
  exact if_pos rfl

section Strings

private theorem unit?_control : ∀ n < 32, unit? '0' '0' (hexDigit (n / 16)) (hexDigit (n % 16)) = some n := by
  decide

private theorem readChars_unit {a b c d : Char} {n : Nat} (hn : unit? a b c d = some n)
    (hhigh : isHighSurrogate n = false) (hlow : isLowSurrogate n = false) (s : List Char) :
    readChars ('\\' :: 'u' :: a :: b :: c :: d :: s) = prepend (Char.ofNat n) (readChars s) := by
  -- A code that is no surrogate is read on its own, also when another one follows it.
  by_cases hs : ∃ e f g h rest, s = '\\' :: 'u' :: e :: f :: g :: h :: rest
  · obtain ⟨e, f, g, h, rest, rfl⟩ := hs
    rw [readChars]
    simp [hn, hhigh, hlow]
  · rw [readChars]
    · simp [hn, hhigh, hlow]
    · exact fun e f g h rest he => hs ⟨e, f, g, h, rest, he⟩

private theorem readChars_escape (c : Char) (s : List Char) : readChars (escape c ++ s) = prepend c (readChars s) := by
  unfold escape
  split_ifs with hquote hbackslash hb hf hn hr ht hcontrol
  · subst hquote
    simp [readChars, unescape?]
  · subst hbackslash
    simp [readChars, unescape?]
  · subst hb
    simp [readChars, unescape?]
  · subst hf
    simp [readChars, unescape?]
  · subst hn
    simp [readChars, unescape?]
  · subst hr
    simp [readChars, unescape?]
  · subst ht
    simp [readChars, unescape?]
  · have hhigh : isHighSurrogate c.toNat = false := by
      rw [isHighSurrogate, Bool.and_eq_false_iff, decide_eq_false_iff_not]
      exact Or.inl (by omega)
    have hlow : isLowSurrogate c.toNat = false := by
      rw [isLowSurrogate, Bool.and_eq_false_iff, decide_eq_false_iff_not]
      exact Or.inl (by omega)
    have hread := readChars_unit (unit?_control c.toNat hcontrol) hhigh hlow s
    rwa [Char.ofNat_toNat] at hread
  · rw [List.singleton_append, readChars]
    · exact if_neg hcontrol
    all_goals simp_all

theorem readChars_flatMap_escape (cs rest : List Char) :
    readChars (cs.flatMap escape ++ '"' :: rest) = some (cs, rest) := by
  induction cs with
  | nil => simp [readChars]
  | cons c cs ih =>
    rw [List.flatMap_cons, List.append_assoc, readChars_escape, ih]
    rfl

theorem readString_writeString (s : String) (rest : List Char) :
    readString (writeString s ++ rest) = some (s, rest) := by
  have hchars := readChars_flatMap_escape s.toList rest
  simp [readString, writeString, expect_cons (c := '"') (by decide), hchars]

end Strings

/-- The rest of a text behind a value inside an array or an object, or behind the whole. -/
def Delimited (rest : List Char) : Prop := ∀ c ∈ rest.head?, c = ',' ∨ c = ']' ∨ c = '\x7d'

/-- The value is read from its text, whatever comes after the delimiter that follows. -/
def Reads {α : Type} (read : Reader α) (text : List Char) (x : α) : Prop :=
  ∀ rest, Delimited rest → read (text ++ rest) = some (x, rest)

theorem Delimited.cons {c : Char} {rest : List Char} (h : c = ',' ∨ c = ']' ∨ c = '\x7d') : Delimited (c :: rest) := by
  intro d hd
  cases hd
  exact h

theorem reads_writeString (s : String) : Reads readString (writeString s) s :=
  fun rest _ => readString_writeString s rest

theorem Reads.map {α β : Type} {read : Reader α} {text : List Char} {x : α} (h : Reads read text x) (f : α → β) :
    Reads (fun s => (read s).map fun p => (f p.1, p.2)) text (f x) := by
  intro rest hrest
  change (read (text ++ rest)).map _ = _
  rw [h rest hrest]
  rfl

section Numbers

private theorem not_isBlank_of_isDigit {c : Char} (h : c.isDigit) : isBlank c = false := by
  refine Bool.eq_false_iff.2 fun hblank => ?_
  simp only [isBlank, Bool.or_eq_true, beq_iff_eq] at hblank
  rcases hblank with ((rfl | rfl) | rfl) | rfl <;> exact absurd h (by decide)

private theorem head?_toDigits_ne {n : Nat} (hn : 0 < n) : (Nat.toDigits 10 n).head? ≠ some '0' := by
  have hdigit : ∀ m < 10, 0 < m → [m.digitChar].head? ≠ some '0' := by decide
  induction n using Nat.strongRecOn with
  | ind n ih =>
    rw [Nat.toDigits_eq_if (by decide)]
    split
    · rename_i hlt
      exact hdigit n hlt hn
    · rename_i hge
      obtain ⟨c, cs, hcs⟩ := List.exists_cons_of_ne_nil (Nat.toDigits_ne_nil (n := n / 10) (b := 10))
      have hhead := ih (n / 10) (by omega) (by omega)
      rw [hcs] at hhead ⊢
      exact hhead

private theorem foldl_toDigits (n : Nat) :
    (Nat.toDigits 10 n).foldl (fun n c => n * 10 + (c.toNat - 48)) 0 = n := by
  have hfold := Nat.ofDigitChars_toDigits (b := 10) (n := n) (by decide) (by decide)
  simp only [Nat.ofDigitChars, Nat.mul_comm 10] at hfold
  exact hfold

theorem reads_writeNat {bound n : Nat} (h : n ≤ bound) : Reads (readNat bound) (writeNat n) n := by
  intro rest hrest
  have htext : writeNat n = Nat.toDigits 10 n := by simp [writeNat]
  have hdigits : ∀ c ∈ Nat.toDigits 10 n, c.isDigit := fun c hc =>
    Nat.isDigit_of_mem_toDigits (by decide) (by decide) hc
  have hblanks : skipBlanks (Nat.toDigits 10 n ++ rest) = Nat.toDigits 10 n ++ rest := by
    refine skipBlanks_of_head? fun c hc => not_isBlank_of_isDigit (hdigits c ?_)
    rw [List.head?_append_of_ne_nil _ Nat.toDigits_ne_nil] at hc
    exact List.mem_of_mem_head? hc
  have hstop : rest.takeWhile Char.isDigit = [] ∧ rest.dropWhile Char.isDigit = rest := by
    cases rest with
    | nil => exact ⟨rfl, rfl⟩
    | cons c rest => rcases hrest c rfl with rfl | rfl | rfl <;> exact ⟨rfl, rfl⟩
  have hzero : ((Nat.toDigits 10 n).head? == some '0' && (Nat.toDigits 10 n).length != 1) = false := by
    rcases Nat.eq_zero_or_pos n with rfl | hn
    · rfl
    · rw [beq_eq_false_iff_ne.2 (head?_toDigits_ne hn), Bool.false_and]
  rw [htext, readNat, hblanks, List.takeWhile_append_of_pos hdigits, List.dropWhile_append_of_pos hdigits, hstop.1,
    hstop.2, List.append_nil, foldl_toDigits]
  cases rest with
  | nil => simp [hzero, Nat.toDigits_ne_nil, h]
  | cons c rest => rcases hrest c rfl with rfl | rfl | rfl <;> simp [hzero, Nat.toDigits_ne_nil, h]

end Numbers

section Literals

private theorem literal_append {c : Char} (h : isBlank c = false) (word rest : List Char) :
    literal (c :: word) (c :: word ++ rest) = some rest := by
  rw [literal, List.cons_append, skipBlanks_cons h, skipWord]
  simp

theorem reads_writeBool (b : Bool) : Reads readBool (writeBool b) b := by
  intro rest _
  cases b with
  | true =>
    have htrue : literal "true".toList ("true".toList ++ rest) = some rest :=
      literal_append (by decide) ['r', 'u', 'e'] rest
    simp only [readBool, writeBool, if_true, htrue]
  | false =>
    have hfalse : literal "false".toList ("false".toList ++ rest) = some rest :=
      literal_append (by decide) ['a', 'l', 's', 'e'] rest
    have htrue : literal "true".toList ("false".toList ++ rest) = none := rfl
    simp only [readBool, writeBool, Bool.false_eq_true, if_false, htrue, hfalse, Option.map_some]

/-- Null stands for a value that is not there. The text of one that is starts with a quote. -/
theorem reads_nullable {α : Type} {read : Reader α} {write : α → List Char} (x : Option α)
    (hread : ∀ y, Reads read (write y) y) (hwrite : ∀ y, ∃ rest, write y = '"' :: rest) :
    Reads (readNullable read) ((x.map write).getD "null".toList) x := by
  intro rest hrest
  cases x with
  | none =>
    have hnull : literal "null".toList ("null".toList ++ rest) = some rest :=
      literal_append (by decide) ['u', 'l', 'l'] rest
    simp only [readNullable, Option.map_none, Option.getD_none, hnull]
  | some y =>
    obtain ⟨tail, htail⟩ := hwrite y
    have hnull : literal "null".toList (write y ++ rest) = none := by
      rw [htail]
      rfl
    simp only [readNullable, Option.map_some, Option.getD_some, hnull, hread y rest hrest]

end Literals

section Sequences

theorem separate_cons_cons (value next : List Char) (values : List (List Char)) :
    separate (value :: next :: values) = value ++ ',' :: separate (next :: values) := by
  simp [separate, List.intercalate]

@[simp] theorem separate_singleton (value : List Char) : separate [value] = value := by
  simp [separate, List.intercalate]

/-- Values that are not empty are no more than the characters of their text. -/
theorem length_le_separate {values : List (List Char)} (h : ∀ value ∈ values, value ≠ []) :
    values.length ≤ (separate values).length := by
  induction values with
  | nil => exact Nat.zero_le _
  | cons value values ih =>
    obtain ⟨hvalue, hvalues⟩ := List.forall_mem_cons.1 h
    have hpos := List.length_pos_iff.2 hvalue
    have hrest := ih hvalues
    cases values with
    | nil => rwa [separate_singleton]
    | cons next values =>
      simp only [separate_cons_cons, List.length_append, List.length_cons] at hrest ⊢
      omega

private theorem separate_starts {first : List Char} {c : Char} (h : ∃ tail, first = c :: tail)
    (values : List (List Char)) (rest : List Char) : ∃ more, separate (first :: values) ++ rest = c :: more := by
  obtain ⟨tail, rfl⟩ := h
  cases values with
  | nil => exact ⟨_, by rw [separate_singleton]; rfl⟩
  | cons next values => exact ⟨_, by rw [separate_cons_cons]; rfl⟩

section Arrays

variable {α : Type} {read : Reader α} {write : α → List Char} {xs : List α}

private theorem readElements_separate (hread : ∀ x ∈ xs, Reads read (write x) x) (hne : xs ≠ []) {count : Nat}
    (hcount : xs.length ≤ count) (rest : List Char) :
    readElements read count (separate (xs.map write) ++ ']' :: rest) = some (xs, rest) := by
  -- As many turns as there are elements are enough.
  induction xs generalizing count with
  | nil => exact absurd rfl hne
  | cons x xs ih =>
    obtain ⟨hx, hxs⟩ := List.forall_mem_cons.1 hread
    obtain ⟨count, rfl⟩ : ∃ n, count = n + 1 := ⟨count - 1, by simp at hcount; omega⟩
    rw [List.length_cons, Nat.succ_le_succ_iff] at hcount
    cases xs with
    | nil =>
      have hlast := hx (']' :: rest) (.cons (by simp))
      have hblank : skipBlanks (']' :: rest) = ']' :: rest := skipBlanks_cons (by decide)
      simp [readElements, hlast, hblank]
    | cons y ys =>
      have hmore := ih hxs (List.cons_ne_nil y ys) hcount
      have htext : separate ((x :: y :: ys).map write) ++ ']' :: rest =
          write x ++ ',' :: (separate ((y :: ys).map write) ++ ']' :: rest) := by
        simp only [List.map_cons, separate_cons_cons, List.append_assoc, List.cons_append]
      rw [htext]
      generalize separate ((y :: ys).map write) ++ ']' :: rest = more at hmore
      have hfirst := hx (',' :: more) (.cons (by simp))
      have hblank : skipBlanks (',' :: more) = ',' :: more := skipBlanks_cons (by decide)
      simp [readElements, hfirst, hblank, hmore]

/-- An array of objects is read back if each of them is. -/
theorem reads_writeArray (hread : ∀ x ∈ xs, Reads read (write x) x) (hwrite : ∀ x, ∃ tail, write x = '\x7b' :: tail) :
    Reads (readArray read) (writeArray (xs.map write)) xs := by
  intro rest _
  have hopen : writeArray (xs.map write) ++ rest = '[' :: (separate (xs.map write) ++ ']' :: rest) := by
    simp [writeArray]
  rw [hopen, readArray, expect_cons (by decide)]
  cases xs with
  | nil => rfl
  | cons x xs =>
    have hlength : (x :: xs).length ≤ (separate ((x :: xs).map write) ++ ']' :: rest).length := by
      have hle : ((x :: xs).map write).length ≤ (separate ((x :: xs).map write)).length := length_le_separate (by
        intro value hvalue
        obtain ⟨y, _, rfl⟩ := List.mem_map.1 hvalue
        obtain ⟨tail, htail⟩ := hwrite y
        simp [htail])
      rw [List.length_map] at hle
      rw [List.length_append]
      omega
    have helements := readElements_separate hread (List.cons_ne_nil x xs) hlength rest
    rw [List.map_cons] at helements ⊢
    obtain ⟨more, hmore⟩ := separate_starts (hwrite x) (xs.map write) (']' :: rest)
    rw [hmore] at helements ⊢
    have hblank : skipBlanks ('\x7b' :: more) = '\x7b' :: more := skipBlanks_cons (by decide)
    simpa [hblank] using helements

end Arrays

section Objects

variable {α β : Type} {member : String → β → Reader β}

/-- The members gather one after another what leads from one draft to another. -/
inductive Gathers (member : String → β → Reader β) : β → List (List Char) → β → Prop
  | nil (d : β) : Gathers member d [] d
  | cons {name : String} {value : List Char} {members : List (List Char)} {d e f : β}
    (head : Reads (member name d) value e) (rest : Gathers member e members f) :
    Gathers member d (writeMember name value :: members) f

private theorem readMembers_writeMember {name : String} {value : List Char} {d e : β}
    (h : Reads (member name d) value e) {c : Char} (hc : c = ',' ∨ c = '\x7d') (count : Nat) (rest : List Char) :
    readMembers member (count + 1) d (writeMember name value ++ c :: rest) =
      if c = ',' then readMembers member count e rest else some (e, rest) := by
  have hname : readString (writeMember name value ++ c :: rest) = some (name, ':' :: (value ++ c :: rest)) := by
    rw [writeMember, List.append_assoc, readString_writeString]
    rfl
  have hcolon : expect ':' (':' :: (value ++ c :: rest)) = some (value ++ c :: rest) := expect_cons (by decide)
  have hvalue := h (c :: rest) (.cons (by rcases hc with rfl | rfl <;> simp))
  rcases hc with rfl | rfl
  · have hblank : skipBlanks (',' :: rest) = ',' :: rest := skipBlanks_cons (by decide)
    simp [readMembers, hname, hcolon, hvalue, hblank]
  · have hblank : skipBlanks ('\x7d' :: rest) = '\x7d' :: rest := skipBlanks_cons (by decide)
    simp [readMembers, hname, hcolon, hvalue, hblank]

private theorem Gathers.readMembers {d e : β} {first : List Char} {members : List (List Char)}
    (h : Gathers member d (first :: members) e) {count : Nat} (hcount : members.length < count) (rest : List Char) :
    readMembers member count d (separate (first :: members) ++ '\x7d' :: rest) = some (e, rest) := by
  induction members generalizing first d count with
  | nil =>
    obtain ⟨count, rfl⟩ : ∃ n, count = n + 1 := ⟨count - 1, by omega⟩
    cases h with
    | cons head hrest =>
      cases hrest
      rw [separate_singleton, readMembers_writeMember head (Or.inr rfl)]
      rfl
  | cons next members ih =>
    obtain ⟨count, rfl⟩ : ∃ n, count = n + 1 := ⟨count - 1, by omega⟩
    cases h with
    | cons head hrest =>
      rw [separate_cons_cons, List.append_assoc, List.cons_append, readMembers_writeMember head (Or.inl rfl)]
      exact ih hrest (Nat.lt_of_succ_lt_succ hcount)

private theorem Gathers.starts {d e : β} {first : List Char} {members : List (List Char)}
    (h : Gathers member d (first :: members) e) : ∃ tail, first = '"' :: tail := by
  cases h
  exact ⟨_, rfl⟩

private theorem Gathers.ne_nil {d e : β} {members : List (List Char)} (h : Gathers member d members e) :
    ∀ text ∈ members, text ≠ [] := by
  induction h with
  | nil => exact nofun
  | cons head _ ih => exact List.forall_mem_cons.2 ⟨List.cons_ne_nil _ _, ih⟩

/-- An object whose members lead to a draft is read as what the draft makes. -/
theorem Gathers.reads {start d : β} {members : List (List Char)} (h : Gathers member start members d)
    (finish : β → Option α) {x : α} (hx : finish d = some x) (fields : Reader α) :
    Reads (readRecord member start finish fields) (writeObject members) x := by
  intro rest _
  have hopen : writeObject members ++ rest = '\x7b' :: (separate members ++ '\x7d' :: rest) := by
    simp [writeObject]
  have hobject : readObject member start (separate members ++ '\x7d' :: rest) = some (d, rest) := by
    cases members with
    | nil =>
      cases h
      rfl
    | cons first members =>
      have hlength : members.length < (separate (first :: members) ++ '\x7d' :: rest).length := by
        have hle := length_le_separate h.ne_nil
        rw [List.length_cons] at hle
        rw [List.length_append]
        omega
      have hmembers := h.readMembers hlength rest
      obtain ⟨more, hmore⟩ := separate_starts h.starts members ('\x7d' :: rest)
      rw [hmore] at hmembers ⊢
      have hblank : skipBlanks ('"' :: more) = '"' :: more := skipBlanks_cons (by decide)
      simpa [readObject, hblank] using hmembers
  have hblank : skipBlanks ('\x7b' :: (separate members ++ '\x7d' :: rest)) =
      '\x7b' :: (separate members ++ '\x7d' :: rest) := skipBlanks_cons (by decide)
  simp [hopen, readRecord, hblank, hobject, hx]

end Objects

end Sequences

theorem Reads.whole {α : Type} {read : Reader α} {text : List Char} {x : α} (h : Reads read text x) :
    readWhole read (String.ofList text) = some x := by
  have hread := h [] nofun
  rw [List.append_nil] at hread
  simp [readWhole, hread, skipBlanks]

end RegularLanguages.Json
