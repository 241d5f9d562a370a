import RegularLanguages.Automaton.Determinization
import RegularLanguages.Automaton.Reachability

/-!
The accepted words in order: shorter ones first, words of one length by the order of the symbols.
-/
namespace RegularLanguages.Automaton

-- The latest symbol comes first.
abbrev Trail := State × List SymbolId

def spell (D : Automaton) (t : Trail) : List String := t.2.reverse.filterMap D.alphabet.name?

/-- The trails one symbol longer that end in live states, in the order of the symbols. -/
def extend (D : Automaton) (live : StateSet) (t : Trail) : List Trail :=
  D.alphabet.ids.filterMap fun a =>
    ((D.next? t.1 a).filter live.contains).map fun q => (q, a :: t.2)

def follow (D : Automaton) (live : StateSet) (bound : Nat) (t : Trail) : List Trail :=
  if t.2.length < bound then D.extend live t else []

/-- The turns that the search takes for a trail that may grow by so many symbols and for what comes from it: each trail
is visited and, before that, moved to the front. -/
def turns (symbols : Nat) : Nat → Nat
  | 0 => 1
  | more + 1 => symbols * (turns symbols more + 1) + 1

def workload (symbols bound : Nat) : List Trail → Nat
  | [] => 0
  | t :: rest => turns symbols (bound - t.2.length) + workload symbols bound rest

theorem workload_append (symbols bound : Nat) (ts us : List Trail) :
    workload symbols bound (ts ++ us) = workload symbols bound ts + workload symbols bound us := by
  induction ts with
  | nil => exact (Nat.zero_add _).symm
  | cons t ts ih =>
    simp only [List.cons_append, workload, ih]
    omega

theorem workload_reverse (symbols bound : Nat) (ts : List Trail) :
    workload symbols bound ts.reverse = workload symbols bound ts := by
  induction ts with
  | nil => rfl
  | cons t ts ih =>
    simp only [List.reverse_cons, workload_append, workload, ih]
    omega

private theorem workload_eq {symbols bound length : Nat} {ts : List Trail} (h : ∀ t ∈ ts, t.2.length = length) :
    workload symbols bound ts = ts.length * turns symbols (bound - length) := by
  induction ts with
  | nil => exact (Nat.zero_mul _).symm
  | cons t ts ih =>
    obtain ⟨ht, hts⟩ := List.forall_mem_cons.1 h
    rw [workload, ih hts, ht, List.length_cons, Nat.succ_mul, Nat.add_comm]

theorem length_of_mem_extend {D : Automaton} {live : StateSet} {t u : Trail} (h : u ∈ D.extend live t) :
    u.2.length = t.2.length + 1 := by
  obtain ⟨a, _, hu⟩ := List.mem_filterMap.1 h
  obtain ⟨q, _, rfl⟩ := Option.map_eq_some_iff.1 hu
  rfl

private theorem length_extend_le (D : Automaton) (live : StateSet) (t : Trail) :
    (D.extend live t).length ≤ D.alphabet.size :=
  Nat.le_trans (List.length_filterMap_le _ _) (Nat.le_of_eq List.length_range)

private theorem workload_follow (D : Automaton) (live : StateSet) (bound : Nat) (t : Trail) :
    workload D.alphabet.size bound (D.follow live bound t) + (D.follow live bound t).length <
      turns D.alphabet.size (bound - t.2.length) := by
  unfold follow
  split
  · rename_i hlt
    have hmore : bound - t.2.length = bound - (t.2.length + 1) + 1 := by omega
    rw [workload_eq fun u hu => length_of_mem_extend hu, hmore, turns, ← Nat.mul_succ]
    exact Nat.lt_succ_of_le (Nat.mul_le_mul_right _ (D.length_extend_le live t))
  · rename_i hge
    rw [Nat.sub_eq_zero_of_le (Nat.not_lt.1 hge)]
    exact Nat.zero_lt_one

/-- Takes the trails from the front of a queue one by one, keeps the word of each that is accepted, and puts the trails
that follow at the back. The queue is held as its front and, latest first, its back. -/
def visit (D : Automaton) (live : StateSet) (bound : Nat) (words : Array (List String)) :
    List Trail → List Trail → Array (List String)
  | [], [] => words
  | [], t :: back => visit D live bound words (t :: back).reverse []
  | t :: front, back =>
    visit D live bound (if D.finals.contains t.1 then words.push (D.spell t) else words) front
      ((D.follow live bound t).reverse ++ back)
termination_by front back =>
  workload D.alphabet.size bound front + (workload D.alphabet.size bound back + back.length)
decreasing_by
  · simp only [workload_reverse, workload, List.length_cons, List.length_nil]
    omega
  · have hless := workload_follow D live bound t
    simp only [workload_append, workload_reverse, workload, List.length_append, List.length_reverse]
    omega

def wordsOf (D : Automaton) (bound : Nat) : List (List String) :=
  let live := D.coreachable
  match D.starts.first? with
  | none => []
  | some start => if live.contains start then (D.visit live bound #[] [(start, [])] []).toList else []

/-- The accepted words of at most `bound` symbols, each once. -/
def acceptedWords (A : Automaton) (bound : Nat) : List (List String) := A.determinize.wordsOf bound

end RegularLanguages.Automaton
