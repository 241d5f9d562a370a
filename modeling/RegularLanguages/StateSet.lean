/-!
Finite sets of states. A set is a bit mask, so sets with the same members are the same value and
every operation is total.
-/
namespace RegularLanguages

abbrev State := Nat

/-- A finite set of states: bit `q` of `bits` says whether `q` is a member. -/
structure StateSet where
  bits : Nat
  deriving DecidableEq

namespace StateSet

instance : EmptyCollection StateSet := ⟨⟨0⟩⟩

instance : Inhabited StateSet := ⟨∅⟩

/-- The empty set. The capacity is a hint about the members to come and is not remembered. -/
def withCapacity (_capacity : Nat) : StateSet := ∅

def contains (S : StateSet) (q : State) : Bool := S.bits.testBit q

instance : Membership State StateSet := ⟨fun S q => S.contains q = true⟩

instance (q : State) (S : StateSet) : Decidable (q ∈ S) :=
  inferInstanceAs (Decidable (S.contains q = true))

def singleton (q : State) : StateSet := ⟨1 <<< q⟩

def isEmpty (S : StateSet) : Bool := S.bits == 0

def union (S T : StateSet) : StateSet := ⟨S.bits ||| T.bits⟩

def inter (S T : StateSet) : StateSet := ⟨S.bits &&& T.bits⟩

def diff (S T : StateSet) : StateSet := ⟨S.bits &&& (S.bits ^^^ T.bits)⟩

instance : Union StateSet := ⟨union⟩

instance : Inter StateSet := ⟨inter⟩

instance : SDiff StateSet := ⟨diff⟩

def insert (S : StateSet) (q : State) : StateSet := S ∪ singleton q

theorem isEmpty_insert (S : StateSet) (q : State) : (S.insert q).isEmpty = false := by
  have h : (S.bits ||| 1 <<< q).testBit q = true := by simp [Nat.testBit_shiftLeft]
  refine beq_false_of_ne fun h0 => ?_
  change S.bits ||| 1 <<< q = 0 at h0
  rw [h0] at h
  simp at h

@[simp] theorem isEmpty_singleton (q : State) : (singleton q).isEmpty = false := by
  refine beq_false_of_ne fun h0 => ?_
  have h : (1 <<< q : Nat).testBit q = true := by simp [Nat.testBit_shiftLeft]
  rw [show (1 <<< q : Nat) = 0 from h0] at h
  simp at h

/-- `S` without `q`. Nothing changes when `q` is no member, however large it is. -/
def erase (S : StateSet) (q : State) : StateSet :=
  if S.contains q then S \ singleton q else S

def ofList (states : List State) : StateSet := states.foldl insert ∅

/-- The bits of the `1 <<< w` numbers from `offset` on for which `p` holds, the one of `offset` lowest. -/
def gather (p : State → Bool) : Nat → State → Nat
  | 0, offset => if p offset then 1 else 0
  | w + 1, offset => gather p w offset ||| gather p w (offset + 1 <<< w) <<< (1 <<< w)

def below (n : Nat) (p : State → Bool) : StateSet :=
  ⟨gather (fun q => decide (q < n) && p q) (n.log2 + 1) 0⟩

def full (n : Nat) : StateSet := ⟨1 <<< n - 1⟩

/-- The positions of the ones among the lowest `count` bits, counted from `offset`, in front of `rest`. -/
def onesBelow (bits : Nat) (offset : State) : Nat → List State → List State
  | 0, rest => rest
  | count + 1, rest =>
    onesBelow bits offset count (if bits.testBit count then (offset + count) :: rest else rest)

/-- The positions of the ones among `2 ^ (w + 5)` bits, counted from `offset`, in front of `rest`. A block
without ones is passed over at once. -/
def onesFrom : Nat → State → Nat → List State → List State
  | 0, offset, bits, rest => if bits = 0 then rest else onesBelow bits offset 32 rest
  | w + 1, offset, bits, rest =>
    if bits = 0 then rest
    else
      let half := 1 <<< (w + 5)
      onesFrom w offset (bits &&& (1 <<< half - 1)) (onesFrom w (offset + half) (bits >>> half) rest)

def toList (S : StateSet) : List State := onesFrom ((S.bits.log2 + 1).log2 - 4) 0 S.bits []

def image (f : State → StateSet) (S : StateSet) : StateSet :=
  S.toList.foldl (fun R q => R ∪ f q) ∅

/-- The number of ones among the lowest `count` bits, added to `n`. -/
def countBelow (bits : Nat) : Nat → Nat → Nat
  | 0, n => n
  | count + 1, n => countBelow bits count (if bits.testBit count then n + 1 else n)

/-- The number of ones among `2 ^ (w + 5)` bits. -/
def countFrom : Nat → Nat → Nat
  | 0, bits => if bits = 0 then 0 else countBelow bits 32 0
  | w + 1, bits =>
    if bits = 0 then 0
    else
      let half := 1 <<< (w + 5)
      countFrom w (bits &&& (1 <<< half - 1)) + countFrom w (bits >>> half)

def card (S : StateSet) : Nat := countFrom ((S.bits.log2 + 1).log2 - 4) S.bits

private theorem length_onesBelow (bits : Nat) (offset : State) (count : Nat) (rest : List State) :
    (onesBelow bits offset count rest).length = countBelow bits count rest.length := by
  induction count generalizing rest with
  | zero => rfl
  | succ count ih =>
    rw [onesBelow, countBelow, ih]
    split <;> rfl

private theorem countBelow_add (bits count n : Nat) :
    countBelow bits count n = countBelow bits count 0 + n := by
  induction count generalizing n with
  | zero => exact (Nat.zero_add n).symm
  | succ count ih =>
    rw [countBelow, countBelow]
    split
    · rw [ih (n + 1), ih (0 + 1)]
      omega
    · exact ih n

private theorem length_onesFrom (w : Nat) (offset : State) (bits : Nat) (rest : List State) :
    (onesFrom w offset bits rest).length = countFrom w bits + rest.length := by
  induction w generalizing offset bits rest with
  | zero =>
    rw [onesFrom, countFrom]
    split
    · exact (Nat.zero_add _).symm
    · rw [length_onesBelow, countBelow_add]
  | succ w ih =>
    rw [onesFrom, countFrom]
    split
    · exact (Nat.zero_add _).symm
    · rw [ih, ih, Nat.add_assoc]

/-- Counting and listing agree. -/
theorem length_toList (S : StateSet) : S.toList.length = S.card :=
  length_onesFrom _ _ _ _

def first? (S : StateSet) : Option State := S.toList.head?

def meets (S T : StateSet) : Bool := !(S ∩ T).isEmpty

def shift (S : StateSet) (offset : Nat) : StateSet := ⟨S.bits <<< offset⟩

def render (S : StateSet) : String :=
  "\x7b" ++ ", ".intercalate (S.toList.map fun q => toString q) ++ "\x7d"

end StateSet

end RegularLanguages
