import RegularLanguages.StateSet

/-!
Sets of states in arrays of bits that grow. An array may be longer than its members need, and the arrays of two sets
need not have the same length.
-/
namespace RegularLanguages

/-- An array of bits. Behind its end no bit is set. -/
structure BitArray where
  bits : List Bool

namespace BitArray

def zeros (length : Nat) : BitArray := ⟨.replicate length false⟩

def length (B : BitArray) : Nat := B.bits.length

def contains (B : BitArray) (i : Nat) : Bool := B.bits[i]?.getD false

/-- At least as many bits as given. New ones come last and are not set. -/
def grow (B : BitArray) (length : Nat) : BitArray := ⟨B.bits ++ .replicate (length - B.length) false⟩

def put (B : BitArray) (i : Nat) (h : i < B.length) : BitArray × Bool := (⟨B.bits.set i true⟩, B.bits.get ⟨i, h⟩)

def write (B : BitArray) (i : Nat) (bit : Bool) (_ : i < B.length) : BitArray := ⟨B.bits.set i bit⟩

def isClear (B : BitArray) : Bool := B.bits.all fun bit => !bit

def countOnes (B : BitArray) : Nat := B.bits.count true

def ones (B : BitArray) : List Nat := (List.range B.length).filter B.contains

def minimum? (B : BitArray) : Option Nat := B.bits.findIdx? fun bit => bit

/-- Sets the bits of `B` too. The array gets as long as the longer one. -/
def unionWith (A B : BitArray) : BitArray :=
  ⟨(A.grow B.length).bits.mapIdx fun i bit => bit || B.contains i⟩

/-- Keeps the bits that are set in `B` too. The array stays as long as it is. -/
def intersectWith (A B : BitArray) : BitArray := ⟨A.bits.mapIdx fun i bit => bit && B.contains i⟩

/-- Keeps the bits that are not set in `B`. The array stays as long as it is. -/
def differenceWith (A B : BitArray) : BitArray := ⟨A.bits.mapIdx fun i bit => bit && !B.contains i⟩

/-- Whether no bit is set in both. What is in the longer one alone is not looked at. -/
def isDisjoint (A B : BitArray) : Bool := (A.bits.zip B.bits).all fun bits => !(bits.1 && bits.2)

theorem lt_length_of_contains {B : BitArray} {i : Nat} (h : B.contains i) : i < B.length := by
  refine Nat.lt_of_not_le fun hle => ?_
  rw [contains, List.getElem?_eq_none hle] at h
  cases h

theorem length_grow (B : BitArray) (n : Nat) : (B.grow n).length = max B.length n := by
  rw [length, grow, List.length_append, List.length_replicate, length]
  omega

end BitArray

/-- The states whose bits are set in an array. -/
structure SizedSet where
  array : BitArray

namespace SizedSet

instance : EmptyCollection SizedSet := ⟨⟨.zeros 0⟩⟩

/-- The empty set, with room for the states below `capacity`. -/
def withCapacity (capacity : Nat) : SizedSet := ⟨.zeros capacity⟩

def contains (S : SizedSet) (q : State) : Bool := S.array.contains q

/-- The array, grown if it has no bit for `q` yet. -/
def room (S : SizedSet) (q : State) : BitArray := if S.array.length ≤ q then S.array.grow (q + 1) else S.array

theorem lt_length_room (S : SizedSet) (q : State) : q < (S.room q).length := by
  unfold room
  split
  · rw [BitArray.length_grow]
    exact Nat.le_max_right _ _
  · rename_i h
    exact Nat.lt_of_not_le h

def insert (S : SizedSet) (q : State) : SizedSet × Bool :=
  let (array, known) := (S.room q).put q (S.lt_length_room q)
  (⟨array⟩, !known)

def remove (S : SizedSet) (q : State) : SizedSet × Bool :=
  if h : S.contains q then (⟨S.array.write q false (BitArray.lt_length_of_contains h)⟩, true)
  else (S, false)

def extend (S : SizedSet) (states : List State) : SizedSet := states.foldl (fun S q => (S.insert q).1) S

def singleton (q : State) (capacity : Nat) : SizedSet := ((withCapacity capacity).insert q).1

def ofList (states : List State) : SizedSet := extend ∅ states

def union (S T : SizedSet) : SizedSet := ⟨S.array.unionWith T.array⟩

def inter (S T : SizedSet) : SizedSet := ⟨S.array.intersectWith T.array⟩

def diff (S T : SizedSet) : SizedSet := ⟨S.array.differenceWith T.array⟩

def isEmpty (S : SizedSet) : Bool := S.array.isClear

def card (S : SizedSet) : Nat := S.array.countOnes

def first? (S : SizedSet) : Option State := S.array.minimum?

def toList (S : SizedSet) : List State := S.array.ones

def meets (S T : SizedSet) : Bool := !S.array.isDisjoint T.array

/-- Sets are compared by their members, one after another. -/
instance : BEq SizedSet := ⟨fun S T => S.toList == T.toList⟩

end SizedSet

end RegularLanguages
