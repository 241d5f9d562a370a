import RegularLanguages.StateSet.Sized

/-!
Sessions with sets of states: variables hold sets, and calls make new ones or change them. What a call does is told once
for all kinds of sets.
-/
namespace RegularLanguages

/-- How sets of states are made and changed. Insertion answers whether the state is new, removal whether it was a
member. -/
structure SetOperations (σ : Type) where
  empty : σ
  withCapacity : Nat → σ
  singleton : State → Nat → σ
  ofList : List State → σ
  insert : σ → State → σ × Bool
  remove : σ → State → σ × Bool
  extend : σ → List State → σ
  union : σ → σ → σ
  inter : σ → σ → σ
  diff : σ → σ → σ

/-- A kind of sets of states: how they are made and changed, and what can be seen of them. -/
structure SetKind (σ : Type) extends SetOperations σ where
  contains : σ → State → Bool
  card : σ → Nat
  isEmpty : σ → Bool
  first? : σ → Option State
  toList : σ → List State
  meets : σ → σ → Bool
  equal : σ → σ → Bool

namespace SetKind

/-- What a hasher makes of a set: it is fed the members, one after another. -/
def hash {σ H : Type} (K : SetKind σ) (feed : H → State → H) (start : H) (S : σ) : H := (K.toList S).foldl feed start

/-- Arrays of bits, in which the room for a set can be told from its members. -/
def sized : SetKind SizedSet where
  empty := ∅
  withCapacity := SizedSet.withCapacity
  singleton := SizedSet.singleton
  ofList := SizedSet.ofList
  insert := SizedSet.insert
  remove := SizedSet.remove
  extend := SizedSet.extend
  union := SizedSet.union
  inter := SizedSet.inter
  diff := SizedSet.diff
  contains := SizedSet.contains
  card := SizedSet.card
  isEmpty := SizedSet.isEmpty
  first? := SizedSet.first?
  toList := SizedSet.toList
  meets := SizedSet.meets
  equal S T := S == T

/-- Bit masks, in which there is nothing but the members. -/
def masks : SetKind StateSet where
  empty := ∅
  withCapacity := StateSet.withCapacity
  singleton q _ := .singleton q
  ofList := StateSet.ofList
  insert S q := (S.insert q, !S.contains q)
  remove S q := (S.erase q, S.contains q)
  extend S states := states.foldl StateSet.insert S
  union := (· ∪ ·)
  inter := (· ∩ ·)
  diff := (· \ ·)
  contains := StateSet.contains
  card := StateSet.card
  isEmpty := StateSet.isEmpty
  first? := StateSet.first?
  toList := StateSet.toList
  meets := StateSet.meets
  equal S T := decide (S = T)

end SetKind

/-- A call on the variables `x`, `y` and `z`. What it makes or changes is in `x`. -/
inductive SetCall
  | withCapacity (x : String) (capacity : Nat)
  | singleton (x : String) (q : State) (capacity : Nat)
  | ofList (x : String) (states : List State)
  | insert (x : String) (q : State)
  | remove (x : String) (q : State)
  | extend (x : String) (states : List State)
  | unionWith (x y : String)
  | intersection (x y z : String)
  | difference (x y z : String)

/-- The same call with no room asked for. -/
def SetCall.withoutRoom : SetCall → SetCall
  | withCapacity x _ => withCapacity x 0
  | singleton x q _ => singleton x q 0
  | call => call

structure SetSession (σ : Type) where
  store : String → σ
  answers : List Bool

namespace SetSession

variable {σ : Type}

def assign (s : SetSession σ) (x : String) (S : σ) : SetSession σ :=
  { s with store := fun y => if y = x then S else s.store y }

def answer (s : SetSession σ) (x : String) (r : σ × Bool) : SetSession σ :=
  { s.assign x r.1 with answers := s.answers ++ [r.2] }

def perform (K : SetOperations σ) (s : SetSession σ) : SetCall → SetSession σ
  | .withCapacity x capacity => s.assign x (K.withCapacity capacity)
  | .singleton x q capacity => s.assign x (K.singleton q capacity)
  | .ofList x states => s.assign x (K.ofList states)
  | .insert x q => s.answer x (K.insert (s.store x) q)
  | .remove x q => s.answer x (K.remove (s.store x) q)
  | .extend x states => s.assign x (K.extend (s.store x) states)
  | .unionWith x y => s.assign x (K.union (s.store x) (s.store y))
  | .intersection x y z => s.assign x (K.inter (s.store y) (s.store z))
  | .difference x y z => s.assign x (K.diff (s.store y) (s.store z))

/-- The session after some calls. All variables hold empty sets at first. -/
def after (K : SetOperations σ) (calls : List SetCall) : SetSession σ := calls.foldl (perform K) ⟨fun _ => K.empty, []⟩

end SetSession

end RegularLanguages
