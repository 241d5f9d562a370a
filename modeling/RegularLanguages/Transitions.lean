import RegularLanguages.StateSet.Membership
import RegularLanguages.Alphabet
import Std.Data.ExtTreeMap

/-!
The transition relation: target sets by source and label, in the order in which the pairs of source and
label came to have a target.
-/
namespace RegularLanguages

structure Transition where
  source : State
  label : Label SymbolId
  target : State
  deriving DecidableEq

abbrev TransitionKey := State × Label SymbolId

def Label.rank : Label SymbolId → Nat
  | epsilon => 0
  | symbol a => a + 1

private theorem Label.rank_injective {k l : Label SymbolId} (h : k.rank = l.rank) : k = l := by
  cases k <;> cases l <;> simp_all [Label.rank]

namespace TransitionKey

/-- Keys by source and then by label. -/
def order : TransitionKey → TransitionKey → Ordering :=
  compareLex (compareOn fun k => k.1) (compareOn fun k => k.2.rank)

instance : Std.TransCmp order := inferInstanceAs (Std.TransCmp (compareLex _ _))

instance : Std.LawfulEqCmp order where
  eq_of_compare {k l} h := by
    simp only [order, compareLex, compareOn, Ordering.then_eq_eq, Std.LawfulEqCmp.compare_eq_iff_eq] at h
    exact Prod.ext h.1 (Label.rank_injective h.2)

end TransitionKey

/-- Non-empty target sets by key. A key is present exactly when it has a target. -/
structure Transitions where
  /-- The keys, the latest first. -/
  keys : List TransitionKey
  table : Std.ExtTreeMap TransitionKey StateSet TransitionKey.order
  /-- A bound above all targets. -/
  width : Nat
  nodup : keys.Nodup
  mem_keys : ∀ k : TransitionKey, k ∈ keys ↔ k ∈ table
  inhabited : ∀ (k : TransitionKey) (S : StateSet), table[k]? = some S → S.isEmpty = false
  bounded : ∀ (k : TransitionKey) (S : StateSet), table[k]? = some S →
    ∀ q, S.contains q = true → q < width

namespace Transitions

instance : EmptyCollection Transitions := ⟨⟨[], ∅, 0, List.nodup_nil, by simp, by simp, by simp⟩⟩

instance : Inhabited Transitions := ⟨∅⟩

def get? (T : Transitions) (source : State) (label : Label SymbolId) : Option StateSet :=
  T.table[(source, label)]?

def targets (T : Transitions) (source : State) (label : Label SymbolId) : StateSet :=
  (T.get? source label).getD ∅

def contains (T : Transitions) (source : State) (label : Label SymbolId) (target : State) : Bool :=
  (T.targets source label).contains target

/-- Replaces the targets of a key by a set that is not empty. -/
def put (T : Transitions) (key : TransitionKey) (S : StateSet) (width : Nat) (hS : S.isEmpty = false)
    (hT : T.width ≤ width) (hw : ∀ q, S.contains q = true → q < width) : Transitions where
  keys := if key ∈ T.table then T.keys else key :: T.keys
  table := T.table.insert key S
  width := width
  nodup := by
    split
    · exact T.nodup
    · rename_i h
      exact List.nodup_cons.2 ⟨fun hk => h ((T.mem_keys key).1 hk), T.nodup⟩
  mem_keys := by
    intro k
    rw [Std.ExtTreeMap.mem_insert, Std.LawfulEqCmp.compare_eq_iff_eq]
    split
    · rename_i h
      rw [T.mem_keys]
      exact ⟨Or.inr, fun hk => hk.elim (fun e => e ▸ h) id⟩
    · rw [List.mem_cons, T.mem_keys]
      exact or_congr_left eq_comm
  inhabited := by
    intro k R h
    rw [Std.ExtTreeMap.getElem?_insert] at h
    split at h
    · cases h
      exact hS
    · exact T.inhabited k R h
  bounded := by
    intro k R h
    rw [Std.ExtTreeMap.getElem?_insert] at h
    split at h
    · cases h
      exact hw
    · exact fun q hq => Nat.lt_of_lt_of_le (T.bounded k R h q hq) hT

def drop (T : Transitions) (key : TransitionKey) : Transitions where
  keys := T.keys.erase key
  table := T.table.erase key
  width := T.width
  nodup := T.nodup.erase key
  mem_keys := by
    intro k
    rw [Std.ExtTreeMap.mem_erase, T.nodup.mem_erase_iff, T.mem_keys, Ne, Ne,
      Std.LawfulEqCmp.compare_eq_iff_eq, eq_comm]
  inhabited := by
    intro k R h
    rw [Std.ExtTreeMap.getElem?_erase] at h
    split at h
    · cases h
    · exact T.inhabited k R h
  bounded := by
    intro k R h
    rw [Std.ExtTreeMap.getElem?_erase] at h
    split at h
    · cases h
    · exact T.bounded k R h

/-- The relation with one more transition. Its key keeps its place, or comes last if it is new. -/
def add (T : Transitions) (source : State) (label : Label SymbolId) (target : State) : Transitions :=
  T.put (source, label) ((T.targets source label).insert target) (max T.width (target + 1))
    (StateSet.isEmpty_insert _ _) (Nat.le_max_left _ _) (by
      intro q hq
      rw [StateSet.contains_insert, Bool.or_eq_true, decide_eq_true_eq] at hq
      rcases hq with hq | rfl
      · rw [targets, get?] at hq
        cases h : T.table[(source, label)]? with
        | none => simp [h] at hq
        | some S =>
          rw [h] at hq
          exact Nat.lt_of_lt_of_le (T.bounded _ S h q hq) (Nat.le_max_left _ _)
      · exact Nat.lt_of_lt_of_le (Nat.lt_succ_self _) (Nat.le_max_right _ _))

/-- The relation without one transition. Its key goes with its last target. -/
def remove (T : Transitions) (source : State) (label : Label SymbolId) (target : State) : Transitions :=
  match h : T.table[(source, label)]? with
  | none => T
  | some S =>
    if hS : (S.erase target).isEmpty then T.drop (source, label)
    else T.put (source, label) (S.erase target) T.width (by simpa using hS) (Nat.le_refl _)
      (fun q hq => by
        rw [StateSet.contains_erase, Bool.and_eq_true] at hq
        exact T.bounded _ S h q hq.1)

def entries (T : Transitions) : List (TransitionKey × StateSet) :=
  T.keys.reverse.filterMap fun k => T.table[k]?.map fun S => (k, S)

/-- Every transition once: keys in their order, the targets of a key ascending. -/
def toList (T : Transitions) : List Transition :=
  T.entries.flatMap fun e => e.2.toList.map fun target => ⟨e.1.1, e.1.2, target⟩

def addAll (T : Transitions) (ts : List Transition) : Transitions :=
  ts.foldl (fun T t => T.add t.source t.label t.target) T

def ofList (ts : List Transition) : Transitions := addAll ∅ ts

/-- The relation in which the `q`th row holds the targets of state `q` by symbol. -/
def ofRows (rows : List (List (Option State))) : Transitions :=
  ofList (rows.zipIdx.flatMap fun r => r.1.zipIdx.filterMap fun t =>
    t.1.map fun target => ⟨r.2, .symbol t.2, target⟩)

def size (T : Transitions) : Nat := T.entries.foldl (fun n e => n + e.2.card) 0

def isEmpty (T : Transitions) : Bool := T.keys.isEmpty

def hasEpsilon (T : Transitions) : Bool := T.keys.any fun k => k.2.isEpsilon

/-- No epsilon, and at most one target under every key. -/
def isDeterministic (T : Transitions) : Bool :=
  T.entries.all fun e => !e.1.2.isEpsilon && decide (e.2.card ≤ 1)

end Transitions

end RegularLanguages
