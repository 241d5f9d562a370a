import RegularLanguages.StateSet
import Std.Data.ExtTreeMap

/-!
Names of states. The newest name of a state counts; a name belongs to the first state that ever got it,
also when that state has been renamed since.
-/
namespace RegularLanguages

/-- The names that states carry now, and the record of who was named what. -/
structure StateNames where
  /-- The newest name of each named state. -/
  current : Std.ExtTreeMap Nat String
  /-- All namings so far, newest first. -/
  given : List (State × String)
  mem_given : ∀ (q : State) (name : String), current[q]? = some name → (q, name) ∈ given
  named : ∀ e ∈ given, ∃ name, current[e.1]? = some name

namespace StateNames

instance : EmptyCollection StateNames := ⟨⟨∅, [], by simp, nofun⟩⟩

instance : Inhabited StateNames := ⟨∅⟩

def name? (N : StateNames) (q : State) : Option String := N.current[q]?

/-- The first state that got `name`. -/
def owner? (N : StateNames) (name : String) : Option State :=
  (N.given.filter fun g => g.2 == name).getLast?.map (·.1)

def set (N : StateNames) (q : State) (name : String) : StateNames where
  current := N.current.insert q name
  given := (q, name) :: N.given
  mem_given := by
    intro p t h
    rw [Std.ExtTreeMap.getElem?_insert] at h
    split at h
    · rename_i hqp
      rw [Std.LawfulEqCmp.compare_eq_iff_eq] at hqp
      cases hqp
      cases h
      exact List.mem_cons_self
    · exact List.mem_cons_of_mem _ (N.mem_given p t h)
  named := by
    intro e he
    rw [Std.ExtTreeMap.getElem?_insert]
    split
    · exact ⟨name, rfl⟩
    · rename_i hne
      rcases List.mem_cons.1 he with rfl | he
      · exact absurd (Std.LawfulEqCmp.compare_eq_iff_eq.2 rfl) hne
      · exact N.named e he

def display (N : StateNames) (q : State) : String := (N.name? q).getD (toString q)

def setAll (N : StateNames) (namings : List (State × String)) : StateNames :=
  namings.foldl (fun N e => N.set e.1 e.2) N

def ofList (names : List String) : StateNames :=
  setAll ∅ (names.zipIdx.map fun e => (e.2, e.1))

/-- The states below `n` that carry a name, ascending, each with that name. -/
def below (N : StateNames) (n : Nat) : List (State × String) :=
  N.current.toList.filter fun e => e.1 < n

end StateNames

end RegularLanguages
