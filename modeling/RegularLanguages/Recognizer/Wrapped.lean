/-!
What a calling program names the parts of an automaton with: states and symbols that wrap values of its own, and a mark
for epsilon edges. Text, equality and hash of a wrapped value are made from those of the value, and fail as they do.
-/
namespace RegularLanguages

inductive Wrapped (V : Type)
  | state (v : V)
  | symbol (v : V)
  | epsilon

namespace Wrapped

variable {V E : Type}

def text (text : V → Except E String) : Wrapped V → Except E String
  | state v => (text v).map fun t => "State(" ++ t ++ ")"
  | symbol v => (text v).map fun t => "Symbol(" ++ t ++ ")"
  | epsilon => .ok "Epsilon()"

/-- Whether a wrapped value equals something else, where `none` stands for whatever is not of this type. Values in
different wrappers are not compared. -/
def equal (eq : V → V → Except E Bool) : Wrapped V → Option (Wrapped V) → Except E Bool
  | state v, some (state w) | symbol v, some (symbol w) => eq v w
  | epsilon, some epsilon => .ok true
  | _, _ => .ok false

/-- The wrapper does not show in the hash. All epsilon marks have one and the same. -/
def hash (hash : V → Except E Int) : Wrapped V → Except E Int
  | state v | symbol v => hash v
  | epsilon => .ok (-2401053089206453570)

def value? : Wrapped V → Option V
  | state v | symbol v => some v
  | epsilon => none

/-- What is equal has equal hashes, if this is so for the values. -/
theorem hash_eq_of_equal {eq : V → V → Except E Bool} {hash : V → Except E Int}
    (h : ∀ v w, eq v w = .ok true → hash v = hash w) {m n : Wrapped V} (hmn : m.equal eq (some n) = .ok true) :
    m.hash hash = n.hash hash := by
  cases m with
  | state v =>
    cases n with
    | state w => exact h v w hmn
    | symbol | epsilon => cases hmn
  | symbol v =>
    cases n with
    | symbol w => exact h v w hmn
    | state | epsilon => cases hmn
  | epsilon =>
    cases n with
    | epsilon => rfl
    | state | symbol => cases hmn

end Wrapped

end RegularLanguages
