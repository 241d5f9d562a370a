import RegularLanguages.StateSet.Session
import RegularLanguages.Transitions

/-!
Sessions with a transition relation: transitions are added and removed, and each call answers whether it changed anything.
-/
namespace RegularLanguages

def Transition.key (t : Transition) : TransitionKey := (t.source, t.label)

inductive TransitionCall
  | add (t : Transition)
  | remove (t : Transition)

namespace Transitions

/-- One call and its answer. The answer comes from the targets of the key: to remove a transition without a key is to
change nothing. -/
def perform (T : Transitions) : TransitionCall → Transitions × Bool
  | .add t => (T.add t.source t.label t.target, (SetKind.masks.insert (T.targets t.source t.label) t.target).2)
  | .remove t =>
    match T.get? t.source t.label with
    | none => (T, false)
    | some S => (T.remove t.source t.label t.target, (SetKind.masks.remove S t.target).2)

def after (calls : List TransitionCall) : Transitions := calls.foldl (fun T call => (T.perform call).1) ∅

end Transitions

end RegularLanguages
