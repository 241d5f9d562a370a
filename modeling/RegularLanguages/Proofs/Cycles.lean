import RegularLanguages.Proofs.Reachability

/-!
The search for cycles. What is on the stack is a path, so a successor that is found there closes a cycle; and from a
state that is done no walk goes on forever, so a search that ends has found that there is none.
-/
namespace RegularLanguages

/-- No walk from `q` goes on forever. -/
def Settled (next : State → List State) (q : State) : Prop := Acc (fun r p => r ∈ next p) q

namespace Settled

variable {next : State → List State} {q : State}

private theorem of_next (h : ∀ r ∈ next q, Settled next r) : Settled next q := Acc.intro q h

private theorem not_cycle (h : Settled next q) : ¬ Relation.TransGen (fun p r => r ∈ next p) q q := by
  induction h with
  | intro q _ ih =>
    intro hcycle
    obtain ⟨r, hr, hback⟩ := Relation.TransGen.head'_iff.1 hcycle
    exact ih r hr (Relation.TransGen.tail' hback hr)

end Settled

/-- A stack below the state `above`, if there is one: every frame leads to the one above it, and of the successors of its
state those that are neither pending nor above are settled. -/
inductive Linked (next : State → List State) : Option State → List Frame → Prop
  | nil {above : Option State} : Linked next above []
  | cons {above : Option State} {frame : Frame} {stack : List Frame} (climbs : ∀ r ∈ above, r ∈ next frame.state)
      (pending : ∀ r ∈ frame.pending, r ∈ next frame.state)
      (passed : ∀ r ∈ next frame.state, r ∈ frame.pending ∨ r ∈ above ∨ Settled next r)
      (rest : Linked next (some frame.state) stack) : Linked next above (frame :: stack)

namespace Linked

variable {next : State → List State} {above : Option State} {q r : State} {pending : List State} {stack : List Frame}

/-- A state that has just been put on the stack. -/
theorem push (h : Linked next (some q) stack) : Linked next none (⟨q, next q⟩ :: stack) :=
  .cons (fun _ h => nomatch h) (fun _ hr => hr) (fun _ hr => Or.inl hr) h

/-- The top of the stack when one of its successors is about to be put above it. -/
theorem look (h : Linked next none (⟨q, r :: pending⟩ :: stack)) : Linked next (some r) (⟨q, pending⟩ :: stack) := by
  cases h with
  | cons _ hpending hpassed rest =>
    refine .cons (fun s hs => ?_) (fun s hs => hpending s (List.mem_cons_of_mem r hs)) (fun s hs => ?_) rest
    · obtain rfl := Option.mem_some_iff.1 hs
      exact hpending r List.mem_cons_self
    · rcases hpassed s hs with hmem | hmem | hsettled
      · rcases List.mem_cons.1 hmem with rfl | hmem
        · exact Or.inr (Or.inl rfl)
        · exact Or.inl hmem
      · cases hmem
      · exact Or.inr (Or.inr hsettled)

/-- What is above is no longer needed when it is settled. -/
theorem drop (h : Linked next (some q) stack) (hq : Settled next q) : Linked next none stack := by
  cases h with
  | nil => exact .nil
  | cons climbs hpending hpassed rest =>
    refine .cons (fun _ h => nomatch h) hpending (fun r hr => ?_) rest
    rcases hpassed r hr with hmem | hmem | hsettled
    · exact Or.inl hmem
    · obtain rfl := Option.mem_some_iff.1 hmem
      exact Or.inr (Or.inr hq)
    · exact Or.inr (Or.inr hsettled)

/-- The top of the stack is settled when nothing is pending. -/
theorem settled (h : Linked next none (⟨q, []⟩ :: stack)) : Settled next q := by
  cases h with
  | cons _ _ hpassed _ =>
    refine .of_next fun r hr => ?_
    rcases hpassed r hr with hmem | hmem | hsettled
    · cases hmem
    · cases hmem
    · exact hsettled

theorem rest {frame : Frame} (h : Linked next above (frame :: stack)) : Linked next (some frame.state) stack := by
  cases h with
  | cons _ _ _ rest => exact rest

theorem climbs {frame : Frame} (h : Linked next (some r) (frame :: stack)) : r ∈ next frame.state := by
  cases h with
  | cons climbs _ _ _ => exact climbs r rfl

private theorem transGen (h : Linked next (some r) stack) {frame : Frame} (hframe : frame ∈ stack) :
    Relation.TransGen (fun p r => r ∈ next p) frame.state r := by
  generalize habove : some r = above at h
  induction h generalizing r with
  | nil => cases hframe
  | cons climbs _ _ _ ih =>
    subst habove
    have hlast := climbs r rfl
    rcases List.mem_cons.1 hframe with rfl | hmem
    · exact .single hlast
    · exact (ih hmem rfl).tail hlast

end Linked

/-- What the marks say while the stack is followed. -/
structure Marked (next : State → List State) (marks : Array Mark) (stack : List Frame) : Prop where
  onStack : ∀ q, marks[q]? = some .onStack → ∃ frame ∈ stack, frame.state = q
  done : ∀ q, marks[q]? = some .done → Settled next q

namespace Marked

variable {next : State → List State} {marks : Array Mark} {q r : State} {pending : List State} {stack : List Frame}

theorem push (h : Marked next marks stack) (pending : List State) :
    Marked next (marks.setIfInBounds r .onStack) (⟨r, pending⟩ :: stack) := by
  refine ⟨fun s hs => ?_, fun s hs => ?_⟩ <;> by_cases hrs : r = s
  · exact ⟨_, List.mem_cons_self, hrs⟩
  · rw [Array.getElem?_setIfInBounds_ne hrs] at hs
    obtain ⟨frame, hframe, rfl⟩ := h.onStack s hs
    exact ⟨frame, List.mem_cons_of_mem _ hframe, rfl⟩
  · rw [hrs, Array.getElem?_setIfInBounds_self] at hs
    split at hs <;> cases hs
  · rw [Array.getElem?_setIfInBounds_ne hrs] at hs
    exact h.done s hs

private theorem pop (h : Marked next marks (⟨q, pending⟩ :: stack)) (hq : Settled next q) :
    Marked next (marks.setIfInBounds q .done) stack := by
  refine ⟨fun s hs => ?_, fun s hs => ?_⟩ <;> by_cases hqs : q = s
  · rw [hqs, Array.getElem?_setIfInBounds_self] at hs
    split at hs <;> cases hs
  · rw [Array.getElem?_setIfInBounds_ne hqs] at hs
    obtain ⟨frame, hframe, rfl⟩ := h.onStack s hs
    rcases List.mem_cons.1 hframe with rfl | hmem
    · exact absurd rfl hqs
    · exact ⟨frame, hmem, rfl⟩
  · exact hqs ▸ hq
  · rw [Array.getElem?_setIfInBounds_ne hqs] at hs
    exact h.done s hs

theorem look (h : Marked next marks (⟨q, r :: pending⟩ :: stack)) : Marked next marks (⟨q, pending⟩ :: stack) := by
  refine ⟨fun s hs => ?_, h.done⟩
  obtain ⟨frame, hframe, rfl⟩ := h.onStack s hs
  rcases List.mem_cons.1 hframe with rfl | hmem
  · exact ⟨_, List.mem_cons_self, rfl⟩
  · exact ⟨frame, List.mem_cons_of_mem _ hmem, rfl⟩

theorem settled (h : Marked next marks stack) (hq : q < marks.size) (hunvisited : marks[q]? ≠ some .unvisited)
    (honStack : marks[q]? ≠ some .onStack) : Settled next q := by
  obtain ⟨mark, hmark⟩ : ∃ mark, marks[q]? = some mark := ⟨_, Array.getElem?_eq_getElem hq⟩
  cases mark with
  | unvisited => exact absurd hmark hunvisited
  | onStack => exact absurd hmark honStack
  | done => exact h.done q hmark

/-- Between two starts every state that has been visited is settled. -/
theorem settled_of_visited (h : Marked next marks []) (hq : q < marks.size) (hunvisited : marks[q]? ≠ some .unvisited) :
    Settled next q := by
  refine h.settled hq hunvisited fun honStack => ?_
  obtain ⟨_, hframe, _⟩ := h.onStack q honStack
  cases hframe

end Marked

structure Later (marks later : Array Mark) : Prop where
  size_eq : later.size = marks.size
  unvisited : ∀ q : State, later[q]? = some .unvisited → marks[q]? = some .unvisited

theorem Later.of_set {marks later : Array Mark} {q : State} {mark : Mark} (hmark : mark ≠ .unvisited)
    (h : Later (marks.setIfInBounds q mark) later) : Later marks later := by
  refine ⟨h.size_eq.trans Array.size_setIfInBounds, fun r hr => ?_⟩
  have hset := h.unvisited r hr
  by_cases hqr : q = r
  · rw [hqr, Array.getElem?_setIfInBounds_self] at hset
    split at hset
    · exact absurd (Option.some.inj hset) hmark
    · cases hset
  · rwa [Array.getElem?_setIfInBounds_ne hqr] at hset

namespace Automaton

variable {next : State → List State} {marks : Array Mark}

/-- A search without result has found a cycle; one with a result has settled all that it visited. -/
theorem descend?_spec {stack : List Frame} (hnext : ∀ p, ∀ r ∈ next p, r < marks.size) (hlinked : Linked next none stack)
    (hmarked : Marked next marks stack) :
    (descend? next marks stack = none → ∃ q, Relation.TransGen (fun p r => r ∈ next p) q q) ∧
      ∀ later, descend? next marks stack = some later → Marked next later [] ∧ Later marks later := by
  fun_induction descend? next marks stack with
  | case1 marks => exact ⟨nofun, fun later h => Option.some.inj h ▸ ⟨hmarked, rfl, fun _ h => h⟩⟩
  | case2 marks q stack ih =>
    have hq := hlinked.settled
    obtain ⟨hnone, hsome⟩ := ih (by simpa using hnext) (hlinked.rest.drop hq) (hmarked.pop hq)
    refine ⟨hnone, fun later h => ?_⟩
    obtain ⟨hlater, hvisited⟩ := hsome later h
    exact ⟨hlater, .of_set (by decide) hvisited⟩
  | case3 marks q r pending stack hr =>
    refine ⟨fun _ => ?_, nofun⟩
    obtain ⟨frame, hframe, rfl⟩ := hmarked.look.onStack r hr
    exact ⟨_, hlinked.look.transGen hframe⟩
  | case4 marks q r pending stack _ ih =>
    obtain ⟨hnone, hsome⟩ := ih (by simpa using hnext) hlinked.look.push (hmarked.look.push _)
    refine ⟨hnone, fun later h => ?_⟩
    obtain ⟨hlater, hvisited⟩ := hsome later h
    exact ⟨hlater, .of_set (by decide) hvisited⟩
  | case5 marks q r pending stack honStack hunvisited ih =>
    have hr := hmarked.settled (hnext q r hlinked.look.climbs) hunvisited honStack
    exact ih hnext (hlinked.look.drop hr) hmarked.look

/-- Starting at every root either finds a cycle or settles all roots. -/
theorem descendAll?_spec (roots : List State) (hnext : ∀ p, ∀ r ∈ next p, r < marks.size)
    (hroots : ∀ root ∈ roots, root < marks.size) (hmarked : Marked next marks []) :
    (descendAll? next marks roots = none → ∃ q, Relation.TransGen (fun p r => r ∈ next p) q q) ∧
      (∀ later, descendAll? next marks roots = some later → ∀ root ∈ roots, Settled next root) := by
  fun_induction descendAll? next marks roots with
  | case1 marks => exact ⟨nofun, fun _ _ => List.forall_mem_nil _⟩
  | case2 marks root roots hroot ih =>
    obtain ⟨hlt, hroots⟩ := List.forall_mem_cons.1 hroots
    obtain ⟨hnone, hsome⟩ := descend?_spec (by simpa using hnext) (Linked.nil.push (q := root)) (hmarked.push _)
    cases hdescend : descend? next (marks.setIfInBounds root .onStack) [⟨root, next root⟩] with
    | none => exact ⟨fun _ => hnone hdescend, nofun⟩
    | some later =>
      obtain ⟨hlater, hvisited⟩ := hsome later hdescend
      have hsize : later.size = marks.size := (Later.of_set (by decide) hvisited).size_eq
      have hroot : Settled next root := by
        refine hlater.settled_of_visited (hsize ▸ hlt) fun hunvisited => ?_
        have hset := hvisited.unvisited root hunvisited
        rw [Array.getElem?_setIfInBounds_self_of_lt hlt] at hset
        cases hset
      obtain ⟨hnone, hsome⟩ := ih later (hsize ▸ hnext) (hsize ▸ hroots) hlater
      exact ⟨hnone, fun last h => List.forall_mem_cons.2 ⟨hroot, hsome last h⟩⟩
  | case3 marks root roots hroot ih =>
    obtain ⟨hlt, hroots⟩ := List.forall_mem_cons.1 hroots
    obtain ⟨hnone, hsome⟩ := ih hnext hroots hmarked
    exact ⟨hnone, fun last h => List.forall_mem_cons.2 ⟨hmarked.settled_of_visited hlt hroot, hsome last h⟩⟩

variable {A : Automaton} {S : StateSet}

def EdgeWithin (A : Automaton) (S : StateSet) (p q : State) : Prop :=
  S.contains p ∧ S.contains q ∧ ∃ l, A.Edge p l q

theorem mem_succeeding {p q : State} :
    q ∈ succeeding A.successors S p ↔ S.contains q ∧ ∃ l, A.Edge p l q := by
  rw [succeeding, List.mem_filter, StateSet.mem_toList, contains_successors, and_comm]

theorem edgeWithin_iff {p q : State} : A.EdgeWithin S p q ↔ S.contains p ∧ q ∈ succeeding A.successors S p := by
  rw [EdgeWithin, mem_succeeding]

private theorem cycle_within {q : State} (h : Relation.TransGen (fun p r => r ∈ succeeding A.successors S p) q q) :
    Relation.TransGen (A.EdgeWithin S) q q := by
  -- A cycle of successors stays within the set, where each of its states has been found.
  have hq : S.contains q := by
    obtain ⟨_, _, hlast⟩ := Relation.TransGen.tail'_iff.1 h
    exact (mem_succeeding.1 hlast).1
  suffices hwithin : ∀ r, Relation.TransGen (fun p r => r ∈ succeeding A.successors S p) q r →
      Relation.TransGen (A.EdgeWithin S) q r ∧ S.contains r from (hwithin q h).1
  intro r hr
  induction hr with
  | single hlast => exact ⟨.single (edgeWithin_iff.2 ⟨hq, hlast⟩), (mem_succeeding.1 hlast).1⟩
  | tail _ hlast ih => exact ⟨ih.1.tail (edgeWithin_iff.2 ⟨ih.2, hlast⟩), (mem_succeeding.1 hlast).1⟩

private theorem hasCycle_spec (hS : ∀ q, S.contains q → q < A.numStates) :
    (A.hasCycle S → ∃ q, Relation.TransGen (A.EdgeWithin S) q q) ∧
      (A.hasCycle S = false → ∀ q, S.contains q → Settled (succeeding A.successors S) q) := by
  have hsize : (Array.replicate A.numStates Mark.unvisited).size = A.numStates := Array.size_replicate
  have hunvisited : ∀ (q : State) mark, (Array.replicate A.numStates Mark.unvisited)[q]? = some mark →
      mark = .unvisited := by
    intro q mark h
    rw [Array.getElem?_replicate] at h
    split at h
    · exact (Option.some.inj h).symm
    · cases h
  have hmarked : Marked (succeeding A.successors S) (.replicate A.numStates .unvisited) [] :=
    ⟨fun q hq => absurd (hunvisited q _ hq) (by decide), fun q hq => absurd (hunvisited q _ hq) (by decide)⟩
  obtain ⟨hnone, hsome⟩ := descendAll?_spec S.toList
    (fun p r hr => hsize.symm ▸ hS r (mem_succeeding.1 hr).1)
    (fun q hq => hsize.symm ▸ hS q (StateSet.mem_toList.1 hq)) hmarked
  refine ⟨fun h => ?_, fun h q hq => ?_⟩
  · obtain ⟨q, hq⟩ := hnone (Option.isNone_iff_eq_none.1 h)
    exact ⟨q, cycle_within hq⟩
  · obtain ⟨later, hlater⟩ := Option.isSome_iff_exists.1 (Option.isNone_eq_false_iff.1 h)
    exact hsome later hlater q (StateSet.mem_toList.2 hq)

/-- The check finds a cycle exactly when edges within the set lead from some state back to it. -/
theorem hasCycle_iff (hS : ∀ q, S.contains q → q < A.numStates) :
    A.hasCycle S ↔ ∃ q, Relation.TransGen (A.EdgeWithin S) q q := by
  refine ⟨(hasCycle_spec hS).1, fun ⟨q, hq⟩ => ?_⟩
  by_contra h
  obtain ⟨_, ⟨hmem, _⟩, _⟩ := Relation.TransGen.head'_iff.1 hq
  refine ((hasCycle_spec hS).2 (Bool.eq_false_iff.2 h) q hmem).not_cycle ?_
  exact hq.lift id fun p r hedge => (edgeWithin_iff.1 hedge).2

/-- Without a cycle, what holds of a state whenever it holds of all states that it leads to holds of all states. -/
theorem induction_of_not_hasCycle (hS : ∀ q, S.contains q → q < A.numStates) (h : A.hasCycle S = false)
    {P : State → Prop} (hstep : ∀ p, (∀ q, A.EdgeWithin S p q → P q) → P p) (p : State) : P p := by
  have hsettled : ∀ p, Settled (succeeding A.successors S) p → P p := by
    intro p hp
    induction hp with
    | intro p _ ih => exact hstep p fun q hedge => ih q (edgeWithin_iff.1 hedge).2
  by_cases hp : S.contains p
  · exact hsettled p ((hasCycle_spec hS).2 h p hp)
  · exact hstep p fun q hedge => absurd hedge.1 hp

end Automaton

end RegularLanguages
