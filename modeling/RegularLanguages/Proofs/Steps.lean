import RegularLanguages.Automaton.Stepwise
import RegularLanguages.Proofs.Embedding
import RegularLanguages.Proofs.Product
import RegularLanguages.Proofs.Registration

/-!
Registrations one after another that do not fail, since they register states that are there already. A loop of them
changes one part of the automaton, and it does so like the fold over that part.
-/
namespace RegularLanguages

/-- A loop that changes one part of a value in every turn, and does not fail, is a fold over that part. -/
theorem foldlM_put {α β σ ε : Type} {f : σ → α → Except ε σ} {g : β → α → β} {l : List α} (put : β → σ)
    (h : ∀ b, ∀ a ∈ l, f (put b) a = .ok (put (g b a))) (b : β) : l.foldlM f (put b) = .ok (put (l.foldl g b)) := by
  induction l generalizing b with
  | nil => rfl
  | cons a l ih =>
    rw [List.foldlM_cons, h b a List.mem_cons_self]
    exact ih (fun b a ha => h b a (List.mem_cons_of_mem _ ha)) (g b a)

namespace Automaton

variable {A B R : Automaton}

theorem map_pairs {α β γ δ : Type} (g : γ → δ) (f : α → β → γ) (as : List α) (bs : List β) :
    (pairs f as bs).map g = pairs (fun a b => g (f a b)) as bs := by
  simp [pairs, List.map_flatMap, Function.comp_def]

theorem pairs_map {α β γ δ ε : Type} (f : γ → δ → ε) (g : α → γ) (h : β → δ) (as : List α) (bs : List β) :
    pairs f (as.map g) (bs.map h) = pairs (fun a b => f (g a) (h b)) as bs := by
  simp [pairs, List.flatMap_map, Function.comp_def]

theorem outcome_addState (h : A.numStates < maxStates) :
    A.addState.outcome = .ok { A with numStates := A.numStates + 1 } := by
  rw [addState, if_pos h]
  rfl

theorem outcome_addState_of_le (h : maxStates ≤ A.numStates) : A.addState.outcome = .error .counterOverflow := by
  rw [addState, if_neg (Nat.not_lt.2 h)]
  rfl

section
variable {α : Type} {accept : α → Nat → Bool}

/-- The computed numbers, all of which are accepted numbers of states. -/
structure Computes (accept : α → Nat → Bool) (n : Nat) (computed : List (Computed α)) (numbers : List State) :
    Prop where
  accepted : ∀ c ∈ computed, accept c.origin c.number
  lt : ∀ c ∈ computed, c.number < n
  numbers_eq : computed.map (·.number) = numbers

namespace Computes

variable {n : Nat} {cs ds : List (Computed α)} {c : Computed α} {ks ls : List State}

theorem check_eq (h : Computes accept n cs ks) (hc : c ∈ cs) : c.check accept = .ok c.number := if_pos (h.accepted c hc)

theorem nil : Computes accept n [] [] := ⟨nofun, nofun, rfl⟩

theorem singleton (haccept : accept c.origin c.number) (hlt : c.number < n) : Computes accept n [c] [c.number] :=
  ⟨List.forall_mem_singleton.2 haccept, List.forall_mem_singleton.2 hlt, rfl⟩

theorem append (h : Computes accept n cs ks) (g : Computes accept n ds ls) : Computes accept n (cs ++ ds) (ks ++ ls) :=
  ⟨List.forall_mem_append.2 ⟨h.accepted, g.accepted⟩, List.forall_mem_append.2 ⟨h.lt, g.lt⟩,
    by rw [List.map_append, h.numbers_eq, g.numbers_eq]⟩

theorem addStarts_eq (h : Computes accept n cs ks) (hn : n ≤ A.numStates) :
    A.addStarts accept cs = .ok { A with starts := A.starts ∪ .ofList ks } := by
  rw [← h.numbers_eq, ← StateSet.foldl_insert, List.foldl_map]
  refine foldlM_put (fun S => { A with starts := S }) (fun S c hc => ?_) A.starts
  rw [h.check_eq hc]
  have hlt : c.number < ({ A with starts := S } : Automaton).numStates := Nat.lt_of_lt_of_le (h.lt c hc) hn
  exact congrArg Registration.outcome (addStart_of_lt hlt)

theorem addFinals_eq (h : Computes accept n cs ks) (hn : n ≤ A.numStates) :
    A.addFinals accept cs = .ok { A with finals := A.finals ∪ .ofList ks } := by
  rw [← h.numbers_eq, ← StateSet.foldl_insert, List.foldl_map]
  refine foldlM_put (fun S => { A with finals := S }) (fun S c hc => ?_) A.finals
  rw [h.check_eq hc]
  have hlt : c.number < ({ A with finals := S } : Automaton).numStates := Nat.lt_of_lt_of_le (h.lt c hc) hn
  exact congrArg Registration.outcome (addFinal_of_lt hlt)

theorem addLinks_eq (h : Computes accept n cs ks) (g : Computes accept n ds ls) (hn : n ≤ A.numStates) :
    A.addLinks accept cs ds = .ok (A.linkAll ks ls) := by
  have hedges : A.linkAll ks ls = { A with transitions := A.transitions.addAll ((pairs Prod.mk cs ds).map fun e =>
        ⟨e.1.number, .epsilon, e.2.number⟩) } := by
    rw [map_pairs, ← pairs_map fun p q => (⟨p, .epsilon, q⟩ : Transition), h.numbers_eq, g.numbers_eq]
    rfl
  rw [hedges, Transitions.addAll, List.foldl_map]
  refine foldlM_put (fun T => { A with transitions := T }) (fun T e he => ?_) A.transitions
  obtain ⟨c, hc, d, hd, rfl⟩ := mem_pairs.1 he
  rw [h.check_eq hc, g.check_eq hd]
  have hsource : c.number < ({ A with transitions := T } : Automaton).numStates := Nat.lt_of_lt_of_le (h.lt c hc) hn
  have htarget : d.number < ({ A with transitions := T } : Automaton).numStates := Nat.lt_of_lt_of_le (g.lt d hd) hn
  exact congrArg Registration.outcome (addTransition_of_lt hsource htarget .epsilon)

end Computes

section
variable {copy : State → Computed α}

private theorem copyNames_eq {offset : Nat} (names : List (State × String))
    (hcopy : ∀ e ∈ names, (copy e.1).check accept = .ok (offset + e.1)) :
    copyNames accept copy R names =
      .ok { R with names := R.names.setAll (names.map fun e => (offset + e.1, e.2)) } := by
  rw [StateNames.setAll, List.foldl_map]
  refine foldlM_put (fun N => { R with names := N }) (fun N e he => ?_) R.names
  rw [hcopy e he]
  rfl

private theorem copyTransitions_eq {offset : Nat} {relabel : Label SymbolId → Label SymbolId} {transitions : List Transition}
    (hcopy : ∀ t ∈ transitions, (copy t.source).check accept = .ok (offset + t.source) ∧
      (copy t.target).check accept = .ok (offset + t.target)) :
    copyTransitions accept copy relabel R transitions =
      .ok { R with transitions := R.transitions.addAll (transitions.map fun t =>
        ⟨offset + t.source, relabel t.label, offset + t.target⟩) } := by
  rw [Transitions.addAll, List.foldl_map]
  refine foldlM_put (fun T => { R with transitions := T }) (fun T t ht => ?_) R.transitions
  rw [(hcopy t ht).1, (hcopy t ht).2]
  rfl

/-- If there is room for the states, each is copied with its number moved. -/
theorem WellFormed.embedSteps_eq (hA : A.WellFormed)
    (hcopy : ∀ q < A.numStates, (copy q).check accept = .ok (R.numStates + q)) :
    embedSteps accept copy R A = withinBounds (R.numStates + A.numStates) fun _ => R.embed A := by
  rw [embedSteps, grow, withinBounds]
  by_cases hroom : R.numStates + A.numStates ≤ maxStates
  · have hnames := copyNames_eq (R := { R with numStates := R.numStates + A.numStates })
      (A.names.below A.numStates) fun e he => hcopy e.1 (StateNames.mem_below.1 he).1
    rw [if_pos hroom, if_pos hroom]
    simp only [bind, Except.bind]
    rw [hnames]
    refine copyTransitions_eq fun t ht => ?_
    obtain ⟨hsource, _, htarget⟩ := hA.transitions _ _ _ (Transitions.mem_toList.1 ht)
    exact ⟨hcopy _ hsource, hcopy _ htarget⟩
  · rw [if_neg hroom, if_neg hroom]
    rfl

end

end

end Automaton

end RegularLanguages
