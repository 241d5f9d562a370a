import RegularLanguages.Proofs.Copies

/-!
The numbers that products compute, and how all combinations number their states: each either fails for want of numbers,
or computes only numbers of its states, and distinct ones for what is distinct.
-/
namespace RegularLanguages

/-- Two folds at once. -/
theorem foldl_mk {α β γ : Type} (f : β → α → β) (g : γ → α → γ) (l : List α) (b : β) (c : γ) :
    l.foldl (fun (s : β × γ) a => (f s.1 a, g s.2 a)) (b, c) = (l.foldl f b, l.foldl g c) := by
  induction l generalizing b c with
  | nil => rfl
  | cons a l ih => exact ih (f b a) (g c a)

namespace Automaton

variable {A B R : Automaton}

/-- Pairs are listed in the order of their numbers. -/
theorem zipIdx_pairs_range {γ : Type} (f : State → State → γ) (n m : Nat) :
    (pairs f (List.range n) (List.range m)).zipIdx =
      pairs (fun p q => (f p q, p * m + q)) (List.range n) (List.range m) := by
  have hrow : ∀ p, ((List.range m).map (f p)).zipIdx (p * m) = (List.range m).map fun q => (f p q, p * m + q) := by
    intro p
    refine List.ext_getElem (by simp) fun q hq _ => ?_
    simp
  have hsucc : ∀ {δ : Type} (g : State → State → δ) (n : Nat), pairs g (List.range (n + 1)) (List.range m) =
      pairs g (List.range n) (List.range m) ++ (List.range m).map (g n) := by
    intro δ g n
    simp [pairs, List.range_succ]
  induction n with
  | zero => rfl
  | succ n ih =>
    rw [hsucc, hsucc, List.zipIdx_append, ih, length_pairs, List.length_range, List.length_range, Nat.zero_add, hrow]

def pairNext? (A B : Automaton) (pair : State × State) (name : String) : Option State :=
  (A.next? pair.1 (A.alphabet.idOf name)).bind fun p =>
    (B.next? pair.2 (B.alphabet.idOf name)).map fun q => p * B.numStates + q

def pairSteps (A B : Automaton) (alphabet : Alphabet) (pair : State × State) (number : State) (names : List String) :
    List Transition :=
  names.filterMap fun name => (A.pairNext? B pair name).map fun target =>
    ⟨number, .symbol (alphabet.idOf name), target⟩

section
variable {accept : State × State → Nat → Bool}

def AcceptsPairs (accept : State × State → Nat → Bool) (n m : Nat) : Prop :=
  ∀ p < n, ∀ q < m, accept (p, q) (p * m + q)

theorem AcceptsPairs.computes {n m : Nat} (h : AcceptsPairs accept n m) {p q : State} (hp : p < n) (hq : q < m) :
    Computes accept (n * m) [pairOf m p q] [p * m + q] := .singleton (h p hp q hq) (pair_lt hp hq)

private theorem internLabel_of_mem {name : String} (h : name ∈ A.alphabet.names) :
    A.internLabel (.symbol name) = (A, .symbol (A.alphabet.idOf name)) := by
  have hintern : A.alphabet.intern name = A.alphabet := dif_pos h
  simp only [internLabel, addSymbol, hintern]

private theorem linkPair_eq (hA : A.WellFormed) (hB : B.WellFormed) (h : AcceptsPairs accept A.numStates B.numStates)
    (hcount : R.numStates = A.numStates * B.numStates) {pair : State × State} {number : State}
    (hnumber : number < R.numStates) {names : List String} (hnames : ∀ name ∈ names, name ∈ R.alphabet.names) :
    linkPair accept A B R pair number names =
      .ok { R with transitions := R.transitions.addAll (pairSteps A B R.alphabet pair number names) } := by
  rw [pairSteps, Transitions.addAll, List.foldl_filterMap]
  refine foldlM_put (fun T => { R with transitions := T }) (fun T name hname => ?_) R.transitions
  rw [pairNext?]
  cases hp : A.next? pair.1 (A.alphabet.idOf name) with
  | none => rfl
  | some p =>
    cases hq : B.next? pair.2 (B.alphabet.idOf name) with
    | none => rfl
    | some q =>
      have hcomputes := h.computes (hA.next_lt hp) (hB.next_lt hq)
      have hlt : p * B.numStates + q < R.numStates := hcount ▸ pair_lt (hA.next_lt hp) (hB.next_lt hq)
      have hadd := addTransition_of_lt (A := { R with transitions := T }) hnumber hlt (.symbol name)
      rw [internLabel_of_mem (by exact hnames name hname)] at hadd
      simp only [hcomputes.check_eq List.mem_cons_self, bind, Except.bind]
      exact congrArg Registration.outcome hadd

def pairName (A B : Automaton) (pair : State × State) : String :=
  "(" ++ A.stateName pair.1 ++ "; " ++ B.stateName pair.2 ++ ")"

def pairFinals (A B : Automaton) (pair : State × State) : List State :=
  if A.finals.contains pair.1 && B.finals.contains pair.2 then [pair.1 * B.numStates + pair.2] else []

private theorem visitPair_eq (hA : A.WellFormed) (hB : B.WellFormed) (h : AcceptsPairs accept A.numStates B.numStates)
    (hcount : R.numStates = A.numStates * B.numStates) (halphabet : R.alphabet = .ofNames (A.commonNames B))
    {p q : State} (hp : p < A.numStates) (hq : q < B.numStates) :
    visitPair accept A B R (p, q) = .ok { R with
      names := R.names.set (p * B.numStates + q) (pairName A B (p, q))
      finals := R.finals ∪ .ofList (pairFinals A B (p, q))
      transitions := R.transitions.addAll
        (pairSteps A B (.ofNames (A.commonNames B)) (p, q) (p * B.numStates + q) (A.commonNames B)) } := by
  have hcomputes := h.computes hp hq
  have hfinals : Computes accept (A.numStates * B.numStates)
      (if A.finals.contains p && B.finals.contains q then [pairOf B.numStates p q] else [])
      (pairFinals A B (p, q)) := by
    unfold pairFinals
    split
    · exact hcomputes
    · exact .nil
  rw [visitPair]
  simp only [hcomputes.check_eq List.mem_cons_self, bind, Except.bind]
  rw [hfinals.addFinals_eq (by exact hcount.ge)]
  simp only
  have hnames : R.alphabet.names = A.commonNames B := by
    rw [halphabet]
    exact names_pairing A B
  rw [linkPair_eq hA hB h (by exact hcount) (by exact hcount ▸ pair_lt hp hq) (by exact fun _ hname => hnames ▸ hname)]
  simp only [halphabet]
  rfl

private theorem pairSteps_eq (A B : Automaton) (p q : State) :
    pairSteps A B (.ofNames (A.commonNames B)) (p, q) (p * B.numStates + q) (A.commonNames B) =
      (pairRow B.numStates (A.rowOn (A.commonNames B) p) (B.rowOn (A.commonNames B) q)).zipIdx.filterMap fun t =>
        t.1.map fun target => ⟨p * B.numStates + q, .symbol t.2, target⟩ := by
  have hrow : pairRow B.numStates (A.rowOn (A.commonNames B) p) (B.rowOn (A.commonNames B) q) =
      (A.commonNames B).map (A.pairNext? B (p, q)) := by
    simp only [pairRow, rowOn, List.map_map, List.zipWith_map, List.zipWith_self]
    rfl
  have hid : ∀ e ∈ (A.commonNames B).zipIdx, (Alphabet.ofNames (A.commonNames B)).idOf e.1 = e.2 := by
    intro e he
    refine Alphabet.idOf_of_id? (Alphabet.id?_eq_some_iff.2 ?_)
    change (A.pairing B).alphabet.names[e.2]? = some e.1
    rw [names_pairing]
    exact List.mem_zipIdx_iff_getElem?.1 he
  generalize Alphabet.ofNames (A.commonNames B) = alphabet at hid ⊢
  rw [hrow, List.zipIdx_map, List.filterMap_map, pairSteps]
  conv_lhs => rw [← List.zipIdx_map_fst 0 (A.commonNames B), List.filterMap_map]
  refine List.filterMap_congr fun e he => ?_
  simp only [Function.comp_apply, hid e he]
  rfl

-- The names, the final states and the transitions of all pairs together are those of the pairing.

private theorem foldl_names (A B : Automaton) :
    (pairs Prod.mk (List.range A.numStates) (List.range B.numStates)).foldl
      (fun N e => N.set (e.1 * B.numStates + e.2) (pairName A B e)) ∅ = (A.pairing B).names := by
  have hnames : pairs (fun p q => "(" ++ p ++ "; " ++ q ++ ")") A.stateNames B.stateNames =
      pairs (fun p q => pairName A B (p, q)) (List.range A.numStates) (List.range B.numStates) := pairs_map ..
  change _ = StateNames.ofList (pairs (fun p q => "(" ++ p ++ "; " ++ q ++ ")") A.stateNames B.stateNames)
  rw [hnames, StateNames.ofList, StateNames.setAll, zipIdx_pairs_range, map_pairs, ← map_pairs (fun e : State × State =>
    (e.1 * B.numStates + e.2, pairName A B e)) Prod.mk, List.foldl_map]

private theorem foldl_finals (A B : Automaton) :
    (pairs Prod.mk (List.range A.numStates) (List.range B.numStates)).foldl
      (fun S e => S ∪ .ofList (pairFinals A B e)) ∅ = (A.pairing B).finals := by
  have hmem : ∀ {p q k : State}, k ∈ pairFinals A B (p, q) ↔
      (A.finals.contains p && B.finals.contains q) = true ∧ p * B.numStates + q = k := by
    intro p q k
    unfold pairFinals
    split
    · rename_i hfinal
      rw [List.mem_singleton, eq_comm]
      exact (and_iff_right hfinal).symm
    · rename_i hfinal
      exact iff_of_false List.not_mem_nil fun hk => hfinal hk.1
  simp only [← StateSet.foldl_insert]
  rw [← List.foldl_flatMap]
  refine StateSet.eq_of_contains_iff fun k => ?_
  change (StateSet.ofList _).contains k = true ↔ _
  rw [StateSet.contains_ofList, decide_eq_true_eq, List.mem_flatMap]
  constructor
  · rintro ⟨e, he, hk⟩
    obtain ⟨p, hp, q, hq, rfl⟩ := mem_pairs.1 he
    obtain ⟨hfinal, rfl⟩ := hmem.1 hk
    rw [contains_finals_pairing (List.mem_range.1 hp) (List.mem_range.1 hq)]
    exact hfinal
  · intro hk
    obtain ⟨p, hp, q, hq, rfl⟩ := exists_pair (StateSet.lt_of_contains_below hk)
    rw [contains_finals_pairing hp hq] at hk
    exact ⟨(p, q), mem_pairs.2 ⟨p, List.mem_range.2 hp, q, List.mem_range.2 hq, rfl⟩, hmem.2 ⟨hk, rfl⟩⟩

private theorem foldl_transitions (A B : Automaton) :
    (pairs Prod.mk (List.range A.numStates) (List.range B.numStates)).foldl
      (fun T e => T.addAll (pairSteps A B (.ofNames (A.commonNames B)) e (e.1 * B.numStates + e.2) (A.commonNames B)))
      ∅ = (A.pairing B).transitions := by
  have hrows : pairs (pairRow B.numStates) (A.rowsOn (A.commonNames B)) (B.rowsOn (A.commonNames B)) =
      pairs (fun p q => pairRow B.numStates (A.rowOn (A.commonNames B) p) (B.rowOn (A.commonNames B) q))
        (List.range A.numStates) (List.range B.numStates) := pairs_map ..
  have hsteps : ∀ e : State × State, pairSteps A B _ e _ _ = _ := fun e => pairSteps_eq A B e.1 e.2
  change _ = Transitions.ofRows (pairs (pairRow B.numStates) (A.rowsOn (A.commonNames B)) (B.rowsOn (A.commonNames B)))
  rw [hrows, Transitions.ofRows, zipIdx_pairs_range, Transitions.ofList, Transitions.addAll, List.foldl_flatMap,
    ← map_pairs (fun e : State × State => (pairRow B.numStates (A.rowOn (A.commonNames B) e.1)
      (B.rowOn (A.commonNames B) e.2), e.1 * B.numStates + e.2)) Prod.mk, List.foldl_map]
  simp only [hsteps]
  rfl

private theorem WellFormed.visitPairs_eq (hA : A.WellFormed) (hB : B.WellFormed)
    (h : AcceptsPairs accept A.numStates B.numStates) :
    (pairs Prod.mk (List.range A.numStates) (List.range B.numStates)).foldlM (visitPair accept A B)
      { withAlphabet (.ofNames (A.commonNames B)) with numStates := A.numStates * B.numStates } =
      .ok { A.pairing B with starts := ∅ } := by
  let put : StateNames × StateSet × Transitions → Automaton := fun t =>
    { A.pairing B with starts := ∅, names := t.1, finals := t.2.1, transitions := t.2.2 }
  have hloop := foldlM_put put (l := pairs Prod.mk (List.range A.numStates) (List.range B.numStates))
    (f := visitPair accept A B) (g := fun t e => (t.1.set (e.1 * B.numStates + e.2) (pairName A B e),
      t.2.1 ∪ .ofList (pairFinals A B e), t.2.2.addAll (pairSteps A B (.ofNames (A.commonNames B)) e
        (e.1 * B.numStates + e.2) (A.commonNames B)))) (fun t e he => by
      obtain ⟨p, hp, q, hq, rfl⟩ := mem_pairs.1 he
      exact visitPair_eq (R := put t) hA hB h rfl rfl (List.mem_range.1 hp) (List.mem_range.1 hq)) (∅, ∅, ∅)
  have hparts : put ((A.pairing B).names, (A.pairing B).finals, (A.pairing B).transitions) =
      { A.pairing B with starts := ∅ } := rfl
  rw [← hparts, ← foldl_names, ← foldl_finals, ← foldl_transitions, ← foldl_mk, ← foldl_mk]
  exact hloop

/-- A product computes only numbers of pairs. -/
theorem WellFormed.productSteps_eq (hA : A.WellFormed) (hB : B.WellFormed)
    (h : AcceptsPairs accept A.numStates B.numStates) : productSteps accept A B = A.product B := by
  rcases product_cases A B with ⟨hmany, hproduct⟩ | ⟨hfit, hproduct⟩
  · rw [productSteps, hproduct, if_pos hmany]
    rfl
  rw [productSteps, hproduct, if_neg (Nat.not_lt.2 hfit)]
  have hstarts : Computes accept (A.numStates * B.numStates)
      (pairs (pairOf B.numStates) A.starts.toList B.starts.toList)
      (pairs (fun p q => p * B.numStates + q) A.starts.toList B.starts.toList) := by
    refine ⟨fun c hc => ?_, fun c hc => ?_, map_pairs ..⟩
    · obtain ⟨p, hp, q, hq, rfl⟩ := mem_pairs.1 hc
      exact h p (hA.starts_lt p (StateSet.mem_toList.1 hp)) q (hB.starts_lt q (StateSet.mem_toList.1 hq))
    · obtain ⟨p, hp, q, hq, rfl⟩ := mem_pairs.1 hc
      exact pair_lt (hA.starts_lt p (StateSet.mem_toList.1 hp)) (hB.starts_lt q (StateSet.mem_toList.1 hq))
  simp only [bind, Except.bind, hA.visitPairs_eq hB h]
  rw [hstarts.addStarts_eq (by exact Nat.le_refl _)]
  simp only [StateSet.empty_union]
  rfl

end

private theorem bijOn_pair (n m : Nat) : Set.BijOn (fun e : State × State => e.1 * m + e.2) {e | e.1 < n ∧ e.2 < m}
    (Set.Iio (n * m)) := by
  refine ⟨fun e he => pair_lt he.1 he.2, fun e he e' he' h => ?_, fun k hk => ?_⟩
  · have hfirst : e.1 = e'.1 := (pair_div he.2).symm.trans ((congrArg (· / m) h).trans (pair_div he'.2))
    have hsecond : e.2 = e'.2 := (pair_mod he.2).symm.trans ((congrArg (· % m) h).trans (pair_mod he'.2))
    exact Prod.ext hfirst hsecond
  · obtain ⟨p, hp, q, hq, hpair⟩ := exists_pair hk
    exact ⟨(p, q), ⟨hp, hq⟩, hpair⟩

/-- How an operation numbers the `count` states of its result: it fails exactly when they cannot be numbered. In its
steps it computes no number but those of the origins of states, which are the numbers below `count`, each of one origin. -/
structure NumbersStates {α : Type} (steps : (α → Nat → Bool) → Except Failure Automaton)
    (result : Except Failure Automaton) (failure : Failure) (count : Nat) (origins : Set α) (number : α → Nat) :
    Prop where
  fails_iff : result = .error failure ↔ maxStates < count
  exists_result : count ≤ maxStates → ∃ C, result = .ok C ∧ C.numStates = count
  -- A check that accepts these numbers only lets all the steps through, so no other number is ever shown to it.
  steps_eq : ∀ accept : α → Nat → Bool, (∀ o ∈ origins, accept o (number o)) → steps accept = result
  bijOn : Set.BijOn number origins (Set.Iio count)

theorem numbersStates_withinBounds {count : Nat} {f : Unit → Automaton} (hf : (f ()).numStates = count)
    {steps : (Origin → Nat → Bool) → Except Failure Automaton} {n m fresh : Nat} (hcount : n + m + fresh = count)
    (hsteps : ∀ accept, Accepts accept n m fresh → steps accept = withinBounds count f) :
    NumbersStates steps (withinBounds count f) .counterOverflow count {o | o.Among n m fresh} (Origin.number n m) where
  fails_iff := by
    rcases Nat.lt_or_ge maxStates count with hmany | hfit
    · rw [withinBounds_of_lt hmany]
      exact iff_of_true rfl hmany
    · rw [withinBounds_of_le hfit]
      exact iff_of_false (by simp) (Nat.not_lt.2 hfit)
  exists_result hfit := ⟨f (), withinBounds_of_le hfit, hf⟩
  steps_eq accept haccept := hsteps accept haccept
  bijOn := hcount ▸ Origin.bijOn_number n m fresh

private theorem WellFormed.product_numbersStates (hA : A.WellFormed) (hB : B.WellFormed) :
    NumbersStates (fun accept => productSteps accept A B) (A.product B) .tooManyStates (A.numStates * B.numStates)
      {e | e.1 < A.numStates ∧ e.2 < B.numStates} (fun e => e.1 * B.numStates + e.2) where
  fails_iff := by
    rcases product_cases A B with ⟨hmany, hproduct⟩ | ⟨hfit, hproduct⟩
    · exact iff_of_true hproduct hmany
    · rw [hproduct]
      exact iff_of_false nofun (Nat.not_lt.2 hfit)
  exists_result hfit := ⟨A.pairing B, if_pos hfit, rfl⟩
  steps_eq accept haccept := hA.productSteps_eq hB fun p hp q hq => haccept (p, q) ⟨hp, hq⟩
  bijOn := bijOn_pair A.numStates B.numStates

private theorem intersect_of_total (hA : A.isTotal) (hB : B.isTotal) : A.intersect B = A.product B := by
  simp [intersect, requireTotal, hA, hB, (isTotal_iff.1 hA).1, (isTotal_iff.1 hB).1, bind, Except.bind]

/-- A combination fails exactly when there are not enough numbers for its states. Otherwise every number that is computed
on the way is below the number of states, and distinct ones stand for distinct states, pairs and new states. -/
theorem numbersStates (hA : A.WellFormed) (hB : B.WellFormed) :
    NumbersStates (fun accept => unionSteps accept A B) (A.union B) .counterOverflow (A.numStates + B.numStates + 1)
        {o | o.Among A.numStates B.numStates 1} (Origin.number A.numStates B.numStates) ∧
      NumbersStates (fun accept => concatenateSteps accept A B) (A.concatenate B) .counterOverflow
        (A.numStates + B.numStates) {o | o.Among A.numStates B.numStates 0}
        (Origin.number A.numStates B.numStates) ∧
      NumbersStates (fun accept => kleeneStarSteps accept A) A.kleeneStar .counterOverflow (A.numStates + 2)
        {o | o.Among A.numStates 0 2} (Origin.number A.numStates 0) ∧
      NumbersStates (fun accept => productSteps accept A B) (A.product B) .tooManyStates (A.numStates * B.numStates)
        {e | e.1 < A.numStates ∧ e.2 < B.numStates} (fun e => e.1 * B.numStates + e.2) ∧
      (A.isTotal → B.isTotal → A.intersect B = A.product B) := by
  refine ⟨?_, ?_, ?_, hA.product_numbersStates hB, intersect_of_total⟩
  · exact numbersStates_withinBounds (f := fun _ => A.disjointUnion B) rfl rfl fun _ haccept =>
      hA.unionSteps_eq hB haccept
  · exact numbersStates_withinBounds (f := fun _ => A.chain B) (numStates_sideBySide A B) rfl fun _ haccept =>
      hA.concatenateSteps_eq hB haccept
  · exact numbersStates_withinBounds (f := fun _ => A.loop) rfl rfl fun _ haccept => hA.kleeneStarSteps_eq haccept

/-- In the steps of a union and of a product of circles, only the right numbers are accepted. -/
theorem numbersStates_circle : (circle 2).WellFormed ∧ (circle 3).WellFormed ∧
    (∃ C, (circle 2).union (circle 3) = .ok C ∧ C.numStates = 6 ∧
      unionSteps (fun o k => k == o.number 2 3) (circle 2) (circle 3) = .ok C) ∧
    ∃ C, (circle 2).intersect (circle 3) = .ok C ∧ C.numStates = 6 ∧
      productSteps (fun e k => k == e.1 * 3 + e.2) (circle 2) (circle 3) = .ok C := by
  have hleft : (circle 2).WellFormed := circle_wellFormed (by decide)
  have hright : (circle 3).WellFormed := circle_wellFormed (by decide)
  obtain ⟨hunion, _, _, hproduct, hintersect⟩ := numbersStates hleft hright
  obtain ⟨C, hC, hcount⟩ := hunion.exists_result (by decide)
  obtain ⟨D, hD, hcount'⟩ := hproduct.exists_result (by decide)
  refine ⟨hleft, hright, ⟨C, hC, hcount, ?_⟩, D, ?_, hcount', ?_⟩
  · exact (hunion.steps_eq _ fun _ _ => beq_self_eq_true _).trans hC
  · exact (hintersect (by decide +kernel) (by decide +kernel)).trans hD
  · exact (hproduct.steps_eq _ fun _ _ => beq_self_eq_true _).trans hD

end Automaton

end RegularLanguages
