import RegularLanguages.Automaton.Product
import RegularLanguages.Proofs.Completion
import RegularLanguages.Proofs.Determinization
import RegularLanguages.Proofs.Minimization

/-!
Automata derived from well-formed ones are well-formed, whether their states are the same, subsets, parts or pairs.
-/
namespace RegularLanguages.Automaton

variable {A B : Automaton}

/-- A numbered automaton is well-formed if its final and its named states are among the numbered ones. -/
theorem BreadthFirst.wellFormed {D : Automaton} (h : D.BreadthFirst)
    (hfinals : ∀ q, D.finals.contains q → q < D.numStates)
    (hnames : ∀ q name, D.names.name? q = some name → q < D.numStates) : D.WellFormed := by
  obtain ⟨α, key, next, bound, x, _, hD, hlen⟩ := h
  refine ⟨fun q hq => ?_, hfinals, fun p l q hq => ?_, hnames⟩
  · rw [hD.starts_eq] at hq
    rw [hD.numStates_eq]
    exact StateSet.lt_of_contains_singleton (Array.getElem?_eq_some_iff.1 hD.first).1 hq
  · rw [hD.transitions_eq, Transitions.contains_ofRows] at hq
    obtain ⟨row, a, hrow, rfl, ha⟩ := hq
    rw [Array.getElem?_toList] at hrow
    obtain ⟨y, z, hy, hz, hqz⟩ := hD.row_eq_some_iff.1 ⟨row, hrow, ha⟩
    rw [hD.numStates_eq]
    refine ⟨(Array.getElem?_eq_some_iff.1 hy).1, decide_eq_true ?_, (Array.getElem?_eq_some_iff.1 hqz).1⟩
    rw [← hlen y (Array.mem_of_getElem? hy)]
    exact (List.getElem?_eq_some_iff.1 hz).1

theorem determinize_wellFormed (A : Automaton) : A.determinize.WellFormed := by
  refine A.determinize_breadthFirst.wellFormed (fun _ => StateSet.lt_of_contains_below) fun q name hq => ?_
  have hlt := StateNames.lt_length_of_name?_ofList hq
  rwa [List.length_map, Array.length_toList] at hlt

theorem minimize_wellFormed {M : Automaton} (h : A.minimize = .ok M) : M.WellFormed := by
  have hM := minimize_breadthFirst h
  obtain ⟨T, _, _, rfl⟩ := exists_table_of_minimize h
  refine hM.wellFormed (fun _ => StateSet.lt_of_contains_below) fun q name hq => ?_
  have hlt := StateNames.lt_length_of_name?_ofList hq
  rwa [List.length_map, Array.length_toList] at hlt

/-- A transition of the result stands for epsilon edges followed by a symbol. -/
theorem contains_removeEpsilon {p q : State} {l : Label SymbolId} :
    A.removeEpsilon.transitions.contains p l q ↔ p < A.numStates ∧
      ∃ a < A.alphabet.size, l = .symbol a ∧ ∃ s, A.Path p [] s ∧ A.transitions.contains s (.symbol a) q := by
  have hbypass : ∀ {p a q}, (A.edgesOn (A.closure (.singleton p)) a).contains q ↔
      ∃ s, A.Path p [] s ∧ A.transitions.contains s (.symbol a) q := by
    intro p a q
    simp [edgesOn, StateSet.contains_image, contains_closure, Transitions.contains]
  change (Transitions.ofList _).contains p l q ↔ _
  simp only [Transitions.contains_ofList, List.mem_flatMap, Array.mem_toList_iff, Array.mem_map,
    Array.mem_range, bypass, List.mem_map, StateSet.mem_toList, Transition.mk.injEq, Alphabet.ids,
    List.mem_range, exists_exists_and_eq_and]
  constructor
  · rintro ⟨p, hp, a, ha, q, hq, rfl, rfl, rfl⟩
    exact ⟨hp, a, ha, rfl, hbypass.1 hq⟩
  · rintro ⟨hp, a, ha, rfl, hq⟩
    exact ⟨p, hp, a, ha, q, hbypass.2 hq, rfl, rfl, rfl⟩

@[simp] theorem contains_reverse {p q : State} {l : Label SymbolId} :
    A.reverse.transitions.contains p l q ↔ A.transitions.contains q l p := by
  change (Transitions.ofList _).contains p l q ↔ _
  simp only [Transitions.contains_ofList, List.mem_map, Transitions.mem_toList, Transition.mk.injEq]
  constructor
  · rintro ⟨t, ht, rfl, rfl, rfl⟩
    exact ht
  · intro h
    exact ⟨⟨q, l, p⟩, h, rfl, rfl, rfl⟩

namespace WellFormed

theorem removeEpsilon (hA : A.WellFormed) : A.removeEpsilon.WellFormed := by
  refine ⟨hA.starts_lt, fun _ => StateSet.lt_of_contains_below, fun p l q h => ?_, hA.names_lt⟩
  obtain ⟨hp, a, ha, rfl, s, _, hs⟩ := contains_removeEpsilon.1 h
  exact ⟨hp, decide_eq_true ha, (hA.transitions s _ q hs).2.2⟩

theorem reverse (hA : A.WellFormed) : A.reverse.WellFormed := by
  refine ⟨hA.finals_lt, hA.starts_lt, fun p l q h => ?_, hA.names_lt⟩
  obtain ⟨hq, hl, hp⟩ := hA.transitions q l p (contains_reverse.1 h)
  exact ⟨hp, hl, hq⟩

theorem flipFinals (hA : A.WellFormed) : A.flipFinals.WellFormed := by
  refine hA.setFinals fun q hq => ?_
  rw [StateSet.contains_sdiff, StateSet.contains_full, Bool.and_eq_true, decide_eq_true_eq] at hq
  exact hq.1

end WellFormed

theorem mem_pairs {α β γ : Type} {f : α → β → γ} {as : List α} {bs : List β} {x : γ} :
    x ∈ pairs f as bs ↔ ∃ a ∈ as, ∃ b ∈ bs, f a b = x := by
  simp [pairs]

theorem length_pairs {α β γ : Type} (f : α → β → γ) (as : List α) (bs : List β) :
    (pairs f as bs).length = as.length * bs.length := by
  simp [pairs]

theorem pair_lt {p q n width : Nat} (hp : p < n) (hq : q < width) : p * width + q < n * width := by
  calc p * width + q < p * width + width := Nat.add_lt_add_left hq _
    _ = (p + 1) * width := (Nat.succ_mul p width).symm
    _ ≤ n * width := Nat.mul_le_mul_right width hp

theorem pair_div {p q width : Nat} (hq : q < width) : (p * width + q) / width = p := by
  rw [Nat.add_comm, Nat.add_mul_div_right _ _ (Nat.zero_lt_of_lt hq), Nat.div_eq_of_lt hq, Nat.zero_add]

theorem pair_mod {p q width : Nat} (hq : q < width) : (p * width + q) % width = q := by
  rw [Nat.add_comm, Nat.add_mul_mod_self_right, Nat.mod_eq_of_lt hq]

/-- Every number below the number of pairs is that of a pair. -/
theorem exists_pair {n m k : Nat} (hk : k < n * m) : ∃ p < n, ∃ q < m, p * m + q = k := by
  have hm : 0 < m := Nat.pos_of_mul_pos_left (Nat.zero_lt_of_lt hk)
  exact ⟨k / m, Nat.div_lt_of_lt_mul (Nat.mul_comm n m ▸ hk), k % m, Nat.mod_lt k hm, Nat.div_add_mod' k m⟩

private theorem WellFormed.lt_of_rowsOn (hA : A.WellFormed) {names : List String} {row : List (Option State)}
    (hrow : row ∈ A.rowsOn names) {a q : Nat} (ha : row[a]? = some (some q)) : a < names.length ∧ q < A.numStates := by
  obtain ⟨p, _, rfl⟩ := List.mem_map.1 hrow
  rw [rowOn, List.map_map, List.getElem?_map, Option.map_eq_some_iff] at ha
  obtain ⟨name, hname, hq⟩ := ha
  exact ⟨(List.getElem?_eq_some_iff.1 hname).1, hA.next_lt hq⟩

theorem pairRow_eq_some_iff {width a r : Nat} {left right : List (Option State)} :
    (pairRow width left right)[a]? = some (some r) ↔
      ∃ p q, left[a]? = some (some p) ∧ right[a]? = some (some q) ∧ p * width + q = r := by
  rw [pairRow, List.getElem?_zipWith_eq_some]
  simp only [Option.bind_eq_some_iff, Option.map_eq_some_iff]
  constructor
  · rintro ⟨_, _, hp, hq, p, rfl, q, rfl, hr⟩
    exact ⟨p, q, hp, hq, hr⟩
  · rintro ⟨p, q, hp, hq, hr⟩
    exact ⟨_, _, hp, hq, p, rfl, q, rfl, hr⟩

@[simp] theorem numStates_pairing (A B : Automaton) : (A.pairing B).numStates = A.numStates * B.numStates := rfl

theorem WellFormed.pairing (hA : A.WellFormed) (hB : B.WellFormed) : (A.pairing B).WellFormed := by
  refine ⟨fun q hq => ?_, fun _ => StateSet.lt_of_contains_below, fun p l r h => ?_, fun q name hq => ?_⟩
  · obtain ⟨s, hs, t, ht, rfl⟩ := mem_pairs.1 (of_decide_eq_true ((StateSet.contains_ofList _ q).symm.trans hq))
    exact pair_lt (hA.starts_lt s (StateSet.mem_toList.1 hs)) (hB.starts_lt t (StateSet.mem_toList.1 ht))
  · obtain ⟨row, a, hrow, rfl, ha⟩ := Transitions.contains_ofRows.1 h
    obtain ⟨left, hleft, right, hright, rfl⟩ := mem_pairs.1 (List.mem_of_getElem? hrow)
    obtain ⟨s, t, hs, ht, rfl⟩ := pairRow_eq_some_iff.1 ha
    obtain ⟨ha, hs⟩ := hA.lt_of_rowsOn hleft hs
    obtain ⟨_, ht⟩ := hB.lt_of_rowsOn hright ht
    refine ⟨?_, decide_eq_true ?_, pair_lt hs ht⟩
    · have hlt := (List.getElem?_eq_some_iff.1 hrow).1
      rw [length_pairs] at hlt
      simpa [rowsOn] using hlt
    · have hsize : (A.pairing B).alphabet.size = (A.commonNames B).length :=
        Alphabet.size_ofNames (A.alphabet.nodup.filter _)
      rwa [hsize]
  · have hlt := StateNames.lt_length_of_name?_ofList hq
    rw [length_pairs] at hlt
    simpa [stateNames] using hlt

variable {C : Automaton}

theorem product_cases (A B : Automaton) :
    maxStates < A.numStates * B.numStates ∧ A.product B = .error .tooManyStates ∨
      A.numStates * B.numStates ≤ maxStates ∧ A.product B = .ok (A.pairing B) := by
  rw [product]
  rcases Nat.lt_or_ge maxStates (A.numStates * B.numStates) with hmany | hfit
  · exact Or.inl ⟨hmany, if_neg (Nat.not_le.2 hmany)⟩
  · exact Or.inr ⟨hfit, if_pos hfit⟩

theorem of_product (h : A.product B = .ok C) : A.pairing B = C := by
  rcases product_cases A B with ⟨_, hproduct⟩ | ⟨_, hproduct⟩
  · cases hproduct.symm.trans h
  · exact Except.ok.inj (hproduct.symm.trans h)

-- What succeeds has succeeded in each of its parts.
private theorem exists_of_bind_eq_ok {α : Type} {x : Except Failure α} {f : α → Except Failure Automaton}
    (h : x >>= f = .ok C) : ∃ a, x = .ok a ∧ f a = .ok C := by
  cases x with
  | ok a => exact ⟨a, rfl, h⟩
  | error e => cases h

theorem of_intersect (h : A.intersect B = .ok C) : A.pairing B = C := by
  obtain ⟨_, _, h⟩ := exists_of_bind_eq_ok h
  obtain ⟨_, _, h⟩ := exists_of_bind_eq_ok h
  exact of_product h

theorem of_complement (h : A.complement = .ok C) : A.flipFinals = C := by
  obtain ⟨_, _, h⟩ := exists_of_bind_eq_ok h
  exact Except.ok.inj h

/-- The deterministic total automaton for the language of `A` over the symbols of `A` and then those of `B`. -/
def completed (A B : Automaton) : Automaton := (A.widened B).determinize.completion

theorem completed_wellFormed (A B : Automaton) : (A.completed B).WellFormed :=
  (determinize_wellFormed _).completion

theorem of_difference (h : A.difference B = .ok C) : (A.completed B).pairing (B.completed A).flipFinals = C := by
  obtain ⟨_, hleft, h⟩ := exists_of_bind_eq_ok h
  obtain ⟨_, hright, h⟩ := exists_of_bind_eq_ok h
  obtain rfl := of_complete hleft
  obtain rfl := of_complete hright
  exact of_product h

namespace WellFormed

theorem intersect (hA : A.WellFormed) (hB : B.WellFormed) (h : A.intersect B = .ok C) : C.WellFormed :=
  of_intersect h ▸ hA.pairing hB

theorem complement (hA : A.WellFormed) (h : A.complement = .ok C) : C.WellFormed :=
  of_complement h ▸ hA.flipFinals

end WellFormed

theorem difference_wellFormed (h : A.difference B = .ok C) : C.WellFormed :=
  of_difference h ▸ (completed_wellFormed A B).pairing (completed_wellFormed B A).flipFinals

end RegularLanguages.Automaton
