import Mathlib.Data.Finset.Card
import Mathlib.Logic.Relation
import RegularLanguages.Search
import RegularLanguages.StateSet.Membership

/-!
Saturation adds exactly the states that can be reached, given enough rounds for all successors there are.
-/
namespace RegularLanguages

/-- A set found in a map is the union of the sets listed under the state. -/
theorem StateMap.contains_find_ofList {entries : List (State × StateSet)} {p q : State} :
    (find (ofList entries) p).contains q ↔ ∃ S, (p, S) ∈ entries ∧ S.contains q := by
  suffices h : ∀ M : StateMap, (find (entries.foldl
      (fun (M : StateMap) e => M.insert e.1 (find M e.1 ∪ e.2)) M) p).contains q ↔
      (find M p).contains q ∨ ∃ S, (p, S) ∈ entries ∧ S.contains q by
    rw [ofList, h]
    simp [find]
  induction entries with
  | nil => simp
  | cons e entries ih =>
    intro M
    rw [List.foldl_cons, ih, find, Std.ExtTreeMap.getElem?_insert]
    simp only [Std.LawfulEqCmp.compare_eq_iff_eq, List.mem_cons]
    obtain ⟨r, S⟩ := e
    by_cases hr : r = p
    · subst hr
      simp [or_and_right, exists_or, or_assoc]
    · have hne : ∀ T, (p, T) ≠ (r, S) := fun T h => hr (congrArg Prod.fst h).symm
      simp [hr, hne, find]

namespace StateSet

/-- Any number of steps lead from `p` to `q`, none included. -/
def Reaches (next : State → StateSet) : State → State → Prop :=
  Relation.ReflTransGen fun p q => (next p).contains q

variable {next : State → StateSet}

theorem Reaches.closed {S : StateSet} (hS : ∀ p q, S.contains p → (next p).contains q → S.contains q)
    {p q : State} (h : Reaches next p q) (hp : S.contains p) : S.contains q := by
  induction h with
  | refl => exact hp
  | tail _ hstep ih => exact hS _ _ ih hstep

private theorem contains_closed {S : StateSet}
    (hS : ∀ p q, S.contains p → (next p).contains q → S.contains q) (q : State) :
    S.contains q ↔ ∃ p, S.contains p ∧ Reaches next p q :=
  ⟨fun h => ⟨q, h, .refl⟩, fun ⟨_, hp, h⟩ => h.closed hS hp⟩

private theorem grow_empty (rounds : Nat) (seen : StateSet) : grow next rounds seen ∅ = seen := by
  cases rounds with
  | zero => rfl
  | succ rounds => rw [grow, if_pos (isEmpty_iff.2 rfl)]

-- Successors of members that are not members yet add nothing to what is reached.
private theorem reaches_union_iff {seen new : StateSet} (hnew : ∀ q, new.contains q → seen.contains q)
    (q : State) : (∃ p, (seen ∪ (new.image next \ seen)).contains p ∧ Reaches next p q) ↔
      ∃ p, seen.contains p ∧ Reaches next p q := by
  constructor
  · rintro ⟨p, hp, h⟩
    rcases contains_union_iff.1 hp with hp | hp
    · exact ⟨p, hp, h⟩
    · rw [contains_sdiff, Bool.and_eq_true] at hp
      obtain ⟨s, hs, hsp⟩ := contains_image.1 hp.1
      exact ⟨s, hnew s hs, h.head hsp⟩
  · rintro ⟨p, hp, h⟩
    exact ⟨p, by simp [hp], h⟩

theorem card_unseen_lt {U : Finset State} {seen found : StateSet} {r : State} (hr : found.contains r)
    (hU : r ∈ U) (hseen : seen.contains r = false) :
    (U.filter fun q => ¬ (seen ∪ found).contains q).card < (U.filter fun q => ¬ seen.contains q).card := by
  apply Finset.card_lt_card
  refine Finset.ssubset_iff_subset_ne.2 ⟨fun q => ?_, fun he => ?_⟩
  · simp only [Finset.mem_filter, contains_union_iff, not_or]
    exact fun h => ⟨h.1, h.2.1⟩
  · have hmem : r ∈ U.filter fun q => ¬ seen.contains q := by simp [hU, hseen]
    rw [← he] at hmem
    simp [hr] at hmem

private theorem contains_grow (U : Finset State) (hU : ∀ p q, (next p).contains q → q ∈ U)
    (rounds : Nat) (seen new : StateSet) (hnew : ∀ q, new.contains q → seen.contains q)
    (hseen : ∀ p q, seen.contains p → ¬ new.contains p → (next p).contains q → seen.contains q)
    (hrounds : (U.filter fun q => ¬ seen.contains q).card < rounds) (q : State) :
    (grow next rounds seen new).contains q ↔ ∃ p, seen.contains p ∧ Reaches next p q := by
  -- Only the newly found states still have successors to be seen. Every round either finds one more of the
  -- successors there are, or is the last.
  induction rounds generalizing seen new with
  | zero => omega
  | succ rounds ih =>
    rw [grow]
    split
    · rename_i hempty
      have hno : ∀ p, ¬ new.contains p := by simp [isEmpty_iff.1 hempty]
      exact contains_closed (fun p q hp hq => hseen p q hp (hno p) hq) q
    · rw [← reaches_union_iff hnew]
      generalize hfound : new.image next \ seen = found
      have hstep : ∀ p q, seen.contains p → (next p).contains q → (seen ∪ found).contains q := by
        intro p q hp hq
        by_cases hpn : new.contains p
        · have himage : (new.image next).contains q := contains_image.2 ⟨p, hpn, hq⟩
          cases hs : seen.contains q <;> simp [← hfound, himage, hs]
        · simp [hseen p q hp hpn hq]
      cases hempty : found.isEmpty with
      | true =>
        obtain rfl := isEmpty_iff.1 hempty
        have hun : seen ∪ ∅ = seen := ext fun r => by simp
        rw [grow_empty, hun]
        exact contains_closed (fun p q hp hq => hun ▸ hstep p q hp hq) q
      | false =>
        obtain ⟨r, hr⟩ := isEmpty_eq_false_iff.1 hempty
        have hsplit : (new.image next).contains r ∧ seen.contains r = false := by simpa [← hfound] using hr
        obtain ⟨p, _, hrp⟩ := contains_image.1 hsplit.1
        have hfewer := card_unseen_lt hr (hU p r hrp) hsplit.2
        apply ih (seen ∪ found) found (fun q hq => by simp [hq]) ?_ (by omega)
        intro p q hp hpf hq
        exact hstep p q ((contains_union_iff.1 hp).resolve_right hpf) hq

/-- Saturation is the least closed superset, provided that it has one round more than there are states to
be found. -/
theorem contains_saturate (U : Finset State) (hU : ∀ p q, (next p).contains q → q ∈ U) {rounds : Nat}
    (hrounds : U.card < rounds) (S : StateSet) (q : State) :
    (S.saturate next rounds).contains q ↔ ∃ p, S.contains p ∧ Reaches next p q :=
  contains_grow U hU rounds S S (fun _ => id) (fun _ _ hp hn => absurd hp hn)
    (Nat.lt_of_le_of_lt (Finset.card_filter_le _ _) hrounds) q

end StateSet

end RegularLanguages
