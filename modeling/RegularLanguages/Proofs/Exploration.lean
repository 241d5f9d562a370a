import Mathlib.Data.Fintype.Card
import Mathlib.Logic.Relation
import RegularLanguages.Search

/-!
Exploration numbers exactly what is reached, each element once, and records where each leads, given
enough steps for all elements there are.
-/
namespace RegularLanguages.Exploration

variable {α : Type} {key : α → Nat} {next : α → List (Option α)}

/-- Any number of steps lead from `x` to `y`, none included. -/
def Reaches (next : α → List (Option α)) : α → α → Prop :=
  Relation.ReflTransGen fun x y => some y ∈ next x

/-- The index holds the positions of the elements found, by their keys. -/
def Indexed (key : α → Nat) (E : Exploration α) : Prop :=
  ∀ k i : Nat, E.index[k]? = some i ↔ ∃ y, E.found[i]? = some y ∧ key y = k

/-- `row` holds the positions of `successors`, none where there is no successor. -/
def Locates (E : Exploration α) (row : List (Option Nat)) (successors : List (Option α)) : Prop :=
  List.Forall₂ (Option.Rel fun i y => E.found[i]? = some y) row successors

/-- `F` is `E` with more elements, all of them among `successors`. -/
structure Grows (key : α → Nat) (successors : List (Option α)) (E F : Exploration α) : Prop where
  indexed : F.Indexed key
  rows : F.rows = E.rows
  kept : ∀ (i : Nat) (y : α), E.found[i]? = some y → F.found[i]? = some y
  new : ∀ y ∈ F.found, y ∈ E.found ∨ some y ∈ successors

theorem Indexed.position_unique {E : Exploration α} (hE : E.Indexed key) {i j : Nat} {y : α}
    (hi : E.found[i]? = some y) (hj : E.found[j]? = some y) : i = j :=
  Option.some.inj (((hE (key y) i).2 ⟨y, hi, rfl⟩).symm.trans ((hE (key y) j).2 ⟨y, hj, rfl⟩))

/-- Nothing is found two times. -/
theorem Indexed.nodup_found {E : Exploration α} (hE : E.Indexed key) : E.found.toList.Nodup := by
  rw [List.nodup_iff_getElem?_ne_getElem?]
  intro i j hij hj he
  rw [Array.getElem?_toList, Array.getElem?_toList, Array.getElem?_eq_getElem hj] at he
  exact Nat.ne_of_lt hij (hE.position_unique he (Array.getElem?_eq_getElem hj))

theorem Locates.mono {E F : Exploration α} (h : ∀ (i : Nat) (y : α), E.found[i]? = some y → F.found[i]? = some y)
    {row : List (Option Nat)} {successors : List (Option α)} (hr : E.Locates row successors) :
    F.Locates row successors := by
  refine List.Forall₂.imp (fun i y hiy => ?_) hr
  cases hiy with
  | none => exact .none
  | some hiy => exact .some (h _ _ hiy)

/-- Position by position, a row holds the position of the successor there. -/
theorem Locates.getElem? {E : Exploration α} {row : List (Option Nat)} {successors : List (Option α)}
    (hr : E.Locates row successors) (a : Nat) :
    Option.Rel (Option.Rel fun i y => E.found[i]? = some y) row[a]? successors[a]? := by
  induction hr generalizing a with
  | nil => exact .none
  | cons hs _ ih =>
    cases a with
    | zero => exact .some hs
    | succ a => exact ih a

private theorem push_indexed {E : Exploration α} (hE : E.Indexed key) {x : α}
    (hx : E.index[key x]? = none) (rows : Array (List (Option Nat))) :
    Indexed key ⟨E.found.push x, E.index.insert (key x) E.found.size, rows⟩ := by
  intro k i
  simp only [Std.ExtTreeMap.getElem?_insert, Std.LawfulEqCmp.compare_eq_iff_eq, Array.getElem?_push]
  split
  · rename_i hk
    subst hk
    constructor
    · intro h
      obtain rfl := Option.some.inj h
      exact ⟨x, by simp, rfl⟩
    · rintro ⟨y, hy, hyx⟩
      split at hy
      · rename_i hi
        rw [hi]
      · have := (hE (key x) i).2 ⟨y, hy, hyx⟩
        rw [hx] at this
        cases this
  · rename_i hk
    rw [hE k i]
    constructor
    · rintro ⟨y, hy, hyk⟩
      have hlt := (Array.getElem?_eq_some_iff.1 hy).1
      exact ⟨y, by rw [if_neg (by omega)]; exact hy, hyk⟩
    · rintro ⟨y, hy, hyk⟩
      split at hy
      · cases hy
        exact absurd hyk hk
      · exact ⟨y, hy, hyk⟩

/-- Locating answers the one position of the element. -/
theorem locate_spec (hkey : Function.Injective key) {E : Exploration α} (hE : E.Indexed key) (x : α) :
    Grows key [some x] E (E.locate key x).1 ∧
      (E.locate key x).1.found[(E.locate key x).2]? = some x := by
  unfold locate
  split
  · rename_i i hi
    obtain ⟨y, hy, hyx⟩ := (hE _ _).1 hi
    exact ⟨⟨hE, rfl, fun _ _ => id, fun _ => Or.inl⟩, hkey hyx ▸ hy⟩
  · rename_i hx
    refine ⟨⟨push_indexed hE hx E.rows, rfl, fun i y hy => ?_, fun y hy => ?_⟩, ?_⟩
    · have hlt := (Array.getElem?_eq_some_iff.1 hy).1
      change (E.found.push x)[i]? = some y
      rw [Array.getElem?_push, if_neg (by omega), hy]
    · rcases Array.mem_push.1 hy with hy | rfl
      · exact Or.inl hy
      · exact Or.inr (by simp)
    · exact Array.getElem?_push_size

theorem locateAll_spec (hkey : Function.Injective key) {E : Exploration α} (hE : E.Indexed key)
    (successors : List (Option α)) :
    Grows key successors E (E.locateAll key successors).1 ∧
      (E.locateAll key successors).1.Locates (E.locateAll key successors).2 successors := by
  induction successors generalizing E with
  | nil => exact ⟨⟨hE, rfl, fun _ _ => id, fun _ => Or.inl⟩, .nil⟩
  | cons s rest ih =>
    cases s with
    | none =>
      obtain ⟨hg, hl⟩ := ih hE
      exact ⟨⟨hg.indexed, hg.rows, hg.kept, fun y hy => (hg.new y hy).imp_right (List.mem_cons_of_mem _)⟩,
        .cons .none hl⟩
    | some x =>
      obtain ⟨hg, hx⟩ := locate_spec hkey hE x
      obtain ⟨hg', hl⟩ := ih hg.indexed
      refine ⟨⟨hg'.indexed, hg'.rows.trans hg.rows, fun i y hy => hg'.kept i y (hg.kept i y hy),
        fun y hy => ?_⟩, .cons (.some (hg'.kept _ _ hx)) hl⟩
      rcases hg'.new y hy with hy | hy
      · exact (hg.new y hy).imp_right fun h => List.mem_cons.2 (Or.inl (List.mem_singleton.1 h))
      · exact Or.inr (List.mem_cons_of_mem _ hy)

/-- What holds of an exploration from `x` at every moment. -/
structure Sound (key : α → Nat) (next : α → List (Option α)) (x : α) (E : Exploration α) : Prop where
  indexed : E.Indexed key
  first : E.found[0]? = some x
  rows_le : E.rows.size ≤ E.found.size
  expanded : ∀ (i : Nat) row, E.rows[i]? = some row → ∃ y, E.found[i]? = some y ∧ E.Locates row (next y)
  reached : ∀ y ∈ E.found, Reaches next x y

theorem start_sound (key : α → Nat) (next : α → List (Option α)) (x : α) :
    Sound key next x (start key x) where
  indexed := by
    intro k i
    have hnone : Indexed key ⟨#[], ∅, #[]⟩ := by intro k i; simp
    exact push_indexed hnone (x := x) (by simp) #[] k i
  first := rfl
  rows_le := Nat.zero_le _
  expanded := by simp [start]
  reached := by
    intro y hy
    obtain rfl : y = x := by simpa [start] using hy
    exact .refl

/-- Expanding one element keeps what holds. -/
theorem advance_sound (hkey : Function.Injective key) {x : α} {E : Exploration α}
    (hE : Sound key next x E) {y : α} (hy : E.pending? = some y) :
    Sound key next x (E.advance key (next y)) := by
  obtain ⟨hg, hl⟩ := locateAll_spec hkey hE.indexed (next y)
  have hpending : E.found[E.rows.size]? = some y := hy
  have hlt := (Array.getElem?_eq_some_iff.1 (hg.kept _ _ hpending)).1
  refine ⟨hg.indexed, hg.kept _ _ hE.first, ?_, ?_, ?_⟩
  · change ((E.locateAll key (next y)).1.rows.push _).size ≤ (E.locateAll key (next y)).1.found.size
    rw [Array.size_push, hg.rows]
    exact hlt
  · intro i row hrow
    change ((E.locateAll key (next y)).1.rows.push (E.locateAll key (next y)).2)[i]? = some row at hrow
    rw [hg.rows, Array.getElem?_push] at hrow
    split at hrow
    · rename_i hi
      obtain rfl := Option.some.inj hrow
      exact ⟨y, hi ▸ hg.kept _ _ hpending, hl⟩
    · obtain ⟨z, hz, hr⟩ := hE.expanded i row hrow
      exact ⟨z, hg.kept _ _ hz, hr.mono hg.kept⟩
  · intro z hz
    rcases hg.new z hz with hz | hz
    · exact hE.reached z hz
    · exact (hE.reached y (Array.mem_of_getElem? hpending)).tail hz

private theorem run_sound (hkey : Function.Injective key) {x : α} (steps : Nat) {E : Exploration α}
    (hE : Sound key next x E) : Sound key next x (run key next steps E) := by
  induction steps generalizing E with
  | zero => exact hE
  | succ steps ih =>
    rw [run]
    split
    · exact hE
    · rename_i y hy
      exact ih (advance_sound hkey hE hy)

private theorem run_finished_or (hkey : Function.Injective key) {x : α} (steps : Nat)
    {E : Exploration α} (hE : Sound key next x E) :
    (run key next steps E).pending? = none ∨
      (run key next steps E).rows.size = E.rows.size + steps := by
  induction steps generalizing E with
  | zero => exact Or.inr rfl
  | succ steps ih =>
    rw [run]
    split
    · rename_i h
      exact Or.inl h
    · rename_i y hy
      have hsize : (E.advance key (next y)).rows.size = E.rows.size + 1 := by
        change ((E.locateAll key (next y)).1.rows.push _).size = _
        rw [Array.size_push, (locateAll_spec hkey hE.indexed (next y)).1.rows]
      rcases ih (advance_sound hkey hE hy) with h | h
      · exact Or.inl h
      · exact Or.inr (by omega)

private theorem size_le_card {x : α} {E : Exploration α} (hE : Sound key next x E) (U : Finset α)
    (hU : ∀ y, Reaches next x y → y ∈ U) : E.found.size ≤ U.card := by
  classical
  rw [← Array.length_toList, ← List.toFinset_card_of_nodup hE.indexed.nodup_found]
  refine Finset.card_le_card fun y hy => hU y (hE.reached y ?_)
  exact Array.mem_toList_iff.1 (List.mem_toFinset.1 hy)

/-- An exploration that has expanded all it has found. -/
structure Complete (key : α → Nat) (next : α → List (Option α)) (x : α) (E : Exploration α) : Prop
    extends Sound key next x E where
  finished : E.pending? = none

/-- As many steps as there are elements are enough. -/
theorem explore_complete (hkey : Function.Injective key) {x : α} (U : Finset α)
    (hU : ∀ y, Reaches next x y → y ∈ U) {bound : Nat} (hbound : U.card ≤ bound) :
    Complete key next x (explore key next bound x) := by
  have hsound := run_sound hkey bound (start_sound key next x)
  refine ⟨hsound, ?_⟩
  rcases run_finished_or hkey bound (start_sound key next x) with h | h
  · exact h
  · have hsize := size_le_card hsound U hU
    have hrows : (start key x).rows.size = 0 := rfl
    refine Array.getElem?_eq_none ?_
    change (run key next bound (start key x)).found.size ≤ (run key next bound (start key x)).rows.size
    omega

namespace Complete

variable {x : α} {E : Exploration α}

theorem rows_size (hE : Complete key next x E) : E.rows.size = E.found.size :=
  Nat.le_antisymm hE.rows_le (Array.getElem?_eq_none_iff.1 hE.finished)

/-- Every element found has a row with the positions of its successors. -/
theorem row (hE : Complete key next x E) {i : Nat} {y : α} (hy : E.found[i]? = some y) :
    ∃ row, E.rows[i]? = some row ∧ E.Locates row (next y) := by
  have hlt : i < E.rows.size := hE.rows_size ▸ (Array.getElem?_eq_some_iff.1 hy).1
  obtain ⟨z, hz, hr⟩ := hE.expanded i _ (Array.getElem?_eq_getElem hlt)
  obtain rfl := Option.some.inj (hy.symm.trans hz)
  exact ⟨_, Array.getElem?_eq_getElem hlt, hr⟩

/-- The rows lead from position to position as the elements at these positions lead to each other. -/
theorem row_eq_some_iff (hE : Complete key next x E) {i j a : Nat} :
    (∃ row, E.rows[i]? = some row ∧ row[a]? = some (some j)) ↔
      ∃ y z, E.found[i]? = some y ∧ (next y)[a]? = some (some z) ∧ E.found[j]? = some z := by
  constructor
  · rintro ⟨row, hrow, ha⟩
    obtain ⟨y, hy, hr⟩ := hE.expanded i row hrow
    have hrel := hr.getElem? a
    rw [ha] at hrel
    generalize hs : (next y)[a]? = s at hrel
    cases hrel with
    | some hrel =>
      cases hrel with
      | some hj => exact ⟨y, _, hy, hs, hj⟩
  · rintro ⟨y, z, hy, ha, hj⟩
    obtain ⟨row, hrow, hr⟩ := hE.row hy
    have hrel := hr.getElem? a
    rw [ha] at hrel
    generalize hs : row[a]? = s at hrel
    cases hrel with
    | some hrel =>
      cases hrel with
      | some hk =>
        rw [hE.indexed.position_unique hk hj] at hs
        exact ⟨row, hrow, hs⟩

/-- Everything that can be reached has been found. -/
theorem found_of_reaches (hE : Complete key next x E) {y : α} (h : Reaches next x y) :
    ∃ i : Nat, E.found[i]? = some y := by
  induction h with
  | refl => exact ⟨0, hE.first⟩
  | tail _ hstep ih =>
    obtain ⟨i, hi⟩ := ih
    obtain ⟨a, ha⟩ := List.getElem?_of_mem hstep
    obtain ⟨row, _, hr⟩ := hE.row hi
    have hrel := hr.getElem? a
    rw [ha] at hrel
    generalize row[a]? = s at hrel
    cases hrel with
    | some hrel =>
      cases hrel with
      | some hk => exact ⟨_, hk⟩

end Complete

end RegularLanguages.Exploration
