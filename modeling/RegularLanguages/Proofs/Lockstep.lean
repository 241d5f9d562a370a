import RegularLanguages.Proofs.Exploration

/-!
Explorations of two systems that correspond one to one find corresponding elements in the same order, whatever
their keys and bounds. So the rows that they record are the same.
-/
namespace RegularLanguages.Exploration

variable {α β : Type} {key : α → Nat} {key' : β → Nat} {next : α → List (Option α)}
  {next' : β → List (Option β)} {R : α → β → Prop} {E : Exploration α} {F : Exploration β}

/-- Position by position the elements found are related, and the rows are the same. -/
structure InStep (R : α → β → Prop) (E : Exploration α) (F : Exploration β) : Prop where
  found : ∀ i : Nat, Option.Rel R E.found[i]? F.found[i]?
  rows_eq : E.rows = F.rows

namespace InStep

theorem size_eq (h : InStep R E F) : E.found.size = F.found.size := by
  have hE := h.found E.found.size
  have hF := h.found F.found.size
  rw [Array.getElem?_eq_none (Nat.le_refl _)] at hE hF
  refine Nat.le_antisymm ?_ ?_
  · generalize hy : E.found[F.found.size]? = y at hF
    cases hF
    exact Array.getElem?_eq_none_iff.1 hy
  · generalize hz : F.found[E.found.size]? = z at hE
    cases hE
    exact Array.getElem?_eq_none_iff.1 hz

private theorem found_iff (h : InStep R E F) (hR : Relator.BiUnique R) {x : α} {y : β} (hxy : R x y) {i : Nat} :
    E.found[i]? = some x ↔ F.found[i]? = some y := by
  have hi := h.found i
  generalize E.found[i]? = x' at hi
  generalize F.found[i]? = y' at hi
  cases hi with
  | none => exact ⟨nofun, nofun⟩
  | some hi =>
    rw [Option.some.injEq, Option.some.injEq]
    exact ⟨fun he => hR.2 (he ▸ hi) hxy, fun he => hR.1 (he ▸ hi) hxy⟩

end InStep

theorem Indexed.index_eq_some_iff (hkey : Function.Injective key) (hE : E.Indexed key) {x : α} {i : Nat} :
    E.index[key x]? = some i ↔ E.found[i]? = some x := by
  rw [hE]
  constructor
  · rintro ⟨y, hy, hyx⟩
    exact hkey hyx ▸ hy
  · exact fun hx => ⟨x, hx, rfl⟩

variable (hkey : Function.Injective key) (hkey' : Function.Injective key') (hR : Relator.BiUnique R)

include hkey hkey' hR

private theorem locate_inStep (hE : E.Indexed key) (hF : F.Indexed key') (h : InStep R E F) {x : α} {y : β}
    (hxy : R x y) :
    (E.locate key x).2 = (F.locate key' y).2 ∧ InStep R (E.locate key x).1 (F.locate key' y).1 := by
  have hindex : E.index[key x]? = F.index[key' y]? := Option.ext fun i => by
    rw [hE.index_eq_some_iff hkey, hF.index_eq_some_iff hkey', h.found_iff hR hxy]
  rw [locate, locate, hindex]
  split
  · exact ⟨rfl, h⟩
  · refine ⟨h.size_eq, fun i => ?_, h.rows_eq⟩
    change Option.Rel R (E.found.push x)[i]? (F.found.push y)[i]?
    rw [Array.getElem?_push, Array.getElem?_push, h.size_eq]
    split
    · exact .some hxy
    · exact h.found i

private theorem locateAll_inStep (hE : E.Indexed key) (hF : F.Indexed key') (h : InStep R E F)
    {successors : List (Option α)} {successors' : List (Option β)}
    (hs : List.Forall₂ (Option.Rel R) successors successors') :
    (E.locateAll key successors).2 = (F.locateAll key' successors').2 ∧
      InStep R (E.locateAll key successors).1 (F.locateAll key' successors').1 := by
  induction hs generalizing E F with
  | nil => exact ⟨rfl, h⟩
  | cons hxy _ ih =>
    cases hxy with
    | none =>
      obtain ⟨hrest, hstep⟩ := ih hE hF h
      exact ⟨congrArg (none :: ·) hrest, hstep⟩
    | some hxy =>
      obtain ⟨hfirst, hlocated⟩ := locate_inStep hkey hkey' hR hE hF h hxy
      obtain ⟨hrest, hstep⟩ := ih (locate_spec hkey hE _).1.indexed (locate_spec hkey' hF _).1.indexed hlocated
      exact ⟨congrArg₂ (fun i r => some i :: r) hfirst hrest, hstep⟩

variable (hnext : ∀ y z, R y z → List.Forall₂ (Option.Rel R) (next y) (next' z))

include hnext

private theorem run_inStep (steps : Nat) (hE : E.Indexed key) (hF : F.Indexed key') (h : InStep R E F) :
    InStep R (run key next steps E) (run key' next' steps F) := by
  induction steps generalizing E F with
  | zero => exact h
  | succ steps ih =>
    have hpending : Option.Rel R E.pending? F.pending? := by
      rw [pending?, pending?, h.rows_eq]
      exact h.found _
    rw [run, run]
    generalize E.pending? = y at hpending
    generalize F.pending? = z at hpending
    cases hpending with
    | none => exact h
    | @some y z hyz =>
      obtain ⟨hrow, hstep⟩ := locateAll_inStep hkey hkey' hR hE hF h (hnext y z hyz)
      refine ih (locateAll_spec hkey hE (next y)).1.indexed (locateAll_spec hkey' hF (next' z)).1.indexed
        ⟨hstep.found, ?_⟩
      change (E.locateAll key (next y)).1.rows.push _ = (F.locateAll key' (next' z)).1.rows.push _
      rw [hstep.rows_eq, hrow]

omit hkey hkey' hR hnext in
/-- A finished exploration stays as it is. -/
theorem run_add_of_finished {steps : Nat} (h : (run key next steps E).pending? = none) (more : Nat) :
    run key next (steps + more) E = run key next steps E := by
  induction steps generalizing E with
  | zero =>
    change E.pending? = none at h
    rw [Nat.zero_add]
    cases more with
    | zero => rfl
    | succ more => simp only [run, h]
  | succ steps ih =>
    rw [Nat.succ_add, run, run]
    rw [run] at h
    split
    · rfl
    · rename_i y hy
      rw [hy] at h
      exact ih h

omit hkey hkey' hR hnext in
/-- A larger bound makes no difference once an exploration is finished. -/
theorem explore_eq_of_finished {x : α} {bound bound' : Nat} (h : (explore key next bound x).pending? = none)
    (h' : (explore key next bound' x).pending? = none) : explore key next bound x = explore key next bound' x := by
  have hadd := run_add_of_finished h bound'
  rw [Nat.add_comm, run_add_of_finished h'] at hadd
  exact hadd.symm

/-- Finished explorations from related elements are in step. -/
theorem explore_inStep {x : α} {y : β} (hxy : R x y) {bound bound' : Nat}
    (hE : (explore key next bound x).pending? = none) (hF : (explore key' next' bound' y).pending? = none) :
    InStep R (explore key next bound x) (explore key' next' bound' y) := by
  have hstart : InStep R (start key x) (start key' y) := by
    refine ⟨fun i => ?_, rfl⟩
    change Option.Rel R #[x][i]? #[y][i]?
    cases i with
    | zero => exact .some hxy
    | succ i => exact .none
  have hrun := run_inStep hkey hkey' hR hnext (bound + bound') (start_sound key next x).indexed
    (start_sound key' next' y).indexed hstart
  have hadd := run_add_of_finished hE bound'
  have hadd' := run_add_of_finished hF bound
  rw [Nat.add_comm] at hadd'
  rw [explore, explore, ← hadd, ← hadd']
  exact hrun

end RegularLanguages.Exploration
