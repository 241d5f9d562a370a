import Mathlib.Data.List.Nodup
import Mathlib.Data.List.Perm.Subperm
import RegularLanguages.Alphabet

/-!
Alphabets number their names without gaps, and registering more names keeps the numbers.
-/
namespace RegularLanguages.Alphabet

variable {A : Alphabet}

/-- Names and numbers determine each other. -/
theorem id?_eq_some_iff {name : String} {a : SymbolId} :
    A.id? name = some a ↔ A.name? a = some name := by
  rw [id?, name?, List.idxOf?, List.findIdx?_eq_some_iff_getElem]
  constructor
  · rintro ⟨hlt, ha, _⟩
    rw [List.getElem?_eq_getElem hlt, eq_of_beq ha]
  · intro h
    obtain ⟨hlt, rfl⟩ := List.getElem?_eq_some_iff.1 h
    refine ⟨hlt, beq_self_eq_true _, fun b hb he => ?_⟩
    exact Nat.ne_of_lt hb (A.nodup.getElem_inj_iff.1 (eq_of_beq he))

theorem lt_size_of_id? {name : String} {a : SymbolId} (h : A.id? name = some a) :
    a < A.size := by
  rw [id?_eq_some_iff, name?] at h
  exact (List.getElem?_eq_some_iff.1 h).1

theorem exists_name {a : SymbolId} (h : a < A.size) : ∃ name, A.id? name = some a :=
  ⟨A.names.get ⟨a, h⟩, id?_eq_some_iff.2 (List.getElem?_eq_getElem h)⟩

theorem mem_names_intern {s name : String} : name ∈ (A.intern s).names ↔ name ∈ A.names ∨ name = s := by
  unfold intern
  split
  · rename_i h
    exact ⟨Or.inl, fun hn => hn.elim id fun he => he ▸ h⟩
  · simp

theorem mem_names_internAll {names : List String} {name : String} :
    name ∈ (A.internAll names).names ↔ name ∈ A.names ∨ name ∈ names := by
  induction names generalizing A with
  | nil => simp [internAll]
  | cons s names ih =>
    change name ∈ ((A.intern s).internAll names).names ↔ _
    rw [ih, mem_names_intern, List.mem_cons, or_assoc]

theorem id?_eq_none_iff {name : String} : A.id? name = none ↔ name ∉ A.names := by
  simp only [Option.eq_none_iff_forall_ne_some, Ne, id?_eq_some_iff, name?, List.mem_iff_getElem?,
    not_exists]

/-- Interning keeps the numbers of the symbols that are there. -/
theorem id?_intern {s name : String} {a : SymbolId} (h : A.id? name = some a) :
    (A.intern s).id? name = some a := by
  rw [id?_eq_some_iff, name?] at *
  unfold intern
  split
  · exact h
  · rw [List.getElem?_append_left (List.getElem?_eq_some_iff.1 h).1]
    exact h

theorem id?_internAll {names : List String} {name : String} {a : SymbolId} (h : A.id? name = some a) :
    (A.internAll names).id? name = some a := by
  induction names generalizing A with
  | nil => exact h
  | cons s names ih => exact ih (id?_intern h)

/-- A new name gets the next number. -/
theorem id?_intern_new {s : String} (hs : s ∉ A.names) (name : String) :
    (A.intern s).id? name = (A.id? name).or (if s = name then some A.size else none) := by
  rw [intern, dif_neg hs, id?, id?, List.idxOf?, List.findIdx?_append]
  by_cases he : s = name <;> simp [he, size]

theorem name?_intern_new {s : String} (hs : s ∉ A.names) (a : SymbolId) :
    (A.intern s).name? a = if A.size = a then some s else A.name? a := by
  rw [intern, dif_neg hs, name?, name?]
  change (A.names ++ [s])[a]? = _
  rcases Nat.lt_trichotomy a A.size with hlt | rfl | hgt
  · rw [List.getElem?_append_left hlt, if_neg (Nat.ne_of_gt hlt)]
  · rw [if_pos rfl]
    exact List.getElem?_concat_length
  · have hnone : A.names[a]? = none := List.getElem?_eq_none (Nat.le_of_lt hgt)
    rw [if_neg (Nat.ne_of_lt hgt), hnone, List.getElem?_eq_none]
    rw [List.length_append]
    exact hgt

theorem size_intern_new {s : String} (hs : s ∉ A.names) : (A.intern s).size = A.size + 1 := by
  rw [intern, dif_neg hs, size, size, List.length_append]
  rfl

/-- Interning gives new numbers to new names only. -/
theorem id?_of_id?_internAll {names : List String} {name : String} {a : SymbolId}
    (h : (A.internAll names).id? name = some a) (ha : a < A.size) : A.id? name = some a := by
  obtain ⟨old, hold⟩ := exists_name ha
  have hname : (A.internAll names).name? a = some old := id?_eq_some_iff.1 (id?_internAll hold)
  rw [id?_eq_some_iff.1 h] at hname
  exact Option.some.inj hname ▸ hold

theorem size_le_intern (s : String) : A.size ≤ (A.intern s).size := by
  unfold intern
  split
  · exact Nat.le_refl _
  · simp [size]

theorem size_le_internAll (names : List String) : A.size ≤ (A.internAll names).size := by
  induction names generalizing A with
  | nil => exact Nat.le_refl _
  | cons s names ih => exact Nat.le_trans (size_le_intern s) ih

/-- New names come at the end, in their order. -/
theorem names_internAll {names : List String} (hnodup : names.Nodup) :
    (A.internAll names).names = A.names ++ names.filter fun s => !A.contains s := by
  induction names generalizing A with
  | nil => exact (List.append_nil _).symm
  | cons s names ih =>
    obtain ⟨hs, hrest⟩ := List.nodup_cons.1 hnodup
    change ((A.intern s).internAll names).names = _
    rw [ih hrest, intern]
    split
    · rename_i hold
      rw [List.filter_cons_of_neg (by simpa [contains] using hold)]
    · rename_i hnew
      have hsame : ∀ t ∈ names, (A.names ++ [s]).contains t = A.names.contains t := by
        intro t ht
        have hne : t ≠ s := fun he => hs (he ▸ ht)
        simp [hne]
      rw [List.filter_cons_of_pos (by simpa [contains] using hnew), List.append_assoc, List.singleton_append]
      refine congrArg (A.names ++ s :: ·) (List.filter_congr fun t ht => ?_)
      exact congrArg not (hsame t ht)

theorem names_ofNames {names : List String} (hnodup : names.Nodup) : (ofNames names).names = names := by
  rw [ofNames, names_internAll hnodup]
  exact List.filter_eq_self.2 fun _ _ => rfl

theorem size_ofNames {names : List String} (hnodup : names.Nodup) : (ofNames names).size = names.length := by
  rw [size, names_ofNames hnodup]

/-- More names take at least as many numbers. -/
theorem size_le_of_subset {B : Alphabet} (h : A.names ⊆ B.names) : A.size ≤ B.size :=
  (List.subperm_of_subset A.nodup h).length_le

theorem idOf_lt_size {name : String} (h : name ∈ A.names) : A.idOf name < A.size :=
  List.idxOf_lt_length_iff.2 h

theorem name?_idOf {name : String} (h : name ∈ A.names) : A.name? (A.idOf name) = some name := by
  rw [name?, idOf, List.getElem?_eq_getElem (List.idxOf_lt_length_iff.2 h), List.getElem_idxOf]

theorem idOf_of_id? {name : String} {a : SymbolId} (h : A.id? name = some a) : A.idOf name = a := by
  have hmem : name ∈ A.names := List.mem_of_getElem? (id?_eq_some_iff.1 h)
  exact Option.some.inj ((id?_eq_some_iff.2 (name?_idOf hmem)).symm.trans h)

theorem id?_idOf {name : String} (h : name ∈ A.names) : A.id? name = some (A.idOf name) :=
  id?_eq_some_iff.2 (name?_idOf h)

theorem resolve_idOf {name : String} (h : name ∈ A.names) :
    A.resolve (.symbol (A.idOf name)) = some (.symbol name) := by
  rw [resolve, name?_idOf h, Option.map_some]

end RegularLanguages.Alphabet
