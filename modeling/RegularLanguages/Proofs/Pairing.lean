import RegularLanguages.Automaton.Equivalence
import RegularLanguages.Proofs.Runs

/-!
The walk over pairs of states. A finished walk has found a bisimulation, and a walk along a bisimulation in which
partners are unique meets no conflict.
-/
namespace RegularLanguages

namespace Pairing

/-- The maps hold the pairs found, and no state of the first automaton is found twice. -/
structure Consistent (P : Pairing) : Prop where
  forward_iff : ∀ p q, P.forward[p]? = some q ↔ (p, q) ∈ P.found
  backward_iff : ∀ p q, P.backward[q]? = some p ↔ (p, q) ∈ P.found
  nodup : (P.found.toList.map Prod.fst).Nodup

/-- `Q` is `P` with more pairs, all of them among `targets`. -/
structure Grows (targets : List (Option State × Option State)) (P Q : Pairing) : Prop where
  consistent : Q.Consistent
  expanded_eq : Q.expanded = P.expanded
  kept : ∀ (i : Nat) (e : State × State), P.found[i]? = some e → Q.found[i]? = some e
  new : ∀ p q, (p, q) ∈ Q.found → (p, q) ∈ P.found ∨ (some p, some q) ∈ targets

/-- Both states are missing, or they are partners. -/
def Matches (P : Pairing) : Option State → Option State → Prop := Option.Rel fun p q => (p, q) ∈ P.found

variable {P Q : Pairing}

theorem Matches.mono (h : ∀ (i : Nat) (e : State × State), P.found[i]? = some e → Q.found[i]? = some e)
    {p q : Option State} (hpq : P.Matches p q) : Q.Matches p q := by
  cases hpq with
  | none => exact .none
  | some hpq =>
    obtain ⟨i, hi⟩ := Array.mem_iff_getElem?.1 hpq
    exact .some (Array.mem_of_getElem? (h i _ hi))

private theorem start_consistent (p q : State) : (start p q).Consistent := by
  refine ⟨fun r s => ?_, fun r s => ?_, List.nodup_singleton p⟩
  · simp only [start, Std.ExtTreeMap.getElem?_insert, Std.LawfulEqCmp.compare_eq_iff_eq]
    by_cases hr : p = r <;> simp [hr, eq_comm]
  · simp only [start, Std.ExtTreeMap.getElem?_insert, Std.LawfulEqCmp.compare_eq_iff_eq]
    by_cases hs : q = s <;> simp [hs, eq_comm]

private theorem push_consistent (hP : P.Consistent) {p q : State} (hp : P.forward[p]? = none)
    (hq : P.backward[q]? = none) : Consistent { P with
      found := P.found.push (p, q)
      forward := P.forward.insert p q
      backward := P.backward.insert q p } := by
  have hnew : ∀ r, (p, r) ∉ P.found := fun r hr => by
    rw [(hP.forward_iff p r).2 hr] at hp
    cases hp
  have hnew' : ∀ r, (r, q) ∉ P.found := fun r hr => by
    rw [(hP.backward_iff r q).2 hr] at hq
    cases hq
  refine ⟨fun r s => ?_, fun r s => ?_, ?_⟩
  · simp only [Std.ExtTreeMap.getElem?_insert, Std.LawfulEqCmp.compare_eq_iff_eq, Array.mem_push]
    split
    · rename_i he
      subst he
      simp [hnew, eq_comm]
    · rename_i hne
      simp [hP.forward_iff, Ne.symm hne]
  · simp only [Std.ExtTreeMap.getElem?_insert, Std.LawfulEqCmp.compare_eq_iff_eq, Array.mem_push]
    split
    · rename_i he
      subst he
      simp [hnew', eq_comm]
    · rename_i hne
      simp [hP.backward_iff, Ne.symm hne]
  · rw [Array.toList_push, List.map_append]
    refine List.nodup_append.2 ⟨hP.nodup, List.nodup_singleton p, fun r hr s hs he => ?_⟩
    obtain ⟨⟨_, t⟩, hmem, rfl⟩ := List.mem_map.1 hr
    obtain rfl : s = p := by simpa using hs
    exact hnew t (Array.mem_toList_iff.1 (he ▸ hmem))

theorem visit?_spec (hP : P.Consistent) {p q : State} (h : P.visit? p q = some Q) :
    Grows [(some p, some q)] P Q ∧ (p, q) ∈ Q.found := by
  unfold visit? at h
  split at h
  · rename_i hp hq
    cases h
    refine ⟨⟨push_consistent hP hp hq, rfl, fun i e he => ?_, fun r s hrs => ?_⟩, by simp⟩
    · have hlt := (Array.getElem?_eq_some_iff.1 he).1
      rw [Array.getElem?_push, if_neg (by omega), he]
    · simpa using hrs
  · rename_i q' p' hp hq
    split at h
    · rename_i he
      cases h
      obtain ⟨rfl, rfl⟩ := he
      exact ⟨⟨hP, rfl, fun _ _ => id, fun _ _ => Or.inl⟩, (hP.forward_iff _ _).1 hp⟩
    · cases h
  · cases h

theorem visitAll?_spec (hP : P.Consistent) {targets : List (Option State × Option State)}
    (h : P.visitAll? targets = some Q) : Grows targets P Q ∧ ∀ t ∈ targets, Q.Matches t.1 t.2 := by
  induction targets generalizing P with
  | nil =>
    cases h
    exact ⟨⟨hP, rfl, fun _ _ => id, fun _ _ => Or.inl⟩, by simp⟩
  | cons t rest ih =>
    match t with
    | (none, none) =>
      obtain ⟨hg, hm⟩ := ih hP h
      refine ⟨⟨hg.consistent, hg.expanded_eq, hg.kept, fun p q hpq => ?_⟩, fun t ht => ?_⟩
      · exact (hg.new p q hpq).imp_right (List.mem_cons_of_mem _)
      · rcases List.mem_cons.1 ht with rfl | ht
        · exact .none
        · exact hm t ht
    | (some p, some q) =>
      obtain ⟨R, hR, hQ⟩ := Option.bind_eq_some_iff.1 h
      obtain ⟨hg, hpq⟩ := visit?_spec hP hR
      obtain ⟨hg', hm⟩ := ih hg.consistent hQ
      refine ⟨⟨hg'.consistent, hg'.expanded_eq.trans hg.expanded_eq,
        fun i e he => hg'.kept i e (hg.kept i e he), fun r s hrs => ?_⟩, fun t ht => ?_⟩
      · rcases hg'.new r s hrs with hrs | hrs
        · exact (hg.new r s hrs).imp_right fun h => List.mem_cons.2 (Or.inl (List.mem_singleton.1 h))
        · exact Or.inr (List.mem_cons_of_mem _ hrs)
      · rcases List.mem_cons.1 ht with rfl | ht
        · exact Matches.mono hg'.kept (.some hpq)
        · exact hm t ht
    | (some p, none) => simp [visitAll?] at h
    | (none, some q) => simp [visitAll?] at h

section Partners

variable {R : State → State → Prop} (hright : ∀ p q q', R p q → R p q' → q = q')
  (hleft : ∀ p p' q, R p q → R p' q → p = p')

include hright hleft

private theorem exists_visit? (hP : P.Consistent) (hfound : ∀ p q, (p, q) ∈ P.found → R p q) {p q : State}
    (hpq : R p q) : ∃ Q, P.visit? p q = some Q := by
  unfold visit?
  cases hp : P.forward[p]? with
  | none =>
    cases hq : P.backward[q]? with
    | none => exact ⟨_, rfl⟩
    | some p' =>
      have hmem := (hP.backward_iff p' q).1 hq
      obtain rfl := hleft p' p q (hfound p' q hmem) hpq
      rw [(hP.forward_iff p' q).2 hmem] at hp
      cases hp
  | some q' =>
    have hmem := (hP.forward_iff p q').1 hp
    obtain rfl := hright p q' q (hfound p q' hmem) hpq
    rw [(hP.backward_iff p q').2 hmem]
    exact ⟨P, by simp⟩

private theorem exists_visitAll? (hP : P.Consistent) (hfound : ∀ p q, (p, q) ∈ P.found → R p q)
    {targets : List (Option State × Option State)} (ht : ∀ t ∈ targets, Option.Rel R t.1 t.2) :
    ∃ Q, P.visitAll? targets = some Q := by
  induction targets generalizing P with
  | nil => exact ⟨P, rfl⟩
  | cons t rest ih =>
    obtain ⟨p, q⟩ := t
    have hrest : ∀ t ∈ rest, Option.Rel R t.1 t.2 := fun t h => ht t (List.mem_cons_of_mem _ h)
    have hpq : Option.Rel R p q := ht (p, q) List.mem_cons_self
    cases hpq with
    | none => exact ih hP hfound hrest
    | @some p q hpq =>
      obtain ⟨Q, hQ⟩ := exists_visit? hright hleft hP hfound hpq
      obtain ⟨hg, _⟩ := visit?_spec hP hQ
      have hfound' : ∀ r s, (r, s) ∈ Q.found → R r s := fun r s hrs => by
        rcases hg.new r s hrs with hrs | hrs
        · exact hfound r s hrs
        · obtain ⟨rfl, rfl⟩ : r = p ∧ s = q := by simpa using hrs
          exact hpq
      rw [visitAll?, hQ]
      exact ih hg.consistent hfound' hrest

end Partners

end Pairing

namespace Automaton

open Pairing

variable {M N : Automaton} {P Q : Pairing}

/-- What holds of the walk from a pair of states: partners that have been expanded are both final or both not,
and lead to partners. -/
structure Walk (M N : Automaton) (p₀ q₀ : State) (P : Pairing) : Prop where
  consistent : P.Consistent
  first : P.found[0]? = some (p₀, q₀)
  expanded_le : P.expanded ≤ P.found.size
  expanded : ∀ i < P.expanded, ∀ p q, P.found[i]? = some (p, q) →
    M.finals.contains p = N.finals.contains q ∧
      ∀ name ∈ M.alphabet.names, P.Matches (M.nextByName? p name) (N.nextByName? q name)

theorem start_walk (p q : State) : M.Walk N p q (start p q) :=
  ⟨start_consistent p q, rfl, Nat.zero_le _, fun _ hi => absurd hi (Nat.not_lt_zero _)⟩

/-- Expanding one pair keeps what holds. -/
theorem expand_walk {p₀ q₀ p q : State} (hP : M.Walk N p₀ q₀ P) (hpq : P.found[P.expanded]? = some (p, q))
    (hfinal : M.finals.contains p = N.finals.contains q)
    (hQ : P.visitAll? (M.jointTargets N p q) = some Q) :
    M.Walk N p₀ q₀ { Q with expanded := Q.expanded + 1 } := by
  obtain ⟨hg, hm⟩ := visitAll?_spec hP.consistent hQ
  have hconsistent : Consistent { Q with expanded := Q.expanded + 1 } :=
    ⟨hg.consistent.forward_iff, hg.consistent.backward_iff, hg.consistent.nodup⟩
  refine ⟨hconsistent, hg.kept _ _ hP.first, ?_, fun i hi r s hrs => ?_⟩
  · change Q.expanded + 1 ≤ Q.found.size
    rw [hg.expanded_eq]
    exact (Array.getElem?_eq_some_iff.1 (hg.kept _ _ hpq)).1
  · change Q.found[i]? = some (r, s) at hrs
    change i < Q.expanded + 1 at hi
    rw [hg.expanded_eq] at hi
    rcases Nat.lt_succ_iff_lt_or_eq.1 hi with hi | rfl
    · have hlt : i < P.found.size := Nat.lt_of_lt_of_le hi hP.expanded_le
      have hold := Array.getElem?_eq_getElem hlt
      have he := Option.some.inj ((hg.kept _ _ hold).symm.trans hrs)
      rw [he] at hold
      obtain ⟨hf, hnext⟩ := hP.expanded i hi r s hold
      exact ⟨hf, fun name hname => Matches.mono hg.kept (hnext name hname)⟩
    · cases (hg.kept _ _ hpq).symm.trans hrs
      refine ⟨hfinal, fun name hname => ?_⟩
      exact hm _ (List.mem_map.2 ⟨name, hname, rfl⟩)

/-- The walk stops when all pairs are expanded, or after as many pairs as it may expand. -/
theorem pairFrom?_walk {p₀ q₀ : State} (steps : Nat) (hP : M.Walk N p₀ q₀ P)
    (h : M.pairFrom? N steps P = some Q) :
    M.Walk N p₀ q₀ Q ∧ (Q.expanded = Q.found.size ∨ Q.expanded = P.expanded + steps) := by
  induction steps generalizing P with
  | zero =>
    cases h
    exact ⟨hP, Or.inr rfl⟩
  | succ steps ih =>
    rw [pairFrom?] at h
    split at h
    · rename_i hnone
      cases h
      exact ⟨hP, Or.inl (Nat.le_antisymm hP.expanded_le (Array.getElem?_eq_none_iff.1 hnone))⟩
    · rename_i p q hpq
      split at h
      · rename_i hfinal
        obtain ⟨R, hR, h⟩ := Option.bind_eq_some_iff.1 h
        have hexpanded := (visitAll?_spec hP.consistent hR).1.expanded_eq
        obtain ⟨hQ, hstop⟩ := ih (expand_walk hP hpq hfinal hR) h
        refine ⟨hQ, hstop.imp_right fun he => ?_⟩
        rw [he]
        change R.expanded + 1 + steps = _
        omega
      · cases h

theorem Walk.of_found {p₀ q₀ p q : State} (hP : M.Walk N p₀ q₀ P) (hdone : P.expanded = P.found.size)
    (hpq : (p, q) ∈ P.found) : M.finals.contains p = N.finals.contains q ∧
      ∀ name ∈ M.alphabet.names, P.Matches (M.nextByName? p name) (N.nextByName? q name) := by
  obtain ⟨i, hi⟩ := Array.mem_iff_getElem?.1 hpq
  exact hP.expanded i (hdone ▸ (Array.getElem?_eq_some_iff.1 hi).1) p q hi

/-- In a finished walk words lead from partners to partners. -/
theorem Walk.after?_matches {p₀ q₀ : State} (hP : M.Walk N p₀ q₀ P) (hdone : P.expanded = P.found.size)
    (hnames : ∀ name, name ∈ N.alphabet.names → name ∈ M.alphabet.names) (word : List String)
    {p q : Option State} (hpq : P.Matches p q) : P.Matches (M.after? p word) (N.after? q word) := by
  induction word generalizing p q with
  | nil => exact hpq
  | cons name word ih =>
    apply ih
    cases hpq with
    | none => exact .none
    | @some p q hpq =>
      by_cases hname : name ∈ M.alphabet.names
      · exact (hP.of_found hdone hpq).2 name hname
      · rw [step?_unknown (Alphabet.id?_eq_none_iff.2 hname),
          step?_unknown (Alphabet.id?_eq_none_iff.2 (mt (hnames name) hname))]
        exact .none

theorem Walk.acceptsFrom_eq {p₀ q₀ : State} (hP : M.Walk N p₀ q₀ P) (hdone : P.expanded = P.found.size)
    (hnames : ∀ name, name ∈ N.alphabet.names → name ∈ M.alphabet.names) (word : List String) :
    M.acceptsFrom (some p₀) word = N.acceptsFrom (some q₀) word := by
  have hstart : P.Matches (some p₀) (some q₀) := .some (Array.mem_of_getElem? hP.first)
  have hafter := hP.after?_matches hdone hnames word hstart
  rw [acceptsFrom, acceptsFrom]
  generalize M.after? (some p₀) word = p at hafter
  generalize N.after? (some q₀) word = q at hafter
  cases hafter with
  | none => rfl
  | some hpq => exact (hP.of_found hdone hpq).1

/-- A walk along a relation that is a bisimulation, and in which partners are unique, meets no conflict. -/
theorem exists_pairFrom? {R : State → State → Prop} {p₀ q₀ : State}
    (hright : ∀ p q q', R p q → R p q' → q = q') (hleft : ∀ p p' q, R p q → R p' q → p = p')
    (hfinal : ∀ p q, R p q → M.finals.contains p = N.finals.contains q)
    (hnext : ∀ p q name, R p q → Option.Rel R (M.nextByName? p name) (N.nextByName? q name))
    (steps : Nat) (hP : M.Walk N p₀ q₀ P) (hfound : ∀ p q, (p, q) ∈ P.found → R p q) :
    ∃ Q, M.pairFrom? N steps P = some Q ∧ ∀ p q, (p, q) ∈ Q.found → R p q := by
  induction steps generalizing P with
  | zero => exact ⟨P, rfl, hfound⟩
  | succ steps ih =>
    rw [pairFrom?]
    cases hpq : P.found[P.expanded]? with
    | none => exact ⟨P, rfl, hfound⟩
    | some e =>
      obtain ⟨p, q⟩ := e
      have hR := hfound p q (Array.mem_of_getElem? hpq)
      have htargets : ∀ t ∈ M.jointTargets N p q, Option.Rel R t.1 t.2 := fun t ht => by
        obtain ⟨name, _, rfl⟩ := List.mem_map.1 ht
        exact hnext p q name hR
      obtain ⟨Q, hQ⟩ := exists_visitAll? hright hleft hP.consistent hfound htargets
      simp only [hfinal p q hR, if_true, hQ, Option.bind_some]
      apply ih (expand_walk hP hpq (hfinal p q hR) hQ)
      intro r s hrs
      rcases (visitAll?_spec hP.consistent hQ).1.new r s hrs with hrs | hrs
      · exact hfound r s hrs
      · have hrel := htargets _ hrs
        cases hrel with
        | some hrel => exact hrel

end Automaton

end RegularLanguages
