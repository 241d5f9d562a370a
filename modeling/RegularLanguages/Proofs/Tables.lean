import RegularLanguages.Proofs.Exploration
import RegularLanguages.Proofs.Refinement
import RegularLanguages.Proofs.Runs

/-!
The table of an automaton stands for its reachable part: each row for a state or, the sink, for none, and
rows accept the same words exactly when the states behind them do.
-/
namespace RegularLanguages.Table

/-- The state behind a row. The sink stands for leading nowhere. -/
def state? (T : Table) (r : Nat) : Option State := (T.origins[r]?).join

/-- The rows of `T` lead to each other, and accept, as the states behind them do in `A`. -/
structure Represents (T : Table) (A : Automaton) (start : State) : Prop where
  numSymbols_eq : T.numSymbols = A.alphabet.size
  zero_lt : 0 < T.numRows
  closed : T.Closed
  length_targets : ∀ r < T.numRows, (T.targets[r]?.getD []).length = T.numSymbols
  state?_zero : T.state? 0 = some start
  state?_target : ∀ r < T.numRows, ∀ a < T.numSymbols,
    T.state? (T.target r a) = (T.state? r).bind fun q => A.next? q a
  contains_finals : ∀ r < T.numRows, T.finals.contains r = (T.state? r).any A.finals.contains

namespace Represents

variable {T : Table} {A : Automaton} {start : State}

theorem step?_state? (h : T.Represents A start) {r : Nat} (hr : r < T.numRows) {name : String}
    {a : SymbolId} (ha : A.alphabet.id? name = some a) :
    A.step? (T.state? r) name = T.state? (T.target r a) := by
  have hlt : a < T.numSymbols := h.numSymbols_eq ▸ Alphabet.lt_size_of_id? ha
  rw [h.state?_target r hr a hlt]
  simp [Automaton.step?, Automaton.nextByName?, ha]

private theorem equivalent_iff (h : T.Represents A start) {p q : Nat} (hp : p < T.numRows)
    (hq : q < T.numRows) :
    T.Equivalent p q ↔ ∀ word, A.acceptsFrom (T.state? p) word = A.acceptsFrom (T.state? q) word := by
  constructor
  · intro he word
    induction word generalizing p q with
    | nil =>
      have hfinals : T.finals.contains p = T.finals.contains q := he [] (by simp)
      rwa [h.contains_finals p hp, h.contains_finals q hq] at hfinals
    | cons name word ih =>
      rw [Automaton.acceptsFrom_cons, Automaton.acceptsFrom_cons]
      cases ha : A.alphabet.id? name with
      | none => rw [Automaton.step?_unknown ha, Automaton.step?_unknown ha]
      | some a =>
        have hlt : a < T.numSymbols := h.numSymbols_eq ▸ Alphabet.lt_size_of_id? ha
        rw [h.step?_state? hp ha, h.step?_state? hq ha]
        exact ih (h.closed.target_lt p hp a hlt) (h.closed.target_lt q hq a hlt) (he.target hlt)
  · intro he word hw
    induction word generalizing p q with
    | nil =>
      have hnil := he []
      rwa [Automaton.acceptsFrom_nil, Automaton.acceptsFrom_nil, ← h.contains_finals p hp,
        ← h.contains_finals q hq] at hnil
    | cons a word ih =>
      have hlt := hw a List.mem_cons_self
      obtain ⟨name, ha⟩ := Alphabet.exists_name (h.numSymbols_eq ▸ hlt)
      refine ih (h.closed.target_lt p hp a hlt) (h.closed.target_lt q hq a hlt) (fun rest => ?_)
        fun b hb => hw b (List.mem_cons_of_mem _ hb)
      have hcons := he (name :: rest)
      rwa [Automaton.acceptsFrom_cons, Automaton.acceptsFrom_cons, h.step?_state? hp ha,
        h.step?_state? hq ha] at hcons

/-- Refinement puts rows together exactly when the states behind them accept the same words. -/
theorem partOf_refine_eq_iff (h : T.Represents A start) {p q : Nat} (hp : p < T.numRows)
    (hq : q < T.numRows) :
    T.refine.partOf p = T.refine.partOf q ↔
      ∀ word, A.acceptsFrom (T.state? p) word = A.acceptsFrom (T.state? q) word :=
  (Table.partOf_refine_eq_iff h.closed hp hq).trans (h.equivalent_iff hp hq)

end Represents

section Construction

variable (A : Automaton) (start : State)

/-- The reachable states are the start and least targets of keys, so the bound on the search is never what
ends it. -/
theorem reached_complete : Exploration.Complete id (row A) start (reached A start) := by
  let U : Finset State := insert start
    (A.transitions.keys.map fun k => (A.transitions.table[k]?.bind StateSet.first?).getD 0).toFinset
  refine Exploration.explore_complete Function.injective_id U (fun q hq => ?_) ?_
  · induction hq with
    | refl => exact Finset.mem_insert_self _ _
    | @tail p q _ hstep =>
      obtain ⟨a, _, ha⟩ := List.mem_map.1 hstep
      refine Finset.mem_insert_of_mem (List.mem_toFinset.2 (List.mem_map.2 ⟨(p, .symbol a), ?_, ?_⟩))
      · rw [A.transitions.mem_keys, Std.ExtTreeMap.mem_iff_isSome_getElem?, Option.isSome_iff_ne_none]
        intro hnone
        simp [Automaton.next?, Transitions.get?, hnone] at ha
      · change (A.next? p a).getD 0 = q
        rw [ha]
        rfl
  · refine (Finset.card_insert_le _ _).trans (Nat.succ_le_succ ?_)
    exact (List.toFinset_card_le _).trans (List.length_map _).le

private def needsSink : Bool := (reached A start).rows.any fun r => r.any Option.isNone

private theorem numRows_ofStart : (ofStart A start).numRows =
    (reached A start).found.size + if needsSink A start then 1 else 0 := by
  change ((reached A start).found.map some ++ if needsSink A start then #[none] else #[]).size = _
  cases needsSink A start <;> simp

private theorem state?_ofStart (r : Nat) :
    (ofStart A start).state? r = (reached A start).found[r]? := by
  change (((reached A start).found.map some ++ if needsSink A start then #[none] else #[])[r]?).join = _
  rw [Array.getElem?_append, Array.size_map, Array.getElem?_map]
  split
  · rename_i h
    simp [h]
  · rename_i h
    have hnone : (reached A start).found[r]? = none := Array.getElem?_eq_none (Nat.not_lt.1 h)
    rw [hnone]
    cases needsSink A start with
    | false => simp
    | true => cases h' : r - (reached A start).found.size <;> simp

-- A row is that of a state, with the sink for what is missing, or that of the sink.
private theorem targets_ofStart {r : Nat} (hr : r < (ofStart A start).numRows) :
    (∃ q next, (reached A start).found[r]? = some q ∧ (reached A start).Locates next (row A q) ∧
      (none ∈ next → needsSink A start) ∧
      (ofStart A start).targets[r]? = some (next.map fun j => j.getD (reached A start).found.size)) ∨
    needsSink A start ∧ (reached A start).found[r]? = none ∧ (ofStart A start).targets[r]? =
      some (List.replicate A.alphabet.size (reached A start).found.size) := by
  have hE := reached_complete A start
  have htargets : (ofStart A start).targets =
      ((reached A start).rows.map fun next => next.map fun j => j.getD (reached A start).found.size) ++
        if needsSink A start then #[List.replicate A.alphabet.size (reached A start).found.size]
        else #[] := rfl
  rw [numRows_ofStart] at hr
  rw [htargets, Array.getElem?_append, Array.size_map, Array.getElem?_map, hE.rows_size]
  split
  · rename_i hlt
    have hq := Array.getElem?_eq_getElem hlt
    obtain ⟨next, hnext, hloc⟩ := hE.row hq
    refine Or.inl ⟨_, next, hq, hloc, fun hnone => ?_, by rw [hnext]; rfl⟩
    exact Array.any_eq_true'.2 ⟨next, Array.mem_of_getElem? hnext, List.any_eq_true.2 ⟨none, hnone, rfl⟩⟩
  · rename_i hge
    cases hsink : needsSink A start with
    | false => simp [hsink, hge] at hr
    | true =>
      rw [hsink, if_pos rfl] at hr
      have hlast : r - (reached A start).found.size = 0 := by omega
      refine Or.inr ⟨rfl, Array.getElem?_eq_none (Nat.not_lt.1 hge), ?_⟩
      rw [hlast]
      rfl

private theorem length_targets_ofStart {r : Nat} (hr : r < (ofStart A start).numRows) :
    ((ofStart A start).targets[r]?.getD []).length = A.alphabet.size := by
  rcases targets_ofStart A start hr with ⟨q, next, _, hloc, _, htargets⟩ | ⟨_, _, htargets⟩
  · have hlen := List.Forall₂.length_eq hloc
    simpa [htargets, Table.row, Alphabet.ids] using hlen
  · simp [htargets]

-- A state leads on as in the automaton, and the sink leads to itself.
private theorem target_ofStart {r a : Nat} (hr : r < (ofStart A start).numRows)
    (ha : a < A.alphabet.size) :
    (ofStart A start).target r a < (ofStart A start).numRows ∧
      (ofStart A start).state? ((ofStart A start).target r a) =
        ((ofStart A start).state? r).bind fun q => A.next? q a := by
  rw [numRows_ofStart, state?_ofStart, state?_ofStart, target]
  rcases targets_ofStart A start hr with ⟨q, next, hq, hloc, hnone, htargets⟩ | ⟨hsink, hq, htargets⟩
  · have hrel := hloc.getElem? a
    have hrow : (row A q)[a]? = some (A.next? q a) := by simp [row, Alphabet.ids, ha]
    rw [hrow] at hrel
    simp only [htargets, hq, Option.getD_some, Option.bind_some, List.getElem?_map]
    generalize hj : next[a]? = j at hrel
    generalize A.next? q a = s at hrel
    cases hrel with
    | some hrel =>
      cases hrel with
      | none => simp [hnone (List.mem_of_getElem? hj)]
      | some hs =>
        have hlt := (Array.getElem?_eq_some_iff.1 hs).1
        simp only [Option.map_some, Option.getD_some, hs, and_true]
        omega
  · simp [htargets, hsink, hq, ha]

theorem ofStart_represents : (ofStart A start).Represents A start := by
  have hE := reached_complete A start
  have hpos := (Array.getElem?_eq_some_iff.1 hE.first).1
  refine ⟨rfl, ?_, ⟨fun r hr a ha => (target_ofStart A start hr ha).1, fun r hr => ?_⟩,
    fun r hr => length_targets_ofStart A start hr, ?_,
    fun r hr a ha => (target_ofStart A start hr ha).2, fun r hr => ?_⟩
  · rw [numRows_ofStart]
    omega
  · have hbelow : (StateSet.below (ofStart A start).numRows _).contains r = true := hr
    rw [StateSet.contains_below, Bool.and_eq_true, decide_eq_true_eq] at hbelow
    exact hbelow.1
  · rw [state?_ofStart]
    exact hE.first
  · change (StateSet.below (ofStart A start).numRows
      fun r => (((ofStart A start).state? r).map A.finals.contains).getD false).contains r = _
    rw [StateSet.contains_below, decide_eq_true hr]
    cases (ofStart A start).state? r <;> rfl

end Construction

theorem exists_represents {A : Automaton} {T : Table} (h : ofAutomaton A = .ok T) : ∃ start, T.Represents A start := by
  rw [ofAutomaton] at h
  split at h
  · split at h
    · rename_i start _
      exact ⟨start, Except.ok.inj h ▸ ofStart_represents A start⟩
    · cases h
  · cases h

end RegularLanguages.Table
