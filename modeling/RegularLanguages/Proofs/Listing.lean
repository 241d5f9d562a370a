import Mathlib.Data.List.Basic
import Mathlib.Data.List.Nodup
import RegularLanguages.Proofs.Relation

/-!
The list of a relation tells all about it: relations with equal lists have the same keys in the same order, and the same
targets under each. Only the bounds above their targets may differ, and no operation shows these.
-/
namespace RegularLanguages.Transitions

variable {T U : Transitions}

def steps (e : TransitionKey × StateSet) : List Transition := e.2.toList.map fun target => ⟨e.1.1, e.1.2, target⟩

theorem key_of_mem_steps {e : TransitionKey × StateSet} {t : Transition} (h : t ∈ steps e) :
    (t.source, t.label) = e.1 := by
  obtain ⟨target, _, rfl⟩ := List.mem_map.1 h
  rfl

theorem exists_steps_eq_cons {e : TransitionKey × StateSet} (h : e.2.isEmpty = false) :
    ∃ t rest, steps e = t :: rest := by
  obtain ⟨q, hq⟩ := StateSet.isEmpty_eq_false_iff.1 h
  exact List.exists_cons_of_ne_nil (List.ne_nil_of_mem (List.mem_map.2 ⟨q, StateSet.mem_toList.2 hq, rfl⟩))

/-- The transitions of one key are those that the key picks out of a list in which only the first entry has the key. -/
theorem filter_key {e : TransitionKey × StateSet} {es : List (TransitionKey × StateSet)}
    (hnew : e.1 ∉ es.map (·.1)) :
    (steps e ++ es.flatMap steps).filter (fun t => (t.source, t.label) = e.1) = steps e := by
  have hall : (steps e).filter (fun t => (t.source, t.label) = e.1) = steps e :=
    List.filter_eq_self.2 fun t ht => decide_eq_true (key_of_mem_steps ht)
  have hnone : (es.flatMap steps).filter (fun t => (t.source, t.label) = e.1) = [] := by
    refine List.filter_eq_nil_iff.2 fun t ht => ?_
    obtain ⟨f, hf, htf⟩ := List.mem_flatMap.1 ht
    rw [decide_eq_true_eq, key_of_mem_steps htf]
    exact fun he => hnew (he ▸ List.mem_map.2 ⟨f, hf, rfl⟩)
  rw [List.filter_append, hall, hnone, List.append_nil]

private theorem steps_inj {e f : TransitionKey × StateSet} (hkey : e.1 = f.1) (h : steps e = steps f) : e = f := by
  have htargets := congrArg (List.map Transition.target) h
  simp only [steps, List.map_map, Function.comp_def, List.map_id'] at htargets
  refine Prod.ext hkey ?_
  rw [← StateSet.ofList_toList e.2, htargets, StateSet.ofList_toList]

private theorem entries_eq_of_flatMap {es fs : List (TransitionKey × StateSet)} (hes : (es.map (·.1)).Nodup)
    (hfs : (fs.map (·.1)).Nodup) (hne : ∀ e ∈ es, e.2.isEmpty = false) (hnf : ∀ f ∈ fs, f.2.isEmpty = false)
    (h : es.flatMap steps = fs.flatMap steps) : es = fs := by
  induction es generalizing fs with
  | nil =>
    cases fs with
    | nil => rfl
    | cons f fs =>
      obtain ⟨t, rest, ht⟩ := exists_steps_eq_cons (hnf f List.mem_cons_self)
      simp [ht] at h
  | cons e es ih =>
    obtain ⟨hnew, hes⟩ := List.nodup_cons.1 hes
    obtain ⟨hfirst, hne⟩ := List.forall_mem_cons.1 hne
    obtain ⟨t, rest, ht⟩ := exists_steps_eq_cons hfirst
    cases fs with
    | nil => simp [ht] at h
    | cons f fs =>
      obtain ⟨hnew', hfs⟩ := List.nodup_cons.1 hfs
      obtain ⟨hfirst', hnf⟩ := List.forall_mem_cons.1 hnf
      obtain ⟨u, rest', hu⟩ := exists_steps_eq_cons hfirst'
      rw [List.flatMap_cons, List.flatMap_cons] at h
      have hhead : t = u := by
        rw [ht, hu, List.cons_append, List.cons_append] at h
        exact (List.cons.inj h).1
      have hkey : e.1 = f.1 := by
        rw [← key_of_mem_steps (ht ▸ List.mem_cons_self : t ∈ steps e), hhead,
          key_of_mem_steps (hu ▸ List.mem_cons_self : u ∈ steps f)]
      have hsteps : steps e = steps f := by
        rw [← filter_key hnew, ← filter_key hnew', h, hkey]
      rw [hsteps] at h
      rw [steps_inj hkey hsteps, ih hes hfs hne hnf (List.append_cancel_left h)]

/-- Every key has an entry. -/
theorem map_fst_entries (T : Transitions) : T.entries.map (·.1) = T.keys.reverse := by
  rw [entries, List.map_filterMap]
  refine (List.filterMap_congr fun k hk => ?_).trans List.filterMap_some
  obtain ⟨S, hS⟩ := Option.isSome_iff_exists.1
    (Std.ExtTreeMap.mem_iff_isSome_getElem?.1 ((T.mem_keys k).1 (List.mem_reverse.1 hk)))
  simp [hS]

theorem nodup_keys_entries (T : Transitions) : (T.entries.map (·.1)).Nodup := by
  rw [map_fst_entries]
  exact List.nodup_reverse.2 T.nodup

/-- No transition is listed twice. -/
theorem nodup_toList (T : Transitions) : T.toList.Nodup := by
  refine List.nodup_flatMap.2 ⟨fun e _ => e.2.nodup_toList.map fun q r h => ?_, ?_⟩
  · exact congrArg Transition.target h
  · refine (List.pairwise_map.1 T.nodup_keys_entries).imp fun {e f} hne t he hf => hne ?_
    exact (key_of_mem_steps he).symm.trans (key_of_mem_steps hf)

/-- Relations with the same transitions have lists that differ in their order only. -/
theorem toList_perm_iff : T.toList.Perm U.toList ↔ ∀ q l r, T.contains q l r ↔ U.contains q l r := by
  rw [List.perm_ext_iff_of_nodup T.nodup_toList U.nodup_toList]
  simp only [mem_toList]
  exact ⟨fun h q l r => h ⟨q, l, r⟩, fun h t => h t.source t.label t.target⟩

/-- The number of transitions is the length of their list. -/
theorem size_eq_length_toList (T : Transitions) : T.size = T.toList.length := by
  have hsum : ∀ (es : List (TransitionKey × StateSet)) (n : Nat),
      es.foldl (fun n e => n + e.2.card) n = n + (es.flatMap steps).length := by
    intro es
    induction es with
    | nil => exact fun n => (Nat.add_zero n).symm
    | cons e es ih =>
      intro n
      rw [List.foldl_cons, ih, List.flatMap_cons, List.length_append, steps, List.length_map, StateSet.length_toList,
        Nat.add_assoc]
  exact (hsum T.entries 0).trans (Nat.zero_add _)

theorem size_add_of_new {q r : State} {l : Label SymbolId} (h : ¬ T.contains q l r) :
    (T.add q l r).size = T.size + 1 := by
  have hnodup : ((⟨q, l, r⟩ : Transition) :: T.toList).Nodup := List.nodup_cons.2 ⟨mt mem_toList.1 h, T.nodup_toList⟩
  have hperm : (T.add q l r).toList.Perm (⟨q, l, r⟩ :: T.toList) := by
    refine (List.perm_ext_iff_of_nodup (T.add q l r).nodup_toList hnodup).2 fun ⟨p, k, s⟩ => ?_
    rw [mem_toList, contains_add, List.mem_cons, mem_toList, or_comm, Transition.mk.injEq]
  rw [size_eq_length_toList, size_eq_length_toList, hperm.length_eq, List.length_cons]

/-- Each of the transitions that are added counts if all of them are new. -/
theorem size_addAll_of_new {ts : List Transition} (hnodup : ts.Nodup)
    (hnew : ∀ t ∈ ts, ¬ T.contains t.source t.label t.target) : (T.addAll ts).size = T.size + ts.length := by
  induction ts generalizing T with
  | nil => rfl
  | cons t ts ih =>
    obtain ⟨hfirst, hrest⟩ := List.nodup_cons.1 hnodup
    obtain ⟨hhead, htail⟩ := List.forall_mem_cons.1 hnew
    have hstill : ∀ s ∈ ts, ¬ (T.add t.source t.label t.target).contains s.source s.label s.target := by
      rintro ⟨p, k, r⟩ hs h
      rcases contains_add.1 h with h | ⟨rfl, rfl, rfl⟩
      · exact htail _ hs h
      · exact hfirst hs
    change ((T.add t.source t.label t.target).addAll ts).size = _
    rw [ih hrest hstill, size_add_of_new hhead, List.length_cons, Nat.add_assoc, Nat.add_comm 1]

/-- A transition with a new key is listed last. -/
theorem toList_add_of_new {q r : State} {l : Label SymbolId} (h : (q, l) ∉ T.keys) :
    (T.add q l r).toList = T.toList ++ [⟨q, l, r⟩] := by
  have htable : (q, l) ∉ T.table := mt (T.mem_keys (q, l)).2 h
  have htargets : (T.targets q l).insert r = .singleton r := by
    rw [targets, get?, Std.ExtTreeMap.getElem?_eq_none htable]
    exact StateSet.ext fun p => by simp
  have hget : ∀ k, (T.add q l r).table[k]? = if (q, l) = k then some (.singleton r) else T.table[k]? := by
    intro k
    rw [← htargets]
    refine Std.ExtTreeMap.getElem?_insert.trans ?_
    simp only [Std.LawfulEqCmp.compare_eq_iff_eq]
  have hkeys : (T.add q l r).keys = (q, l) :: T.keys := if_neg htable
  have hentries : (T.add q l r).entries = T.entries ++ [((q, l), .singleton r)] := by
    rw [entries, hkeys, List.reverse_cons, List.filterMap_append, entries]
    refine congrArg₂ _ (List.filterMap_congr fun k hk => ?_) ?_
    · have hne : (q, l) ≠ k := fun he => h (he ▸ List.mem_reverse.1 hk)
      rw [hget, if_neg hne]
    · simp [hget]
  rw [toList, hentries, List.flatMap_append, toList]
  simp

/-- Transitions with different keys are listed as they are added. -/
theorem toList_ofList {ts : List Transition} (h : (ts.map fun t => (t.source, t.label)).Nodup) :
    (ofList ts).toList = ts := by
  suffices hadd : ∀ T : Transitions, (∀ t ∈ ts, (t.source, t.label) ∉ T.keys) →
      (T.addAll ts).toList = T.toList ++ ts from hadd ∅ fun _ _ => List.not_mem_nil
  induction ts with
  | nil => exact fun T _ => (List.append_nil _).symm
  | cons t ts ih =>
    intro T hnew
    obtain ⟨hfirst, hrest⟩ := List.nodup_cons.1 h
    change ((T.add t.source t.label t.target).addAll ts).toList = _
    rw [ih hrest, toList_add_of_new (hnew t List.mem_cons_self), List.append_assoc, List.singleton_append]
    intro s hs hkey
    obtain ⟨r, hr⟩ := mem_keys_iff.1 hkey
    rcases contains_add.1 hr with hr | ⟨hsource, hlabel, _⟩
    · exact hnew s (List.mem_cons_of_mem _ hs) (mem_keys_iff.2 ⟨r, hr⟩)
    · exact hfirst (List.mem_map.2 ⟨s, hs, Prod.ext hsource hlabel⟩)

/-- Equal but for the bounds. -/
structure Same (T U : Transitions) : Prop where
  keys_eq : T.keys = U.keys
  table_eq : T.table = U.table

namespace Same

theorem get?_eq (h : T.Same U) (q : State) (l : Label SymbolId) : T.get? q l = U.get? q l := by
  rw [get?, get?, h.table_eq]

theorem targets_eq (h : T.Same U) (q : State) (l : Label SymbolId) : T.targets q l = U.targets q l := by
  rw [targets, targets, h.get?_eq]

theorem contains_eq (h : T.Same U) (q : State) (l : Label SymbolId) (r : State) :
    T.contains q l r = U.contains q l r := by
  rw [contains, contains, h.targets_eq]

theorem entries_eq (h : T.Same U) : T.entries = U.entries := by
  rw [entries, entries, h.keys_eq, h.table_eq]

theorem toList_eq (h : T.Same U) : T.toList = U.toList := by
  rw [toList, toList, h.entries_eq]

theorem isDeterministic_eq (h : T.Same U) : T.isDeterministic = U.isDeterministic := by
  rw [isDeterministic, isDeterministic, h.entries_eq]

theorem add (h : T.Same U) (q : State) (l : Label SymbolId) (r : State) : (T.add q l r).Same (U.add q l r) where
  keys_eq := by
    change (if (q, l) ∈ T.table then T.keys else (q, l) :: T.keys) =
      if (q, l) ∈ U.table then U.keys else (q, l) :: U.keys
    rw [h.keys_eq, h.table_eq]
  table_eq := by
    change T.table.insert (q, l) ((T.targets q l).insert r) = U.table.insert (q, l) ((U.targets q l).insert r)
    rw [h.table_eq, h.targets_eq]

theorem addAll (h : T.Same U) (ts : List Transition) : (T.addAll ts).Same (U.addAll ts) := by
  induction ts generalizing T U with
  | nil => exact h
  | cons t ts ih => exact ih (h.add t.source t.label t.target)

end Same

/-- Relations with equal lists are the same. -/
theorem same_of_toList_eq (h : T.toList = U.toList) : T.Same U := by
  have hinhabited : ∀ V : Transitions, ∀ e ∈ V.entries, e.2.isEmpty = false :=
    fun V e he => V.inhabited e.1 e.2 (mem_entries.1 he)
  have hentries : T.entries = U.entries :=
    entries_eq_of_flatMap T.nodup_keys_entries U.nodup_keys_entries (hinhabited T) (hinhabited U) h
  refine ⟨List.reverse_injective ?_, Std.ExtTreeMap.ext_getElem? fun k => Option.ext fun S => ?_⟩
  · rw [← map_fst_entries, ← map_fst_entries, hentries]
  · rw [← mem_entries, ← mem_entries, hentries]

end RegularLanguages.Transitions
