import Mathlib.Data.List.Shortlex
import RegularLanguages.Automaton.Words
import RegularLanguages.Proofs.Derived
import RegularLanguages.Proofs.Reachability

/-!
The list of accepted words. The queue passes through layers, each of which holds all words of one length that lead to a
live state, in the order of the symbols; and no accepted word has a prefix that leads elsewhere.
-/
namespace RegularLanguages

private theorem lex_append {α : Type} {r : α → α → Prop} {s t : List α} (h : List.Lex r s t)
    (hlength : s.length = t.length) (u v : List α) : List.Lex r (s ++ u) (t ++ v) := by
  induction h with
  | nil => cases hlength
  | cons _ ih => exact .cons (ih (Nat.succ.inj hlength))
  | rel hab => exact .rel hab

/-- Whether one word comes before another: shorter words do, and of words of one length the one whose symbol was
registered earlier where they first differ. -/
def Alphabet.Precedes (A : Alphabet) : List String → List String → Prop :=
  List.Shortlex fun s t => A.idOf s < A.idOf t

private theorem Alphabet.not_precedes_self (A : Alphabet) (word : List String) : ¬ A.Precedes word word := by
  rintro h
  rcases List.shortlex_def.1 h with hlt | ⟨_, hlex⟩
  · exact Nat.lt_irrefl _ hlt
  · have hirrefl : ∀ s, ¬ A.idOf s < A.idOf s := fun _ => Nat.lt_irrefl _
    exact List.lex_irrefl hirrefl word hlex

namespace Automaton

variable {D : Automaton} {live : StateSet} {start : State}

/-- The final states are live, and only live states lead to live states. -/
structure Enclosing (D : Automaton) (live : StateSet) : Prop where
  finals : ∀ q, D.finals.contains q → live.contains q
  backward : ∀ p name q, D.step? (some p) name = some q → live.contains q → live.contains p

private theorem WellFormed.coreachable_enclosing (hD : D.WellFormed) (hdet : D.transitions.isDeterministic) :
    D.Enclosing D.coreachable := by
  refine ⟨fun q hq => hD.contains_coreachable.2 ⟨q, [], hq, .nil q⟩, fun p name q hq hlive => ?_⟩
  have hpath : D.Path p [name] q := (path_iff_after? hdet).2 hq
  exact hD.coreachable_of_path hpath hlive

/-- All words of some length that lead from `start` to a live state, each with that state, in order. -/
structure Layer (D : Automaton) (live : StateSet) (start : State) (length : Nat) (layer : List Trail) : Prop where
  length_eq : ∀ t ∈ layer, t.2.length = length
  mem_iff : ∀ q word, (∃ t ∈ layer, t.1 = q ∧ D.spell t = word) ↔
    word.length = length ∧ D.after? (some start) word = some q ∧ live.contains q
  sorted : layer.Pairwise fun s t =>
    List.Lex (fun a b => D.alphabet.idOf a < D.alphabet.idOf b) (D.spell s) (D.spell t)

def acceptedOf (D : Automaton) (ts : List Trail) : List (List String) :=
  (ts.filter fun t => D.finals.contains t.1).map D.spell

theorem spell_cons {q r : State} {ids : List SymbolId} {a : SymbolId} {name : String}
    (hname : D.alphabet.id? name = some a) : D.spell (r, a :: ids) = D.spell (q, ids) ++ [name] := by
  simp [spell, Alphabet.id?_eq_some_iff.1 hname]

theorem mem_extend {s t : Trail} : t ∈ D.extend live s ↔
    ∃ a < D.alphabet.size, D.next? s.1 a = some t.1 ∧ live.contains t.1 ∧ t.2 = a :: s.2 := by
  simp only [extend, Alphabet.ids, List.mem_filterMap, List.mem_range, Option.map_eq_some_iff,
    Option.filter_eq_some_iff]
  constructor
  · rintro ⟨a, ha, q, ⟨hq, hlive⟩, rfl⟩
    exact ⟨a, ha, hq, hlive, rfl⟩
  · rintro ⟨a, ha, hq, hlive, hids⟩
    exact ⟨a, ha, t.1, ⟨hq, hlive⟩, Prod.ext rfl hids.symm⟩

/-- What a trail is extended to spells one symbol more. -/
theorem exists_spell_of_mem_extend {s t : Trail} (h : t ∈ D.extend live s) :
    ∃ name a, D.alphabet.id? name = some a ∧ t.2 = a :: s.2 ∧ D.spell t = D.spell s ++ [name] ∧
      D.step? (some s.1) name = some t.1 ∧ live.contains t.1 := by
  obtain ⟨a, ha, hnext, hlive, hids⟩ := mem_extend.1 h
  obtain ⟨name, hname⟩ := Alphabet.exists_name ha
  refine ⟨name, a, hname, hids, ?_, step?_eq_some_iff.2 ⟨s.1, a, rfl, hname, hnext⟩, hlive⟩
  rw [← spell_cons hname, ← hids]

namespace Layer

variable {length : Nat} {layer : List Trail}

theorem first (h : live.contains start) : D.Layer live start 0 [(start, [])] := by
  refine ⟨fun t ht => ?_, fun q word => ?_, List.pairwise_singleton _ _⟩
  · obtain rfl := List.mem_singleton.1 ht
    rfl
  constructor
  · rintro ⟨t, ht, rfl, rfl⟩
    obtain rfl := List.mem_singleton.1 ht
    exact ⟨rfl, rfl, h⟩
  · rintro ⟨hword, hq, _⟩
    obtain rfl := List.length_eq_zero_iff.1 hword
    obtain rfl := Option.some.inj hq
    exact ⟨_, List.mem_singleton_self _, rfl, rfl⟩

private theorem mem_iff_extend (h : D.Layer live start length layer) (hlive : D.Enclosing live) (q : State)
    (word : List String) : (∃ t ∈ layer.flatMap (D.extend live), t.1 = q ∧ D.spell t = word) ↔
      word.length = length + 1 ∧ D.after? (some start) word = some q ∧ live.contains q := by
  constructor
  · rintro ⟨t, ht, rfl, rfl⟩
    obtain ⟨s, hs, ht⟩ := List.mem_flatMap.1 ht
    obtain ⟨name, _, _, _, hspell, hstep, hq⟩ := exists_spell_of_mem_extend ht
    obtain ⟨hlength, hafter, _⟩ := (h.mem_iff _ _).1 ⟨s, hs, rfl, rfl⟩
    refine ⟨by simp [hspell, hlength], ?_, hq⟩
    rw [hspell, after?_append, hafter]
    exact hstep
  · rintro ⟨hlength, hafter, hq⟩
    rcases List.eq_nil_or_concat' word with rfl | ⟨front, name, rfl⟩
    · cases hlength
    · rw [after?_append] at hafter
      obtain ⟨p, a, hp, ha, hnext⟩ := step?_eq_some_iff.1 hafter
      have hstep : D.step? (some p) name = some q := step?_eq_some_iff.2 ⟨p, a, rfl, ha, hnext⟩
      have hfront : front.length = length := by simpa using hlength
      obtain ⟨s, hs, rfl, rfl⟩ := (h.mem_iff p front).2 ⟨hfront, hp, hlive.backward p name q hstep hq⟩
      refine ⟨(q, a :: s.2), List.mem_flatMap.2 ⟨s, hs, ?_⟩, rfl, spell_cons ha⟩
      exact mem_extend.2 ⟨a, Alphabet.lt_size_of_id? ha, hnext, hq, rfl⟩

private theorem pairwise_extend (s : Trail) : (D.extend live s).Pairwise fun t u =>
    List.Lex (fun a b => D.alphabet.idOf a < D.alphabet.idOf b) (D.spell t) (D.spell u) := by
  have hids : (D.extend live s).Pairwise fun t u => ∀ a b, t.2 = a :: s.2 → u.2 = b :: s.2 → a < b := by
    rw [extend, List.pairwise_filterMap]
    refine List.pairwise_lt_range.imp fun {a b} hab t ht u hu => ?_
    obtain ⟨p, _, rfl⟩ := Option.map_eq_some_iff.1 ht
    obtain ⟨q, _, rfl⟩ := Option.map_eq_some_iff.1 hu
    intro a' b' ha hb
    obtain ⟨rfl, _⟩ := List.cons.inj ha
    obtain ⟨rfl, _⟩ := List.cons.inj hb
    exact hab
  refine hids.imp_of_mem fun {t u} ht hu htu => ?_
  obtain ⟨name, a, ha, hta, hspell, _⟩ := exists_spell_of_mem_extend ht
  obtain ⟨other, b, hb, hub, hspell', _⟩ := exists_spell_of_mem_extend hu
  rw [hspell, hspell']
  refine .append_left _ (.rel ?_) _
  rw [Alphabet.idOf_of_id? ha, Alphabet.idOf_of_id? hb]
  exact htu a b hta hub

/-- Extending every trail of a layer, in order, leads to the layer of the words one symbol longer. -/
theorem extend (h : D.Layer live start length layer) (hlive : D.Enclosing live) :
    D.Layer live start (length + 1) (layer.flatMap (D.extend live)) := by
  refine ⟨fun t ht => ?_, h.mem_iff_extend hlive, List.pairwise_flatMap.2 ⟨fun s _ => pairwise_extend s, ?_⟩⟩
  · obtain ⟨s, hs, ht⟩ := List.mem_flatMap.1 ht
    rw [length_of_mem_extend ht, h.length_eq s hs]
  refine h.sorted.imp_of_mem fun {s t} hs ht hst u hu v hv => ?_
  obtain ⟨_, _, _, _, hspell, _⟩ := exists_spell_of_mem_extend hu
  obtain ⟨_, _, _, _, hspell', _⟩ := exists_spell_of_mem_extend hv
  have hs := ((h.mem_iff _ _).1 ⟨s, hs, rfl, rfl⟩).1
  have ht := ((h.mem_iff _ _).1 ⟨t, ht, rfl, rfl⟩).1
  rw [hspell, hspell']
  exact lex_append hst (hs.trans ht.symm) _ _

theorem mem_accepted (h : D.Layer live start length layer) (hlive : D.Enclosing live) {word : List String} :
    word ∈ D.acceptedOf layer ↔
      word.length = length ∧ D.acceptsFrom (some start) word := by
  simp only [acceptedOf, List.mem_map, List.mem_filter, acceptsFrom, Option.any_eq_true]
  constructor
  · rintro ⟨t, ⟨ht, hfinal⟩, hword⟩
    obtain ⟨hlength, hafter, _⟩ := (h.mem_iff _ _).1 ⟨t, ht, rfl, hword⟩
    exact ⟨hlength, t.1, hafter, hfinal⟩
  · rintro ⟨hlength, q, hafter, hfinal⟩
    obtain ⟨t, ht, rfl, hword⟩ := (h.mem_iff q word).2 ⟨hlength, hafter, hlive.finals q hfinal⟩
    exact ⟨t, ⟨ht, hfinal⟩, hword⟩

theorem sorted_accepted (h : D.Layer live start length layer) :
    (D.acceptedOf layer).Pairwise D.alphabet.Precedes := by
  rw [acceptedOf, List.pairwise_map]
  refine (h.sorted.filter _).imp_of_mem fun {s t} hs ht hst => ?_
  have hs := ((h.mem_iff _ _).1 ⟨s, List.mem_of_mem_filter hs, rfl, rfl⟩).1
  have ht := ((h.mem_iff _ _).1 ⟨t, List.mem_of_mem_filter ht, rfl, rfl⟩).1
  exact .of_lex (hs.trans ht.symm) hst

/-- A layer is extended as a whole or not at all. -/
theorem flatMap_follow (h : D.Layer live start length layer) (bound : Nat) :
    layer.flatMap (D.follow live bound) = if length < bound then layer.flatMap (D.extend live) else [] := by
  have hfollow : ∀ t ∈ layer, D.follow live bound t = if length < bound then D.extend live t else [] :=
    fun t ht => by rw [follow, h.length_eq t ht]
  rw [List.flatMap_congr hfollow]
  split
  · rfl
  · exact List.flatMap_eq_nil_iff.2 fun _ _ => rfl

end Layer

private theorem visit_append (live : StateSet) (bound : Nat) (words : Array (List String)) (ts front back : List Trail) :
    D.visit live bound words (ts ++ front) back = D.visit live bound (words ++ (D.acceptedOf ts).toArray) front
      ((ts.flatMap (D.follow live bound)).reverse ++ back) := by
  induction ts generalizing words back with
  | nil => simp [acceptedOf]
  | cons t ts ih =>
    have hwords : (if D.finals.contains t.1 then words.push (D.spell t) else words) ++ (D.acceptedOf ts).toArray =
        words ++ (D.acceptedOf (t :: ts)).toArray := by
      unfold acceptedOf
      split <;> simp [*]
    rw [List.cons_append, visit, ih, hwords, List.flatMap_cons, List.reverse_append, List.append_assoc]

/-- So the search goes on with what follows the trails of a layer. -/
theorem visit_layer (live : StateSet) (bound : Nat) (words : Array (List String)) (layer : List Trail) :
    D.visit live bound words layer [] = D.visit live bound (words ++ (D.acceptedOf layer).toArray)
      (layer.flatMap (D.follow live bound)) [] := by
  have hvisit := D.visit_append live bound words layer [] []
  rw [List.append_nil, List.append_nil] at hvisit
  rw [hvisit]
  cases hback : (layer.flatMap (D.follow live bound)).reverse with
  | nil => rw [List.reverse_eq_nil_iff.1 hback]
  | cons t back => rw [visit, ← hback, List.reverse_reverse]

/-- From a layer on, the accepted words that are not too long are listed in order. -/
theorem Layer.visit_spec {length : Nat} {layer : List Trail} (h : D.Layer live start length layer)
    (hlive : D.Enclosing live) (more : Nat) (words : Array (List String)) :
    ∃ rest, (D.visit live (length + more) words layer []).toList = words.toList ++ rest ∧
      (∀ word, word ∈ rest ↔
        length ≤ word.length ∧ word.length ≤ length + more ∧ D.acceptsFrom (some start) word) ∧
      rest.Pairwise D.alphabet.Precedes := by
  induction more generalizing length layer words with
  | zero =>
    refine ⟨D.acceptedOf layer, ?_, fun word => ?_, h.sorted_accepted⟩
    · rw [visit_layer, h.flatMap_follow, Nat.add_zero, if_neg (Nat.lt_irrefl _), visit, Array.toList_append]
    · rw [h.mem_accepted hlive, ← and_assoc]
      exact and_congr_left fun _ => by omega
  | succ more ih =>
    obtain ⟨rest, hvisit, hmem, hsorted⟩ := ih (h.extend hlive) (words ++ (D.acceptedOf layer).toArray)
    refine ⟨D.acceptedOf layer ++ rest, ?_, fun word => ?_,
      List.pairwise_append.2 ⟨h.sorted_accepted, hsorted, fun u hu v hv => ?_⟩⟩
    · rw [visit_layer, h.flatMap_follow, if_pos (Nat.lt_add_of_pos_right (Nat.succ_pos _)), ← Nat.succ_add_eq_add_succ,
        hvisit, Array.toList_append, List.append_assoc]
    · rw [List.mem_append, h.mem_accepted hlive, hmem]
      constructor
      · rintro (⟨hlength, haccepts⟩ | ⟨hge, hle, haccepts⟩)
        · exact ⟨by omega, by omega, haccepts⟩
        · exact ⟨by omega, by omega, haccepts⟩
      · rintro ⟨hge, hle, haccepts⟩
        rcases Nat.eq_or_lt_of_le hge with heq | hlt
        · exact Or.inl ⟨heq.symm, haccepts⟩
        · exact Or.inr ⟨hlt, by omega, haccepts⟩
    · have hu := ((h.mem_accepted hlive).1 hu).1
      have hv := ((hmem v).1 hv).1
      exact .of_length_lt (by omega)

/-- The accepted words up to some length are listed in order. -/
theorem wordsOf_spec (hD : D.WellFormed) (hdet : D.isDeterministic) (bound : Nat) :
    (∀ word, word ∈ D.wordsOf bound ↔ word.length ≤ bound ∧ D.accepts word) ∧
      (D.wordsOf bound).Pairwise D.alphabet.Precedes := by
  obtain ⟨start, hstart, _⟩ := exists_start hdet
  have hlive := hD.coreachable_enclosing (transitions_isDeterministic hdet)
  simp only [wordsOf, accepts_eq_acceptsFrom hdet, hstart]
  split
  · rename_i hcontains
    obtain ⟨rest, hvisit, hmem, hsorted⟩ := (Layer.first hcontains).visit_spec hlive bound #[]
    rw [Nat.zero_add] at hvisit
    rw [hvisit]
    refine ⟨fun word => ?_, hsorted⟩
    change word ∈ rest ↔ _
    rw [hmem, Nat.zero_add]
    exact and_iff_right (Nat.zero_le _)
  · rename_i hcontains
    refine ⟨fun word => iff_of_false (List.not_mem_nil) fun ⟨_, haccepts⟩ => hcontains ?_, .nil⟩
    obtain ⟨q, hafter, hq⟩ := (Option.any_eq_true _ _).1 haccepts
    have hpath := (path_iff_after? (transitions_isDeterministic hdet)).2 hafter
    exact hD.contains_coreachable.2 ⟨q, word, hq, hpath⟩

/-- The accepted words of at most `bound` symbols are listed, each of them once, shorter ones first, and those of one
length by the order of the symbols. -/
theorem acceptedWords_exact (A : Automaton) (bound : Nat) :
    (∀ word, word ∈ A.acceptedWords bound ↔ word.length ≤ bound ∧ A.accepts word) ∧
      (A.acceptedWords bound).Nodup ∧ (A.acceptedWords bound).Pairwise A.alphabet.Precedes := by
  obtain ⟨hmem, hsorted⟩ := wordsOf_spec (determinize_wellFormed A) (determinize_isDeterministic A) bound
  refine ⟨fun word => ?_, hsorted.imp fun {u v} huv => ?_, hsorted⟩
  · rw [← accepts_determinize]
    exact hmem word
  · rintro rfl
    exact A.alphabet.not_precedes_self u huv

end Automaton

end RegularLanguages
