import RegularLanguages.Expression.Elimination
import RegularLanguages.Proofs.Languages

/-!
Elimination of a node keeps the words along the paths between all others, and elimination of all inner nodes, in
whatever order, leaves the words from the entry to the exit.
-/
namespace RegularLanguages

open Computability

namespace ExpressionGraph

/-- The words of the edge between two nodes, none if there is no edge. -/
def reads (G : ExpressionGraph) (p q : Nat) : Language String :=
  ((G.label? p q).map Expression.language).getD 0

/-- The word is composed of words of the edges from `p` to `q`. -/
inductive Path (G : ExpressionGraph) : Nat → List String → Nat → Prop
  | nil (q : Nat) : Path G q [] q
  | cons {p q r : Nat} {u v : List String} (edge : u ∈ G.reads p q) (rest : Path G q v r) :
    Path G p (u ++ v) r

variable {G : ExpressionGraph}

theorem label?_eq_some_iff {p q : Nat} {e : Expression} :
    G.label? p q = some e ↔ ((p, q), e) ∈ G.edges := by
  obtain ⟨edges, hnodup⟩ := G
  change edges.lookup (p, q) = some e ↔ _
  induction edges with
  | nil => simp
  | cons edge edges ih =>
    obtain ⟨ends, f⟩ := edge
    rw [List.map_cons, List.nodup_cons] at hnodup
    rw [List.lookup_cons, List.mem_cons]
    by_cases hends : (p, q) = ends
    · subst hends
      have hnew : ((p, q), e) ∉ edges := fun h => hnodup.1 (List.mem_map.2 ⟨_, h, rfl⟩)
      simp [hnew, eq_comm]
    · rw [beq_false_of_ne hends]
      simpa [hends] using ih hnodup.2

theorem label?_filter (f : Nat × Nat → Bool) (p q : Nat) :
    (G.filter f).label? p q = if f (p, q) then G.label? p q else none := by
  ext e
  rw [label?_eq_some_iff]
  simp only [filter, List.mem_filter]
  split
  · rename_i h
    simp [h, label?_eq_some_iff]
  · rename_i h
    simp [h]

theorem label?_put (s t : Nat) (l : Expression) (p q : Nat) :
    (G.put s t l).label? p q = if (p, q) = (s, t) then some l else G.label? p q := by
  ext e
  rw [label?_eq_some_iff]
  simp only [put, filter, List.mem_append, List.mem_filter, List.mem_singleton]
  split
  · rename_i h
    simp [h, eq_comm]
  · rename_i h
    simp [h, label?_eq_some_iff]

theorem mem_reads {p q : Nat} {word : List String} :
    word ∈ G.reads p q ↔ ∃ e, G.label? p q = some e ∧ word ∈ e.language := by
  rw [reads]
  cases G.label? p q with
  | none => simp [Language.notMem_zero]
  | some e => simp

@[simp] theorem reads_empty (p q : Nat) : (∅ : ExpressionGraph).reads p q = 0 := rfl

theorem reads_put (s t : Nat) (l : Expression) (p q : Nat) :
    (G.put s t l).reads p q = if (p, q) = (s, t) then l.language else G.reads p q := by
  rw [reads, label?_put]
  split <;> rfl

private theorem reads_add (s t : Nat) (l : Expression) (p q : Nat) :
    (G.add s t l).reads p q = G.reads p q + if (p, q) = (s, t) then l.language else 0 := by
  rw [add]
  split
  · rename_i e he
    rw [reads_put, Expression.language_alternative]
    split
    · rename_i hends
      cases hends
      rw [reads, he]
      rfl
    · exact (add_zero _).symm
  · rename_i he
    rw [reads_put]
    split
    · rename_i hends
      cases hends
      rw [reads, he]
      exact (zero_add _).symm
    · exact (add_zero _).symm

theorem mem_reads_foldl_add {edges : List (Nat × Nat × Expression)} {p q : Nat} {word : List String} :
    word ∈ (edges.foldl (fun G e => G.add e.1 e.2.1 e.2.2) G).reads p q ↔
      word ∈ G.reads p q ∨ ∃ l, (p, q, l) ∈ edges ∧ word ∈ l.language := by
  induction edges generalizing G with
  | nil => simp
  | cons edge edges ih =>
    obtain ⟨s, t, l⟩ := edge
    rw [List.foldl_cons, ih, reads_add, Language.mem_add, or_assoc]
    apply or_congr_right
    simp only [List.mem_cons, Prod.mk.injEq]
    constructor
    · rintro (hl | ⟨e, he, hw⟩)
      · split at hl
        · rename_i hends
          exact ⟨l, Or.inl ⟨hends.1, hends.2, rfl⟩, hl⟩
        · cases Language.notMem_zero _ hl
      · exact ⟨e, Or.inr he, hw⟩
    · rintro ⟨e, ⟨rfl, rfl, rfl⟩ | he, hw⟩
      · exact Or.inl (by simpa using hw)
      · exact Or.inr ⟨e, he, hw⟩

theorem mem_incoming {k p : Nat} {e : Expression} :
    (p, e) ∈ G.incoming k ↔ p ≠ k ∧ G.label? p k = some e := by
  simp only [incoming, List.mem_filterMap, Prod.exists, label?_eq_some_iff]
  constructor
  · rintro ⟨s, t, f, hmem, h⟩
    split at h
    · rename_i hends
      cases h
      exact ⟨hends.2, hends.1 ▸ hmem⟩
    · cases h
  · rintro ⟨hp, hmem⟩
    exact ⟨p, k, e, hmem, by simp [hp]⟩

theorem mem_outgoing {k q : Nat} {e : Expression} :
    (q, e) ∈ G.outgoing k ↔ q ≠ k ∧ G.label? k q = some e := by
  simp only [outgoing, List.mem_filterMap, Prod.exists, label?_eq_some_iff]
  constructor
  · rintro ⟨s, t, f, hmem, h⟩
    split at h
    · rename_i hends
      cases h
      exact ⟨hends.2, hends.1 ▸ hmem⟩
    · cases h
  · rintro ⟨hq, hmem⟩
    exact ⟨k, q, e, hmem, by simp [hq]⟩

theorem language_repetition (k : Nat) : (G.repetition k).language = (G.reads k k)∗ := by
  rw [repetition, reads]
  cases G.label? k k with
  | none => exact kstar_zero.symm
  | some e => exact Expression.language_iterate e

/-- What elimination of `k` leaves between two other nodes: the edge that was there, and the way round through
`k`, with any number of visits to it. -/
theorem mem_reads_eliminate {k p q : Nat} {word : List String} :
    word ∈ (G.eliminate k).reads p q ↔ p ≠ k ∧ q ≠ k ∧
      (word ∈ G.reads p q ∨ word ∈ G.reads p k * ((G.reads k k)∗ * G.reads k q)) := by
  have hrest : word ∈ (G.filter fun e => e.1 != k && e.2 != k).reads p q ↔
      p ≠ k ∧ q ≠ k ∧ word ∈ G.reads p q := by
    rw [mem_reads, label?_filter, mem_reads]
    by_cases hp : p = k <;> by_cases hq : q = k <;> simp [hp, hq]
  rw [eliminate, mem_reads_foldl_add, hrest]
  simp only [List.mem_flatMap, List.mem_map, Prod.exists, Prod.mk.injEq, mem_incoming, mem_outgoing]
  constructor
  · rintro (⟨hp, hq, h⟩ | ⟨_, ⟨p, e, ⟨hp, he⟩, q, f, ⟨hq, hf⟩, rfl, rfl, rfl⟩, hw⟩)
    · exact ⟨hp, hq, Or.inl h⟩
    · refine ⟨hp, hq, Or.inr ?_⟩
      simpa [reads, he, hf, language_repetition] using hw
  · rintro ⟨hp, hq, h | h⟩
    · exact Or.inl ⟨hp, hq, h⟩
    · obtain ⟨u, hu, v, hv, rfl⟩ := Language.mem_mul.1 h
      obtain ⟨x, hx, y, hy, rfl⟩ := Language.mem_mul.1 hv
      obtain ⟨e, he, hu⟩ := mem_reads.1 hu
      obtain ⟨f, hf, hy⟩ := mem_reads.1 hy
      refine Or.inr ⟨_, ⟨p, e, ⟨hp, he⟩, q, f, ⟨hq, hf⟩, rfl, rfl, rfl⟩, ?_⟩
      rw [Expression.language_concat, Expression.language_concat, language_repetition]
      exact Language.append_mem_mul hu (Language.append_mem_mul hx hy)

theorem Path.append {p q r : Nat} {u v : List String} (h : G.Path p u q) (g : G.Path q v r) :
    G.Path p (u ++ v) r := by
  induction h with
  | nil => exact g
  | cons edge _ ih =>
    rw [List.append_assoc]
    exact .cons edge (ih g)

theorem Path.single {p q : Nat} {word : List String} (h : word ∈ G.reads p q) : G.Path p word q := by
  have hpath := Path.cons h (.nil q)
  rwa [List.append_nil] at hpath

private theorem path_of_mem_kstar {k : Nat} {word : List String} (h : word ∈ (G.reads k k)∗) :
    G.Path k word k := by
  obtain ⟨rounds, rfl, hrounds⟩ := Language.mem_kstar.1 h
  induction rounds with
  | nil => exact .nil k
  | cons round rounds ih =>
    rw [List.forall_mem_cons] at hrounds
    exact .cons hrounds.1 (ih hrounds.2 (Language.join_mem_kstar hrounds.2))

private theorem path_of_path_eliminate {k p q : Nat} {word : List String}
    (h : (G.eliminate k).Path p word q) : G.Path p word q := by
  induction h with
  | nil => exact .nil _
  | cons edge _ ih =>
    obtain ⟨_, _, hdirect | haround⟩ := mem_reads_eliminate.1 edge
    · exact .cons hdirect ih
    · obtain ⟨u, hu, v, hv, rfl⟩ := Language.mem_mul.1 haround
      obtain ⟨x, hx, y, hy, rfl⟩ := Language.mem_mul.1 hv
      exact ((Path.single hu).append ((path_of_mem_kstar hx).append (.single hy))).append ih

private theorem path_eliminate_of_path {k p q : Nat} {word : List String} (h : G.Path p word q)
    (hq : q ≠ k) :
    (p ≠ k → (G.eliminate k).Path p word q) ∧
    (p = k → ∃ r u v, word = u ++ v ∧ r ≠ k ∧ u ∈ (G.reads k k)∗ * G.reads k r ∧
      (G.eliminate k).Path r v q) := by
  -- By induction on the path: from `k`, it makes some rounds and then goes on from another node.
  induction h with
  | nil => exact ⟨fun _ => .nil _, fun h => absurd h hq⟩
  | @cons p s q u v edge rest ih =>
    obtain ⟨hother, hthrough⟩ := ih hq
    by_cases hs : s = k
    · obtain ⟨r, x, y, rfl, hr, hx, hy⟩ := hthrough hs
      subst hs
      rw [← List.append_assoc]
      refine ⟨fun hp => .cons (mem_reads_eliminate.2 ⟨hp, hr, Or.inr ?_⟩) hy, fun hp => ?_⟩
      · exact Language.append_mem_mul edge hx
      · subst hp
        refine ⟨r, u ++ x, y, rfl, hr, ?_, hy⟩
        have hround := Language.append_mem_mul edge hx
        rw [← mul_assoc] at hround
        rw [← Language.one_add_self_mul_kstar_eq_kstar, add_mul, Language.mem_add]
        exact Or.inr hround
    · refine ⟨fun hp => .cons (mem_reads_eliminate.2 ⟨hp, hs, Or.inl edge⟩) (hother hs), fun hp => ?_⟩
      subst hp
      refine ⟨s, u, v, rfl, hs, ?_, hother hs⟩
      exact Language.append_mem_mul (Language.nil_mem_kstar _) edge

/-- Elimination of `k` keeps the words along the paths between all other nodes. -/
theorem path_eliminate_iff {k p q : Nat} {word : List String} (hp : p ≠ k) (hq : q ≠ k) :
    (G.eliminate k).Path p word q ↔ G.Path p word q :=
  ⟨path_of_path_eliminate, fun h => (path_eliminate_of_path h hq).1 hp⟩

inductive Trail (G : ExpressionGraph) : Nat → List Expression → Nat → Prop
  | nil (q : Nat) : Trail G q [] q
  | cons {p q r : Nat} {e : Expression} {labels : List Expression} (edge : ((p, q), e) ∈ G.edges)
    (rest : Trail G q labels r) : Trail G p (e :: labels) r

/-- The words along all ways from one node to another: on each way, the languages of its labels one after another. -/
def wordsBetween (G : ExpressionGraph) (p q : Nat) : Language String :=
  {word | ∃ labels, G.Trail p labels q ∧ word ∈ (labels.map Expression.language).prod}

theorem mem_wordsBetween {p q : Nat} {word : List String} : word ∈ G.wordsBetween p q ↔ G.Path p word q := by
  constructor
  · rintro ⟨labels, htrail, hword⟩
    induction htrail generalizing word with
    | nil q =>
      obtain rfl := (Language.mem_one word).1 hword
      exact .nil q
    | cons edge _ ih =>
      rw [List.map_cons, List.prod_cons] at hword
      obtain ⟨u, hu, v, hv, rfl⟩ := Language.mem_mul.1 hword
      exact .cons (mem_reads.2 ⟨_, label?_eq_some_iff.2 edge, hu⟩) (ih hv)
  · intro hpath
    induction hpath with
    | nil q => exact ⟨[], .nil q, Language.nil_mem_one⟩
    | cons edge _ ih =>
      obtain ⟨e, he, hu⟩ := mem_reads.1 edge
      obtain ⟨labels, htrail, hv⟩ := ih
      refine ⟨e :: labels, .cons (label?_eq_some_iff.1 he) htrail, ?_⟩
      rw [List.map_cons, List.prod_cons]
      exact Language.append_mem_mul hu hv

/-- No edge starts or ends at `k`. -/
def Avoids (G : ExpressionGraph) (k : Nat) : Prop := ∀ e ∈ G.edges, e.1.1 ≠ k ∧ e.1.2 ≠ k

theorem Avoids.put {k s t : Nat} (h : G.Avoids k) (hs : s ≠ k) (ht : t ≠ k) (l : Expression) :
    (G.put s t l).Avoids k := by
  intro e he
  rcases List.mem_append.1 he with hold | hnew
  · exact h e (List.mem_of_mem_filter hold)
  · rw [List.mem_singleton.1 hnew]
    exact ⟨hs, ht⟩

theorem Avoids.add {k s t : Nat} (h : G.Avoids k) (hs : s ≠ k) (ht : t ≠ k) (l : Expression) :
    (G.add s t l).Avoids k := by
  unfold ExpressionGraph.add
  split <;> exact h.put hs ht _

theorem Avoids.addAll {k : Nat} {edges : List (Nat × Nat × Expression)} (h : G.Avoids k)
    (hedges : ∀ e ∈ edges, e.1 ≠ k ∧ e.2.1 ≠ k) :
    (edges.foldl (fun G e => G.add e.1 e.2.1 e.2.2) G).Avoids k := by
  induction edges generalizing G with
  | nil => exact h
  | cons edge edges ih =>
    rw [List.forall_mem_cons] at hedges
    exact ih (h.add hedges.1.1 hedges.1.2 _) hedges.2

/-- What is left of the graph does not touch `k`, and the ways round lead from and to other nodes. -/
theorem eliminate_avoids (G : ExpressionGraph) (k : Nat) : (G.eliminate k).Avoids k := by
  apply Avoids.addAll
  · intro e he
    simpa using List.of_mem_filter he
  · intro e he
    obtain ⟨⟨p, into⟩, hinto, hmem⟩ := List.mem_flatMap.1 he
    obtain ⟨⟨q, out⟩, hout, rfl⟩ := List.mem_map.1 hmem
    exact ⟨(mem_incoming.1 hinto).1, (mem_outgoing.1 hout).1⟩

/-- Elimination of a node leaves no edge at it, and it keeps the words along the ways between any two other nodes. -/
theorem eliminate_exact (G : ExpressionGraph) (k : Nat) :
    (∀ e ∈ (G.eliminate k).edges, e.1.1 ≠ k ∧ e.1.2 ≠ k) ∧
      ∀ p q, p ≠ k → q ≠ k → (G.eliminate k).wordsBetween p q = G.wordsBetween p q := by
  refine ⟨G.eliminate_avoids k, fun p q hp hq => Language.ext fun word => ?_⟩
  rw [mem_wordsBetween, mem_wordsBetween, path_eliminate_iff hp hq]

def looped : ExpressionGraph :=
  [(0, 0, "a"), (0, 1, "b"), (1, 1, "c"), (1, 0, "d")].foldl (fun G e => G.add e.1 e.2.1 (.symbol e.2.2)) ∅

/-- The way round through the second node, with two rounds there, becomes a part of the loop at the first one. -/
theorem eliminate_looped : 0 ≠ 1 ∧ (looped.eliminate 1).wordsBetween 0 0 = looped.wordsBetween 0 0 ∧
    ["a", "b", "c", "c", "d", "a"] ∈ (looped.eliminate 1).wordsBetween 0 0 := by
  have hkept := (eliminate_exact looped 1).2 0 0 (by decide) (by decide)
  have hedge : ∀ p q name, ((p, q), .symbol name) ∈ looped.edges → [name] ∈ looped.reads p q :=
    fun _ _ _ h => mem_reads.2 ⟨_, label?_eq_some_iff.2 h, rfl⟩
  refine ⟨by decide, hkept, hkept ▸ mem_wordsBetween.2 ?_⟩
  have hloop : looped.Path 1 ["c", "d", "a"] 0 :=
    .cons (hedge 1 1 "c" (by decide)) (.cons (hedge 1 0 "d" (by decide)) (.single (hedge 0 0 "a" (by decide))))
  exact .cons (hedge 0 0 "a" (by decide)) (.cons (hedge 0 1 "b" (by decide)) (.cons (hedge 1 1 "c" (by decide)) hloop))

/-- Words lead from the entry and the inner nodes to the inner nodes and the exit, and nowhere else. -/
def Spans (G : ExpressionGraph) (entry : Nat) (inner : List Nat) (exit : Nat) : Prop :=
  ∀ p q word, word ∈ G.reads p q → (p = entry ∨ p ∈ inner) ∧ (q = exit ∨ q ∈ inner)

variable {entry exit : Nat} {inner : List Nat}

theorem Spans.eliminate (h : G.Spans entry inner exit) (k : Nat) :
    (G.eliminate k).Spans entry (inner.erase k) exit := by
  intro p q word hword
  obtain ⟨hp, hq, hdirect | haround⟩ := mem_reads_eliminate.1 hword
  · obtain ⟨hp', hq'⟩ := h p q word hdirect
    exact ⟨hp'.imp_right (List.mem_erase_of_ne hp).2, hq'.imp_right (List.mem_erase_of_ne hq).2⟩
  · obtain ⟨u, hu, v, hv, _⟩ := Language.mem_mul.1 haround
    obtain ⟨_, _, y, hy, _⟩ := Language.mem_mul.1 hv
    exact ⟨(h p k u hu).1.imp_right (List.mem_erase_of_ne hp).2,
      (h k q y hy).2.imp_right (List.mem_erase_of_ne hq).2⟩

private theorem mem_of_lightest {l : List (Nat × Nat)} {x : Nat × Nat} (h : lightest l = some x) : x ∈ l := by
  induction l generalizing x with
  | nil => cases h
  | cons y rest ih =>
    rw [lightest] at h
    split at h
    · rename_i z hz
      split at h
      · cases h
        exact List.mem_cons_self
      · cases h
        exact List.mem_cons_of_mem _ (ih hz)
    · cases h
      exact List.mem_cons_self

private theorem eq_nil_of_lightest {l : List (Nat × Nat)} (h : lightest l = none) : l = [] := by
  cases l with
  | nil => rfl
  | cons y rest =>
    rw [lightest] at h
    split at h
    · split at h <;> cases h
    · cases h

private theorem mem_of_pick {order : EliminationOrder} {k : Nat} (h : G.pick order inner = some k) : k ∈ inner := by
  cases order with
  | insertion => exact List.mem_of_head? h
  | fewestEdges =>
    obtain ⟨x, hx, rfl⟩ := Option.map_eq_some_iff.1 h
    obtain ⟨v, hv, rfl⟩ := List.mem_map.1 (mem_of_lightest hx)
    exact hv

private theorem eq_nil_of_pick {order : EliminationOrder} (h : G.pick order inner = none) : inner = [] := by
  cases order with
  | insertion => exact List.head?_eq_none_iff.1 h
  | fewestEdges => exact List.map_eq_nil_iff.1 (eq_nil_of_lightest (Option.map_eq_none_iff.1 h))

/-- Whatever the order, eliminating all inner nodes leaves the words from the entry to the exit. -/
theorem eliminateAll_spec (order : EliminationOrder) (count : Nat) (h : G.Spans entry inner exit)
    (hcount : inner.length ≤ count) (hentry : entry ∉ inner) (hexit : exit ∉ inner) :
    (G.eliminateAll order count inner).1.Spans entry [] exit ∧
      ∀ word, (G.eliminateAll order count inner).1.Path entry word exit ↔ G.Path entry word exit := by
  induction count generalizing G inner with
  | zero =>
    obtain rfl := List.length_eq_zero_iff.1 (Nat.le_zero.1 hcount)
    exact ⟨h, fun _ => Iff.rfl⟩
  | succ count ih =>
    rw [eliminateAll]
    split
    · rename_i hnone
      obtain rfl := eq_nil_of_pick hnone
      exact ⟨h, fun _ => Iff.rfl⟩
    · rename_i k hk
      have hmem := mem_of_pick hk
      have hlen : (inner.erase k).length ≤ count := by
        rw [List.length_erase_of_mem hmem]
        omega
      obtain ⟨hspans, hpaths⟩ := ih (h.eliminate k) hlen (mt List.mem_of_mem_erase hentry)
        (mt List.mem_of_mem_erase hexit)
      refine ⟨hspans, fun word => (hpaths word).trans (path_eliminate_iff ?_ ?_)⟩
      · rintro rfl
        exact hentry hmem
      · rintro rfl
        exact hexit hmem

/-- Between the entry and the exit alone, the paths are the edge. -/
theorem Spans.path_iff_mem_reads (h : G.Spans entry [] exit) (hne : entry ≠ exit) {word : List String} :
    G.Path entry word exit ↔ word ∈ G.reads entry exit := by
  refine ⟨fun hpath => ?_, .single⟩
  cases hpath with
  | nil => exact absurd rfl hne
  | @cons _ r _ u v edge rest =>
    obtain rfl : r = exit := by simpa using (h _ _ _ edge).2
    cases rest with
    | nil => simpa using edge
    | cons edge' _ => exact absurd (by simpa using (h _ _ _ edge').1) (Ne.symm hne)

end ExpressionGraph

end RegularLanguages
