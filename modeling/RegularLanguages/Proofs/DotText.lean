import Mathlib.Data.List.Basic
import RegularLanguages.Graph.Dot

/-!
A Graphviz text tells all that it draws. Names are the only part of it that is free, and a name in quotes ends at the first
quote that no backslash escapes; so the lines can be told from each other one after another, whatever the names are.
-/
namespace RegularLanguages

/-- The edge as it is drawn, with the letter epsilon in place of a missing label. -/
def GraphEdge.shown (e : GraphEdge) : GraphEdge := { e with label := some (e.label.getD "ε") }

def Graph.shown (G : Graph) : Graph := { G with edges := G.edges.map GraphEdge.shown }

namespace Graph

/-- From a text with something behind it that is as `follows` says, both can be recovered. -/
def SelfDelimiting {α : Type} (follows : List Char → Prop) (text : α → List Char) : Prop :=
  ∀ x y r s, follows r → follows s → text x ++ r = text y ++ s → x = y ∧ r = s

/-- A list of texts one after another ends where no further one can begin. -/
theorem SelfDelimiting.flatMap {α : Type} {follows stop : List Char → Prop} {text : α → List Char}
    (h : SelfDelimiting follows text) (hfollows : ∀ x r, follows r → follows (text x ++ r))
    (hstop : ∀ r, stop r → follows r) (hbegin : ∀ x r, ¬ stop (text x ++ r)) :
    SelfDelimiting stop fun xs : List α => xs.flatMap text := by
  have hrest : ∀ (xs : List α) (r : List Char), stop r → follows (xs.flatMap text ++ r) := by
    intro xs r hr
    induction xs with
    | nil => exact hstop r hr
    | cons x xs ih =>
      rw [List.flatMap_cons, List.append_assoc]
      exact hfollows x _ ih
  intro xs ys r s hr hs htext
  change xs.flatMap text ++ r = ys.flatMap text ++ s at htext
  induction xs generalizing ys with
  | nil =>
    cases ys with
    | nil => exact ⟨rfl, htext⟩
    | cons y ys =>
      rw [List.flatMap_nil, List.nil_append, List.flatMap_cons, List.append_assoc] at htext
      exact absurd (htext ▸ hr) (hbegin y _)
  | cons x xs ih =>
    cases ys with
    | nil =>
      rw [List.flatMap_nil, List.nil_append, List.flatMap_cons, List.append_assoc] at htext
      exact absurd (htext ▸ hs) (hbegin x _)
    | cons y ys =>
      rw [List.flatMap_cons, List.flatMap_cons, List.append_assoc, List.append_assoc] at htext
      obtain ⟨rfl, hmore⟩ := h x y _ _ (hrest xs r hr) (hrest ys s hs) htext
      obtain ⟨rfl, hend⟩ := ih ys hmore
      exact ⟨rfl, hend⟩

section Names

theorem escapeLabel_cases (c : Char) : c = '\\' ∧ escapeLabel c = ['\\', '\\'] ∨ c = '"' ∧ escapeLabel c = ['\\', '"'] ∨
    (c ≠ '\\' ∧ c ≠ '"') ∧ escapeLabel c = [c] := by
  unfold escapeLabel
  split
  · exact Or.inl ⟨‹_›, rfl⟩
  · split
    · exact Or.inr (Or.inl ⟨‹_›, rfl⟩)
    · exact Or.inr (Or.inr ⟨⟨‹_›, ‹_›⟩, rfl⟩)

private theorem escapeLabel_selfDelimiting : SelfDelimiting (fun _ => True) escapeLabel := by
  intro c d r s _ _ h
  rcases escapeLabel_cases c with ⟨hc, htext⟩ | ⟨hc, htext⟩ | ⟨hc, htext⟩ <;>
    rcases escapeLabel_cases d with ⟨hd, htext'⟩ | ⟨hd, htext'⟩ | ⟨hd, htext'⟩ <;>
    rw [htext, htext'] at h <;> grind

private theorem head?_escapeLabel_ne (c : Char) (r : List Char) : (escapeLabel c ++ r).head? ≠ some '"' := by
  rcases escapeLabel_cases c with ⟨_, hc⟩ | ⟨_, hc⟩ | ⟨⟨_, hquote⟩, hc⟩ <;> simp_all

/-- A quoted name ends at its closing quote, whatever the name is and whatever follows. -/
theorem quoted_selfDelimiting : SelfDelimiting (fun _ => True) fun name => (quoted name).toList := by
  have hchars : SelfDelimiting (fun r => r.head? = some '"') (List.flatMap escapeLabel) :=
    escapeLabel_selfDelimiting.flatMap (fun _ _ _ => trivial) (fun _ _ => trivial) head?_escapeLabel_ne
  intro name other r s _ _ h
  have htext : name.toList.flatMap escapeLabel ++ '"' :: r = other.toList.flatMap escapeLabel ++ '"' :: s := by
    simpa [quoted] using h
  obtain ⟨hname, hrest⟩ := hchars _ _ _ _ rfl rfl htext
  exact ⟨String.toList_inj.1 hname, List.tail_eq_of_cons_eq hrest⟩

end Names

section Numbers

theorem isDigit_of_mem_toString {n : Nat} {c : Char} (h : c ∈ (toString n).toList) : c.isDigit := by
  rw [Nat.toString_eq_repr, Nat.toList_repr] at h
  exact Nat.isDigit_of_mem_toDigits (by decide) (by decide) h

/-- A number ends at the first character that is no digit. -/
theorem toString_selfDelimiting :
    SelfDelimiting (fun r => ∀ c ∈ r.head?, c.isDigit = false) fun n : Nat => (toString n).toList := by
  intro m n r s hr hs h
  change (toString m).toList ++ r = (toString n).toList ++ s at h
  have hstop : ∀ t : List Char, (∀ c ∈ t.head?, c.isDigit = false) → t.takeWhile Char.isDigit = [] := by
    intro t ht
    cases t with
    | nil => rfl
    | cons c t => exact List.takeWhile_cons_of_neg (by simp [ht c rfl])
  have hdigits : (toString m).toList = (toString n).toList := by
    have htake := congrArg (List.takeWhile Char.isDigit) h
    rwa [List.takeWhile_append_of_pos fun _ => isDigit_of_mem_toString, hstop r hr, List.append_nil,
      List.takeWhile_append_of_pos fun _ => isDigit_of_mem_toString, hstop s hs, List.append_nil] at htake
  have hvalue : m = n := by
    have hparsed := congrArg (fun digits => Nat.ofDigitChars 10 digits 0) hdigits
    simpa using hparsed
  exact ⟨hvalue, List.append_cancel_left (hdigits ▸ h)⟩

private theorem exists_toString_eq_cons (n : Nat) : ∃ c cs, (toString n).toList = c :: cs ∧ c.isDigit := by
  obtain ⟨c, cs, hcs⟩ := List.exists_cons_of_ne_nil (show (toString n).toList ≠ [] by simp [Nat.toDigits_ne_nil])
  exact ⟨c, cs, hcs, isDigit_of_mem_toString (hcs ▸ List.mem_cons_self)⟩

end Numbers

section Lines

/-- A line that begins with a number, as the first line of a node and the line of an edge do. -/
def line (n : Nat) (rest : List Char) : List Char := "    ".toList ++ ((toString n).toList ++ ' ' :: rest)

/-- The number at the beginning of a line can be told from the rest of it. -/
theorem line_inj {m n : Nat} {r s : List Char} (h : line m r = line n s) : m = n ∧ r = s := by
  have hnumber := toString_selfDelimiting m n (' ' :: r) (' ' :: s) (by simp) (by simp) (List.append_cancel_left h)
  exact hnumber.imp_right List.tail_eq_of_cons_eq

/-- The text does not begin as the arrow at a start state does. -/
def NoArrow (text : List Char) : Prop := ∀ rest, text ≠ "    ".toList ++ 's' :: rest

theorem noArrow_line (n : Nat) (rest : List Char) : NoArrow (line n rest) := by
  intro other h
  obtain ⟨c, cs, hcs, hdigit⟩ := exists_toString_eq_cons n
  have hnumber : (toString n).toList ++ ' ' :: rest = 's' :: other := List.append_cancel_left h
  rw [hcs] at hnumber
  obtain ⟨rfl, _⟩ := List.cons.inj hnumber
  exact absurd hdigit (by decide)

def arrow (id : Nat) : List Char :=
  "    starting_".toList ++ ((toString id).toList ++ (" [label=\"\", shape=none, height=0, width=0];\n".toList ++
    ("    starting_".toList ++ ((toString id).toList ++ (" -> ".toList ++ ((toString id).toList ++ ";\n".toList))))))

theorem exists_arrow_append_eq (id : Nat) (rest : List Char) :
    ∃ more, arrow id ++ rest = "    ".toList ++ 's' :: more := ⟨_, rfl⟩

theorem dotNode_append (n : GraphNode) (rest : List Char) : (dotNode n).toList ++ rest =
    line n.id ("[label=".toList ++ ((quoted n.label).toList ++ (", peripheries=".toList ++
      (if n.isFinal then '2' else '1') :: ("];\n".toList ++ ((if n.isStart then arrow n.id else []) ++ rest))))) := by
  unfold dotNode line arrow
  split <;> split <;> simp

private theorem dotNode_selfDelimiting : SelfDelimiting NoArrow fun n => (dotNode n).toList := by
  intro m n r s hr hs h
  change (dotNode m).toList ++ r = (dotNode n).toList ++ s at h
  rw [dotNode_append, dotNode_append] at h
  obtain ⟨hid, h⟩ := line_inj h
  obtain ⟨hlabel, h⟩ := quoted_selfDelimiting _ _ _ _ trivial trivial (List.append_cancel_left h)
  obtain ⟨hborder, h⟩ := List.cons.inj (List.append_cancel_left h)
  have hfinal : m.isFinal = n.isFinal := by
    cases hm : m.isFinal <;> cases hn : n.isFinal <;> simp_all
  replace h := List.append_cancel_left h
  have hstart : m.isStart = n.isStart ∧ r = s := by
    rw [hid] at h
    cases hm : m.isStart <;> cases hn : n.isStart <;> simp only [hm, hn, if_true, Bool.false_eq_true, if_false] at h
    · exact ⟨rfl, h⟩
    · obtain ⟨more, hmore⟩ := exists_arrow_append_eq n.id s
      exact absurd (h.trans hmore) (hr more)
    · obtain ⟨more, hmore⟩ := exists_arrow_append_eq n.id r
      exact absurd (h.symm.trans hmore) (hs more)
    · exact ⟨rfl, List.append_cancel_left h⟩
  obtain ⟨mid, mlabel, mstart, mfinal⟩ := m
  obtain ⟨nid, nlabel, nstart, nfinal⟩ := n
  simp_all

/-- The line of an edge by its source, the text of its label and its target. -/
def edgeText (e : State × String × State) : List Char := (dotEdge ⟨e.1, e.2.2, some e.2.1⟩).toList

theorem edgeText_append (e : State × String × State) (rest : List Char) : edgeText e ++ rest =
    line e.1 ("-> ".toList ++ ((toString e.2.2).toList ++ (" [label=".toList ++
      ((quoted e.2.1).toList ++ ("];\n".toList ++ rest))))) := by
  simp [edgeText, dotEdge, line]

private theorem edgeText_selfDelimiting : SelfDelimiting (fun _ => True) edgeText := by
  intro d e r s _ _ h
  rw [edgeText_append, edgeText_append] at h
  obtain ⟨hsource, h⟩ := line_inj h
  obtain ⟨htarget, h⟩ := toString_selfDelimiting _ _ _ _ (by simp) (by simp) (List.append_cancel_left h)
  obtain ⟨hlabel, h⟩ := quoted_selfDelimiting _ _ _ _ trivial trivial (List.append_cancel_left h)
  exact ⟨Prod.ext hsource (Prod.ext hlabel htarget), List.append_cancel_left h⟩

def EdgeLines (text : List Char) : Prop :=
  ∃ es : List (State × String × State), text = es.flatMap edgeText ++ "\x7d\n".toList

private theorem noArrow_of_edgeLines {text : List Char} (h : EdgeLines text) : NoArrow text := by
  obtain ⟨es, rfl⟩ := h
  cases es with
  | nil => exact fun rest => by simp
  | cons e es =>
    rw [List.flatMap_cons, List.append_assoc, edgeText_append]
    exact noArrow_line e.1 _

private theorem not_edgeLines_dotNode (n : GraphNode) (rest : List Char) : ¬ EdgeLines ((dotNode n).toList ++ rest) := by
  rintro ⟨es, h⟩
  rw [dotNode_append] at h
  cases es with
  | nil => simp [line] at h
  | cons e es =>
    rw [List.flatMap_cons, List.append_assoc, edgeText_append] at h
    simpa using (line_inj h).2

private theorem nodeLines_selfDelimiting : SelfDelimiting EdgeLines fun ns : List GraphNode =>
    ns.flatMap fun n => (dotNode n).toList := by
  refine dotNode_selfDelimiting.flatMap (fun n rest _ => ?_) (fun _ => noArrow_of_edgeLines) not_edgeLines_dotNode
  rw [dotNode_append]
  exact noArrow_line n.id _

private theorem edgeLines_selfDelimiting : SelfDelimiting (fun r => r = "\x7d\n".toList) fun es : List (State × String × State) =>
    es.flatMap edgeText := by
  refine edgeText_selfDelimiting.flatMap (fun _ _ _ => trivial) (fun _ _ => trivial) fun e rest h => ?_
  rw [edgeText_append] at h
  simp [line] at h

end Lines

/-- The edge by its source, the text that is drawn at it and its target. -/
def drawnEdge (e : GraphEdge) : State × String × State := (e.source, e.label.getD "ε", e.target)

theorem toList_toDot (G : Graph) : G.toDot.toList = "digraph \x7b\n".toList ++
    ((G.nodes.flatMap fun n => (dotNode n).toList) ++ ((G.edges.map drawnEdge).flatMap edgeText ++ "\x7d\n".toList)) := by
  have hedges : (G.edges.map drawnEdge).flatMap edgeText = G.edges.flatMap fun e => (dotEdge e).toList :=
    List.flatMap_map _ _ _
  rw [hedges]
  simp [toDot, List.flatMap_map]

theorem shown_eq_iff {G H : Graph} :
    G.shown = H.shown ↔ G.nodes = H.nodes ∧ G.edges.map drawnEdge = H.edges.map drawnEdge := by
  have hshown : ∀ G : Graph, G.shown.edges =
      (G.edges.map drawnEdge).map fun e => (⟨e.1, e.2.2, some e.2.1⟩ : GraphEdge) := by
    intro G
    rw [List.map_map]
    rfl
  have hinjective : Function.Injective fun e : State × String × State => (⟨e.1, e.2.2, some e.2.1⟩ : GraphEdge) := by
    intro d e h
    simp only [GraphEdge.mk.injEq, Option.some.injEq] at h
    exact Prod.ext h.1 (Prod.ext h.2.2 h.2.1)
  rw [Graph.mk.injEq]
  change G.nodes = H.nodes ∧ G.shown.edges = H.shown.edges ↔ _
  rw [hshown, hshown, (List.map_injective_iff.2 hinjective).eq_iff]

/-- Graphs with the same text are drawn alike, and no others have the same text. -/
theorem toDot_eq_iff_shown_eq {G H : Graph} : G.toDot = H.toDot ↔ G.shown = H.shown := by
  rw [← String.toList_inj, toList_toDot, toList_toDot, shown_eq_iff]
  constructor
  · intro h
    obtain ⟨hnodes, h⟩ := nodeLines_selfDelimiting _ _ _ _ ⟨_, rfl⟩ ⟨_, rfl⟩ (List.append_cancel_left h)
    exact ⟨hnodes, (edgeLines_selfDelimiting _ _ _ _ rfl rfl h).1⟩
  · intro ⟨hnodes, hedges⟩
    rw [hnodes, hedges]

end Graph

namespace Automaton

variable {A B : Automaton}

/-- Graphs have the same nodes when the automata have as many states, and each is drawn alike in both. -/
theorem nodes_toGraph_eq_iff : A.toGraph.nodes = B.toGraph.nodes ↔ A.numStates = B.numStates ∧
    ∀ q < A.numStates, A.stateName q = B.stateName q ∧ A.starts.contains q = B.starts.contains q ∧
      A.finals.contains q = B.finals.contains q := by
  constructor
  · intro h
    have hcount : A.numStates = B.numStates := by simpa [toGraph] using congrArg List.length h
    refine ⟨hcount, fun q hq => ?_⟩
    have hnode := congrArg (fun nodes => nodes[q]?) h
    simpa [toGraph, List.getElem?_range hq, List.getElem?_range (hcount ▸ hq)] using hnode
  · intro ⟨hcount, hstates⟩
    rw [toGraph, toGraph, ← hcount]
    refine List.map_congr_left fun q hq => ?_
    obtain ⟨hname, hstart, hfinal⟩ := hstates q (List.mem_range.1 hq)
    rw [hname, hstart, hfinal]

theorem map_drawnEdge_toGraph (A : Automaton) : A.toGraph.edges.map Graph.drawnEdge =
    A.labelledTransitions.map fun t => (t.1, t.2.1.display, t.2.2) := by
  rw [toGraph, List.map_map]
  refine List.map_congr_left fun ⟨p, l, q⟩ _ => ?_
  cases l <;> rfl

/-- Two automata have the same Graphviz text exactly if their graphs differ at most in edges without a label and edges
whose label is the letter epsilon. So the text tells the number of states, the name, the arrow and the border of each,
and the transitions in their order, whatever the names of states and symbols are. -/
theorem toDot_toGraph_eq_iff (A B : Automaton) :
    (A.toGraph.toDot = B.toGraph.toDot ↔ A.toGraph.shown = B.toGraph.shown) ∧
    (A.toGraph.toDot = B.toGraph.toDot ↔
      (A.numStates = B.numStates ∧ ∀ q < A.numStates, A.stateName q = B.stateName q ∧
        A.starts.contains q = B.starts.contains q ∧ A.finals.contains q = B.finals.contains q) ∧
      A.labelledTransitions.map (fun t => (t.1, t.2.1.display, t.2.2)) =
        B.labelledTransitions.map fun t => (t.1, t.2.1.display, t.2.2)) := by
  refine ⟨Graph.toDot_eq_iff_shown_eq, ?_⟩
  rw [Graph.toDot_eq_iff_shown_eq, Graph.shown_eq_iff, nodes_toGraph_eq_iff, map_drawnEdge_toGraph,
    map_drawnEdge_toGraph]

end Automaton

end RegularLanguages
