import RegularLanguages.Expression.Json
import RegularLanguages.Proofs.JsonText

/-!
Exports are read back: the JSON text of an expression is read as that expression, up to the nesting at which reading
gives up, and the JSON text of a graph as that graph.
-/
namespace RegularLanguages

open Json

namespace Expression

/-- How deep objects and arrays are nested in the text of an expression. -/
def nesting : Expression → Nat
  | empty | epsilon => 0
  | symbol _ => 1
  | concatenation l r | union l r => max l.nesting r.nesting + 2
  | kleeneStar e => e.nesting + 1

/-- `read` for what stands inside an array inside an object, when the object may be nested so deep. -/
def deeper : Nat → Reader Expression
  | 0 => fun _ => none
  | depth + 1 => read depth

private theorem read_writeString {name : String} {e : Expression} (h : ofName? name = some e) (depth : Nat)
    (rest : List Char) : read depth (writeString name ++ rest) = some (e, rest) := by
  have htext : writeString name ++ rest = '"' :: (name.toList.flatMap escape ++ '"' :: rest) := by
    simp [writeString]
  have hblank : skipBlanks ('"' :: (name.toList.flatMap escape ++ '"' :: rest)) =
      '"' :: (name.toList.flatMap escape ++ '"' :: rest) := skipBlanks_cons (by decide)
  have hchars := readChars_flatMap_escape name.toList rest
  rw [htext, read, hblank]
  simp [hchars, h]

private theorem read_writeTagged {tag : String} {value rest : List Char} {e : Expression} (limit : Nat)
    (h : ∀ depth, readOperands (read depth) (deeper depth) tag (value ++ '\x7d' :: rest) =
      if limit ≤ depth then some (e, '\x7d' :: rest) else none) (depth : Nat) :
    read depth (writeTagged tag value ++ rest) = if limit + 1 ≤ depth then some (e, rest) else none := by
  have htext : writeTagged tag value ++ rest =
      '\x7b' :: (writeString tag ++ ':' :: (value ++ '\x7d' :: rest)) := by
    simp [writeTagged]
  have hblank : skipBlanks ('\x7b' :: (writeString tag ++ ':' :: (value ++ '\x7d' :: rest))) =
      '\x7b' :: (writeString tag ++ ':' :: (value ++ '\x7d' :: rest)) := skipBlanks_cons (by decide)
  have hname := readString_writeString tag (':' :: (value ++ '\x7d' :: rest))
  have hcolon : expect ':' (':' :: (value ++ '\x7d' :: rest)) = some (value ++ '\x7d' :: rest) :=
    expect_cons (by decide)
  have hclose : expect '\x7d' ('\x7d' :: rest) = some rest := expect_cons (by decide)
  rw [htext, read, hblank]
  match depth with
  | 0 => rfl
  | 1 =>
    have hoperands := h 0
    rw [deeper] at hoperands
    by_cases hle : limit ≤ 0 <;> simp [hname, hcolon, hoperands, hle, hclose]
  | depth + 2 =>
    have hoperands := h (depth + 1)
    rw [deeper] at hoperands
    by_cases hle : limit ≤ depth + 1 <;> simp [hname, hcolon, hoperands, hle, hclose]

private theorem readPair_eq {l r : Expression} (depth : Nat) (rest : List Char)
    (hl : ∀ depth rest, read depth (l.toJson ++ rest) = if l.nesting ≤ depth then some (l, rest) else none)
    (hr : ∀ depth rest, read depth (r.toJson ++ rest) = if r.nesting ≤ depth then some (r, rest) else none) :
    readPair (deeper depth) ('[' :: (l.toJson ++ ',' :: r.toJson ++ [']']) ++ rest) =
      if max l.nesting r.nesting + 1 ≤ depth then some ((l, r), rest) else none := by
  have htext : '[' :: (l.toJson ++ ',' :: r.toJson ++ [']']) ++ rest =
      '[' :: (l.toJson ++ ',' :: (r.toJson ++ ']' :: rest)) := by
    simp
  have hopen : expect '[' ('[' :: (l.toJson ++ ',' :: (r.toJson ++ ']' :: rest))) =
      some (l.toJson ++ ',' :: (r.toJson ++ ']' :: rest)) := expect_cons (by decide)
  have hcomma : expect ',' (',' :: (r.toJson ++ ']' :: rest)) = some (r.toJson ++ ']' :: rest) :=
    expect_cons (by decide)
  have hclose : expect ']' (']' :: rest) = some rest := expect_cons (by decide)
  rw [htext, readPair, hopen]
  cases depth with
  | zero => rfl
  | succ depth =>
    simp only [deeper, Option.bind_eq_bind, Option.bind_some, hl, Nat.succ_le_succ_iff, Nat.max_le]
    by_cases hleft : l.nesting ≤ depth
    · by_cases hright : r.nesting ≤ depth
      · simp [hleft, hright, hcomma, hr, hclose]
      · simp [hleft, hright, hcomma, hr]
    · simp [hleft]

/-- The text of an expression is read exactly if it is not nested too deep. -/
theorem read_toJson (e : Expression) (depth : Nat) (rest : List Char) :
    read depth (e.toJson ++ rest) = if e.nesting ≤ depth then some (e, rest) else none := by
  induction e generalizing depth rest with
  | empty => exact (read_writeString rfl depth rest).trans (if_pos (Nat.zero_le depth)).symm
  | epsilon => exact (read_writeString rfl depth rest).trans (if_pos (Nat.zero_le depth)).symm
  | symbol name =>
    refine read_writeTagged 0 (fun depth => ?_) depth
    simp [readOperands, readString_writeString]
  | concatenation l r ihl ihr | union l r ihl ihr =>
    refine read_writeTagged _ (fun depth => ?_) depth
    simp only [readOperands, readPair_eq depth _ ihl ihr]
    split <;> rfl
  | kleeneStar e ih =>
    refine read_writeTagged _ (fun depth => ?_) depth
    simp only [readOperands, ih]
    split <;> rfl

theorem ofJson?_toJson (e : Expression) :
    ofJson? (String.ofList e.toJson) = if e.nesting ≤ maxDepth then some e else none := by
  have hread := read_toJson e maxDepth []
  rw [List.append_nil] at hread
  by_cases hdepth : e.nesting ≤ maxDepth <;> simp [ofJson?, readWhole, hread, hdepth, skipBlanks]

/-- Distinct expressions have distinct texts, also when they are too deep to be read back. -/
theorem toJson_injective : Function.Injective toJson := by
  intro e f h
  have he := read_toJson e (max e.nesting f.nesting) []
  have hf := read_toJson f (max e.nesting f.nesting) []
  rw [if_pos (Nat.le_max_left _ _)] at he
  rw [← h, he, if_pos (Nat.le_max_right _ _)] at hf
  exact congrArg Prod.fst (Option.some.inj hf)

end Expression

/-- All numbers of states are within the range that is read. -/
structure Graph.Representable (G : Graph) : Prop where
  id_le : ∀ node ∈ G.nodes, node.id ≤ maxStateNumber
  ends_le : ∀ edge ∈ G.edges, edge.source ≤ maxStateNumber ∧ edge.target ≤ maxStateNumber

theorem GraphNode.reads_toJson {node : GraphNode} (h : node.id ≤ maxStateNumber) :
    Reads GraphNode.read node.toJson node := by
  obtain ⟨id, label, isStart, isFinal⟩ := node
  have hid : Reads (member "id" {}) (writeNat id) { id := some id } :=
    (reads_writeNat h).map fun id => ({ id := some id } : Draft)
  have hlabel : Reads (member "label" { id := some id }) (writeString label)
      { id := some id, label := some label } :=
    (reads_writeString label).map fun label => ({ id := some id, label := some label } : Draft)
  have hstart : Reads (member "is_start" { id := some id, label := some label }) (writeBool isStart)
      { id := some id, label := some label, isStart := some isStart } :=
    (reads_writeBool isStart).map fun isStart =>
      ({ id := some id, label := some label, isStart := some isStart } : Draft)
  have hfinal : Reads (member "is_final" { id := some id, label := some label, isStart := some isStart })
      (writeBool isFinal) ⟨some id, some label, some isStart, some isFinal⟩ :=
    (reads_writeBool isFinal).map fun isFinal => (⟨some id, some label, some isStart, some isFinal⟩ : Draft)
  exact (Gathers.cons hid (.cons hlabel (.cons hstart (.cons hfinal (.nil _))))).reads ofDraft rfl _

theorem GraphEdge.reads_toJson {edge : GraphEdge} (hsource : edge.source ≤ maxStateNumber)
    (htarget : edge.target ≤ maxStateNumber) : Reads GraphEdge.read edge.toJson edge := by
  obtain ⟨source, target, label⟩ := edge
  have hnullable : Reads (readNullable readString) ((label.map writeString).getD "null".toList) label :=
    reads_nullable label reads_writeString fun _ => ⟨_, rfl⟩
  have hfirst : Reads (member "source" {}) (writeNat source) { source := some source } :=
    (reads_writeNat hsource).map fun source => ({ source := some source } : Draft)
  have hsecond : Reads (member "target" { source := some source }) (writeNat target)
      { source := some source, target := some target } :=
    (reads_writeNat htarget).map fun target => ({ source := some source, target := some target } : Draft)
  have hlabel : Reads (member "label" { source := some source, target := some target })
      ((label.map writeString).getD "null".toList) ⟨some source, some target, some label⟩ :=
    hnullable.map fun label => (⟨some source, some target, some label⟩ : Draft)
  exact (Gathers.cons hfirst (.cons hsecond (.cons hlabel (.nil _)))).reads ofDraft rfl _

namespace Graph

theorem Representable.reads_toJson {G : Graph} (h : G.Representable) : Reads Graph.read G.toJson G := by
  obtain ⟨nodes, edges⟩ := G
  have hnodes : Reads (readArray GraphNode.read) (writeArray (nodes.map GraphNode.toJson)) nodes :=
    reads_writeArray (fun node hnode => GraphNode.reads_toJson (h.id_le node hnode)) fun _ => ⟨_, rfl⟩
  have hedges : Reads (readArray GraphEdge.read) (writeArray (edges.map GraphEdge.toJson)) edges := by
    refine reads_writeArray (fun edge hedge => ?_) fun _ => ⟨_, rfl⟩
    obtain ⟨hsource, htarget⟩ := h.ends_le edge hedge
    exact GraphEdge.reads_toJson hsource htarget
  have hfirst : Reads (member "nodes" {}) (writeArray (nodes.map GraphNode.toJson)) { nodes := some nodes } :=
    hnodes.map fun nodes => ({ nodes := some nodes } : Draft)
  have hsecond : Reads (member "edges" { nodes := some nodes }) (writeArray (edges.map GraphEdge.toJson))
      ⟨some nodes, some edges⟩ :=
    hedges.map fun edges => (⟨some nodes, some edges⟩ : Draft)
  exact (Gathers.cons hfirst (.cons hsecond (.nil _))).reads ofDraft rfl _

theorem Representable.ofJson?_toJson {G : Graph} (h : G.Representable) :
    ofJson? (String.ofList G.toJson) = some G :=
  h.reads_toJson.whole

end Graph

/-- JSON texts of expressions and graphs are read back as what they were written from, and tell all of it. Only an
expression nested deeper than reading goes is not read. -/
theorem json_round_trip :
    (∀ e : Expression, Expression.ofJson? (String.ofList e.toJson) =
      if e.nesting ≤ Expression.maxDepth then some e else none) ∧
    (∀ e f : Expression, String.ofList e.toJson = String.ofList f.toJson → e = f) ∧
    (∀ G : Graph, G.Representable → Graph.ofJson? (String.ofList G.toJson) = some G) ∧
    ∀ G H : Graph, G.Representable → H.Representable → String.ofList G.toJson = String.ofList H.toJson → G = H := by
  refine ⟨Expression.ofJson?_toJson, fun e f h => Expression.toJson_injective (String.ofList_injective h),
    fun G hG => hG.ofJson?_toJson, fun G H hG hH h => ?_⟩
  have hread := hG.ofJson?_toJson
  rw [h, hH.ofJson?_toJson] at hread
  exact (Option.some.inj hread).symm

/-- A loop without a label and one whose label needs escapes. -/
def loops : Graph := ⟨[⟨0, "\x7b0\x7d", true, false⟩], [⟨0, 0, none⟩, ⟨0, 0, some "\"\\\n"⟩]⟩

theorem json_round_trip_loops : loops.Representable ∧ Graph.ofJson? (String.ofList loops.toJson) = some loops ∧
    Graph.Representable ⟨[], []⟩ ∧ String.ofList loops.toJson ≠ String.ofList (Graph.toJson ⟨[], []⟩) := by
  have hloops : loops.Representable := ⟨by decide, by decide⟩
  have hnone : Graph.Representable ⟨[], []⟩ := ⟨nofun, nofun⟩
  obtain ⟨_, _, hread, hinjective⟩ := json_round_trip
  exact ⟨hloops, hread loops hloops, hnone, fun h => nomatch hinjective loops ⟨[], []⟩ hloops hnone h⟩

end RegularLanguages
