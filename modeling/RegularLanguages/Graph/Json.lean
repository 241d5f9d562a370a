import RegularLanguages.Graph.Basic
import RegularLanguages.Json.Skip

/-!
Graphs as JSON. A record is written as an object with its fields in order. It is read from such an object
with the fields in any order and unknown fields ignored, or from an array of all its fields in order.
-/
namespace RegularLanguages

open Json

def maxStateNumber : Nat := 4294967295

/-- Reads a field that has not been read before. -/
def readOnce {α : Type} (known : Option α) (read : Reader α) : Reader α := fun s =>
  match known with
  | some _ => none
  | none => read s

/-- Reads a record: an object whose members `member` gathers and `finish` makes into the record, or an
array that `fields` reads after its opening bracket. -/
def readRecord {α β : Type} (member : String → β → Reader β) (start : β) (finish : β → Option α)
    (fields : Reader α) : Reader α := fun s =>
  match skipBlanks s with
  | '\x7b' :: s => do
    let (gathered, s) ← readObject member start s
    return (← finish gathered, s)
  | '[' :: s => fields s
  | _ => none

def writeMember (name : String) (value : List Char) : List Char := writeString name ++ ':' :: value

def writeObject (members : List (List Char)) : List Char := '\x7b' :: (separate members ++ ['\x7d'])

def writeArray (values : List (List Char)) : List Char := '[' :: (separate values ++ [']'])

def writeNat (n : Nat) : List Char := (toString n).toList

def writeBool (b : Bool) : List Char := if b then "true".toList else "false".toList

namespace GraphNode

def toJson (n : GraphNode) : List Char :=
  writeObject [writeMember "id" (writeNat n.id), writeMember "label" (writeString n.label),
    writeMember "is_start" (writeBool n.isStart), writeMember "is_final" (writeBool n.isFinal)]

structure Draft where
  id : Option Nat := none
  label : Option String := none
  isStart : Option Bool := none
  isFinal : Option Bool := none

def member (name : String) (d : Draft) : Reader Draft := fun s =>
  match name with
  | "id" => (readOnce d.id (readNat maxStateNumber) s).map fun p => ({ d with id := some p.1 }, p.2)
  | "label" => (readOnce d.label readString s).map fun p => ({ d with label := some p.1 }, p.2)
  | "is_start" => (readOnce d.isStart readBool s).map fun p => ({ d with isStart := some p.1 }, p.2)
  | "is_final" => (readOnce d.isFinal readBool s).map fun p => ({ d with isFinal := some p.1 }, p.2)
  | _ => (skip s).map fun s => (d, s)

/-- Every field is needed. -/
def ofDraft (d : Draft) : Option GraphNode := do
  return ⟨← d.id, ← d.label, ← d.isStart, ← d.isFinal⟩

def read : Reader GraphNode := readRecord member {} ofDraft fun s => do
  let (id, s) ← readNat maxStateNumber s
  let (label, s) ← readString (← expect ',' s)
  let (isStart, s) ← readBool (← expect ',' s)
  let (isFinal, s) ← readBool (← expect ',' s)
  return (⟨id, label, isStart, isFinal⟩, ← expect ']' s)

end GraphNode

namespace GraphEdge

def toJson (e : GraphEdge) : List Char :=
  writeObject [writeMember "source" (writeNat e.source), writeMember "target" (writeNat e.target),
    writeMember "label" ((e.label.map writeString).getD "null".toList)]

structure Draft where
  source : Option Nat := none
  target : Option Nat := none
  label : Option (Option String) := none

def member (name : String) (d : Draft) : Reader Draft := fun s =>
  match name with
  | "source" =>
    (readOnce d.source (readNat maxStateNumber) s).map fun p => ({ d with source := some p.1 }, p.2)
  | "target" =>
    (readOnce d.target (readNat maxStateNumber) s).map fun p => ({ d with target := some p.1 }, p.2)
  | "label" =>
    (readOnce d.label (readNullable readString) s).map fun p => ({ d with label := some p.1 }, p.2)
  | _ => (skip s).map fun s => (d, s)

/-- The label may be absent, which means the same as `null`. -/
def ofDraft (d : Draft) : Option GraphEdge := do
  return ⟨← d.source, ← d.target, d.label.join⟩

def read : Reader GraphEdge := readRecord member {} ofDraft fun s => do
  let (source, s) ← readNat maxStateNumber s
  let (target, s) ← readNat maxStateNumber (← expect ',' s)
  let (label, s) ← readNullable readString (← expect ',' s)
  return (⟨source, target, label⟩, ← expect ']' s)

end GraphEdge

namespace Graph

def toJson (G : Graph) : List Char :=
  writeObject [writeMember "nodes" (writeArray (G.nodes.map GraphNode.toJson)),
    writeMember "edges" (writeArray (G.edges.map GraphEdge.toJson))]

structure Draft where
  nodes : Option (List GraphNode) := none
  edges : Option (List GraphEdge) := none

def member (name : String) (d : Draft) : Reader Draft := fun s =>
  match name with
  | "nodes" =>
    (readOnce d.nodes (readArray GraphNode.read) s).map fun p => ({ d with nodes := some p.1 }, p.2)
  | "edges" =>
    (readOnce d.edges (readArray GraphEdge.read) s).map fun p => ({ d with edges := some p.1 }, p.2)
  | _ => (skip s).map fun s => (d, s)

/-- Both fields are needed. -/
def ofDraft (d : Draft) : Option Graph := do
  return ⟨← d.nodes, ← d.edges⟩

def read : Reader Graph := readRecord member {} ofDraft fun s => do
  let (nodes, s) ← readArray GraphNode.read s
  let (edges, s) ← readArray GraphEdge.read (← expect ',' s)
  return (⟨nodes, edges⟩, ← expect ']' s)

def ofJson? (text : String) : Option Graph := readWhole read text

end Graph

end RegularLanguages
