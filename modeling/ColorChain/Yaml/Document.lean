import ColorChain.Yaml.Lexer
import ColorChain.Yaml.Node
import ColorChain.Yaml.Plain

/-!
# From text to value

A text is a document if its tokens form one node, every alias has an anchor, no mapping has a key
twice, and collections are not nested too deeply once aliases are replaced.
-/

namespace ColorChain.Yaml

/-! ## Anchors and aliases -/

/-- A node with its aliases given by the numbers of anchors. -/
abbrev NumberedNode := Node Nat

/-- The anchors read so far: their names with their numbers, the latest first, and the nodes that
numbers were given to, the latest first. An anchor's number counts the distinct names read before
it. A name read again gets a new number, which the next new name can take over. -/
structure Anchors where
  names : List (List Char × Nat) := []
  nodes : List (Nat × NumberedNode) := []

namespace Anchors

/-- Reads the anchor of a node. -/
def declare (a : Anchors) (properties : Properties) : Option Nat × Anchors :=
  match properties.anchor? with
  | none => (none, a)
  | some name =>
    let others := a.names.filter (·.1 ≠ name)
    (some a.names.length, { a with names := (name, a.names.length) :: others })

/-- Records the node of an anchor: before all nodes recorded until `outside`, and after those of its
own parts. -/
def record (a : Anchors) (number? : Option Nat) (outside : Nat) (node : NumberedNode) : Anchors :=
  match number? with
  | none => a
  | some number =>
    let inner := a.nodes.length - outside
    { a with nodes := a.nodes.take inner ++ (number, node) :: a.nodes.drop inner }

/-- The node with a number. -/
def node? (a : Anchors) (number : Nat) : Option NumberedNode :=
  (a.nodes.find? (·.1 = number)).map (·.2)

mutual

/-- Replaces the names of aliases by numbers. Every alias needs an anchor before it. -/
def number (a : Anchors) : NamedNode → Option (NumberedNode × Anchors)
  | .aliasOf name => (a.names.find? (·.1 = name)).map fun (_, number) => (.aliasOf number, a)
  | .scalar properties plain text =>
    let (number?, declared) := a.declare properties
    let node := .scalar properties plain text
    some (node, declared.record number? a.nodes.length node)
  | .sequence properties items => do
    let (number?, declared) := a.declare properties
    let (items, after) ← declared.numberAll items
    let node := .sequence properties items
    return (node, after.record number? a.nodes.length node)
  | .mapping properties entries => do
    let (number?, declared) := a.declare properties
    let (entries, after) ← declared.numberEntries entries
    let node := .mapping properties entries
    return (node, after.record number? a.nodes.length node)

def numberAll (a : Anchors) : List NamedNode → Option (List NumberedNode × Anchors)
  | [] => some ([], a)
  | node :: rest => do
    let (node, a) ← a.number node
    let (rest, a) ← a.numberAll rest
    return (node :: rest, a)

def numberEntries (a : Anchors) :
    List (NamedNode × NamedNode) → Option (List (NumberedNode × NumberedNode) × Anchors)
  | [] => some ([], a)
  | (key, value) :: rest => do
    let (key, a) ← a.number key
    let (value, a) ← a.number value
    let (rest, a) ← a.numberEntries rest
    return ((key, value) :: rest, a)

end

end Anchors

namespace Node

variable {ν : Type}

mutual

/-- The number of parts of a node: each scalar and alias is one, a collection adds its start and its
end. -/
def size : Node ν → Nat
  | aliasOf _ => 1
  | scalar .. => 1
  | sequence _ items => 2 + sizeAll items
  | mapping _ entries => 2 + sizeEntries entries

def sizeAll : List (Node ν) → Nat
  | [] => 0
  | node :: rest => size node + sizeAll rest

def sizeEntries : List (Node ν × Node ν) → Nat
  | [] => 0
  | (key, value) :: rest => size key + size value + sizeEntries rest

end

end Node

/-! ## Values of nodes -/

/-- A computation that may replace a limited number of aliases. -/
abbrev Expansion := StateT Nat Option

/-- The node that a node stands for. -/
def follow (anchors : Anchors) (node : NumberedNode) : Expansion NumberedNode :=
  match node with
  | .aliasOf number => fun
    | 0 => none
    | left + 1 => (anchors.node? number).map fun node => (node, left)
  | node => pure node

/-- A value under the tag of a collection. -/
def Properties.wrap (properties : Properties) (value : Value) : Value :=
  match properties.tag?.bind Tag.ofBytes? with
  | some (.named name) => .tagged name value
  | _ => value

/-- The value of a node in which collections are nested at most `depth` deep. -/
def expand (anchors : Anchors) : Nat → NumberedNode → Expansion Value
  | depth, node => do
    match depth, ← follow anchors node with
    | _, .aliasOf _ => failure
    | _, .scalar properties plain text =>
      (scalarValue? (properties.tag?.bind Tag.ofBytes?) plain text : Option Value)
    | 0, _ => failure
    | depth + 1, .sequence properties items => do
      let items ← items.mapM (expand anchors depth)
      return properties.wrap (.sequence items)
    | depth + 1, .mapping properties entries => do
      let entries ← entries.mapM fun (key, value) => do
        let key ← expand anchors depth key
        let value ← expand anchors depth value
        return (key, value)
      if Value.distinctKeys entries then return properties.wrap (.mapping entries) else failure

/-- How deep collections may be nested. -/
def maxDepth : Nat := 128

/-- How many aliases may be replaced for each part of a document. -/
def aliasesPerPart : Nat := 100

/-- The value of a document. -/
def Value.ofNode? (root : NamedNode) : Option Value := do
  let (root, anchors) ← ({} : Anchors).number root
  let (value, _) ← (expand anchors maxDepth root).run (aliasesPerPart * root.size)
  return value

/-- The value that a text says, if it is a document. -/
def Value.ofText? (cs : List Char) : Option Value :=
  (tokens? cs).bind fun ts => (NamedNode.ofTokens? ts).bind Value.ofNode?

end ColorChain.Yaml
