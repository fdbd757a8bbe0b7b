import ObjectFlow.Yaml.Scalar

/-!
# Nodes with anchors and aliases

The tree that a text spells out.  An alias stands for a copy of the node with the anchor
of its number; of several nodes with one number, the last one counts, even where it
comes after the alias.  Following the aliases gives the value of a node, in which at most
`maxDepth` collections may stand one inside the other.
-/

namespace ObjectFlow.Yaml

/-- The number of collections that may stand one inside the other. -/
def maxDepth : Nat := 128

/-- What may stand before a node. -/
structure Properties where
  anchor : Option Nat := none
  tag : Option Tag := none
  deriving DecidableEq, Repr

namespace Properties

def isEmpty (properties : Properties) : Bool :=
  properties.anchor.isNone && properties.tag.isNone

/-- A collection with the name of its tag. -/
def apply (properties : Properties) (yaml : Yaml) : Yaml :=
  match properties.tag with
  | some (.named name) => .tagged name yaml
  | _ => yaml

end Properties

inductive Node where
  /-- An alias. -/
  | reference (number : Nat)
  | scalar (anchor : Option Nat) (value : Yaml)
  | sequence (properties : Properties) (items : List Node)
  | mapping (properties : Properties) (entries : List (Node × Node))
  deriving Repr

namespace Node

def anchor? : Node → Option Nat
  | .reference _ => none
  | .scalar anchor _ => anchor
  | .sequence properties _ => properties.anchor
  | .mapping properties _ => properties.anchor

mutual

/-- A node and all those inside of it, in the order of the text. -/
def parts : Node → List Node
  | .reference number => [.reference number]
  | .scalar anchor value => [.scalar anchor value]
  | .sequence properties items => .sequence properties items :: partsOfItems items
  | .mapping properties entries => .mapping properties entries :: partsOfEntries entries

def partsOfItems : List Node → List Node
  | [] => []
  | item :: rest => item.parts ++ partsOfItems rest

def partsOfEntries : List (Node × Node) → List Node
  | [] => []
  | (key, value) :: rest => key.parts ++ value.parts ++ partsOfEntries rest

end

/-- The nodes with anchors, the last one first. -/
def targets (node : Node) : List (Nat × Node) :=
  (node.parts.filterMap fun part => part.anchor?.map (·, part)).reverse

/-- A collection has a start and an end, all else is one piece. -/
def pieces : Node → Nat
  | .sequence .. => 2
  | .mapping .. => 2
  | _ => 1

/-- The number of aliases that may be followed. -/
def allowance (node : Node) : Nat :=
  100 * node.parts.foldl (fun count part => count + part.pieces) 0

/-- Follows an alias, which costs one of the allowance. -/
def follow (targets : List (Nat × Node)) : Node → StateT Nat Option Node
  | .reference number => fun
    | 0 => none
    | left + 1 => (targets.lookup number).map (·, left)
  | node => pure node

/-- The value of a node, with at most `depth` collections one inside the other. -/
def expand (targets : List (Nat × Node)) : (depth : Nat) → Node → StateT Nat Option Yaml
  | 0, node => do
    match ← follow targets node with
    | .scalar _ value => return value
    | _ => failure
  | depth + 1, node => do
    match ← follow targets node with
    | .reference _ => failure
    | .scalar _ value => return value
    | .sequence properties items =>
      return properties.apply (.sequence (← items.mapM (expand targets depth)))
    | .mapping properties entries =>
      let entries ← entries.foldlM (fun done (key, value) => do
        addEntry done (← expand targets depth key) (← expand targets depth value)) []
      return properties.apply (.mapping entries.reverse)

/-- The value of a whole document. -/
def value? (node : Node) : Option Yaml :=
  (expand node.targets maxDepth node).run' node.allowance

end Node

end ObjectFlow.Yaml
