import StackToolchain.Yaml.Token

/-! The data of YAML documents. -/
namespace StackToolchain.Yaml

inductive Node where
  | scalar (text : String) (style : ScalarStyle) (tag : Option (List UInt8))
  | list (items : List Node)
  | mapping (entries : List (Node × Node))
  /-- a value with an anchor, whose number is that of the names before it -/
  | anchored (number : Nat) (node : Node)
  | reference (number : Nat)
  deriving Repr

namespace Node

def absent : Node := .scalar "" .plain none

def isAbsent : Node → Bool
  | .scalar text style _ => text.isEmpty && style = .plain
  | _ => false

def bare : Node → Node
  | .anchored _ node => node.bare
  | node => node

mutual

def anchors : Node → List (Nat × Node)
  | .scalar .. => []
  | .list items => anchorsOfItems items
  | .mapping entries => anchorsOfEntries entries
  | .anchored number node => (number, node) :: node.anchors
  | .reference _ => []

def anchorsOfItems : List Node → List (Nat × Node)
  | [] => []
  | node :: rest => node.anchors ++ anchorsOfItems rest

def anchorsOfEntries : List (Node × Node) → List (Nat × Node)
  | [] => []
  | (key, value) :: rest => key.anchors ++ value.anchors ++ anchorsOfEntries rest

end

mutual

/-- The number of steps of a walk through a value: one for a text or a reference, one into and one out of a list or
mapping. -/
def steps : Node → Nat
  | .scalar .. => 1
  | .list items => 2 + stepsOfItems items
  | .mapping entries => 2 + stepsOfEntries entries
  | .anchored _ node => node.steps
  | .reference _ => 1

def stepsOfItems : List Node → Nat
  | [] => 0
  | node :: rest => node.steps + stepsOfItems rest

def stepsOfEntries : List (Node × Node) → Nat
  | [] => 0
  | (key, value) :: rest => key.steps + value.steps + stepsOfEntries rest

end

end Node

structure Document where
  root : Node
  anchors : List (Nat × Node)
  limit : Nat

/-- The document of a value. A hundred references may be followed for every step of a walk through it. -/
def Document.ofRoot (root : Node) : Document :=
  ⟨root, root.anchors.reverse, 100 * root.steps⟩

abbrev Extract := StateT Nat Option

namespace Extract

def ofOption {α : Type} (found : Option α) : Extract α := fun followed => do
  return (← found, followed)

/-- What a value of a document stands for: a reference stands for the value at the last anchor of its number. -/
def follow (d : Document) (node : Node) : Extract Node :=
  match node.bare with
  | .reference number => fun followed =>
    if followed < d.limit then some (((d.anchors.lookup number).getD .absent).bare, followed + 1) else none
  | node => return node

end Extract

end StackToolchain.Yaml
