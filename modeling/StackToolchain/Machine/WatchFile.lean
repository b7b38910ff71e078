import StackToolchain.Machine.Watch
import StackToolchain.Text.Numeral
import StackToolchain.Yaml.Reader

/-! Watch points written in YAML: a mapping from program counters to what to print there. -/
namespace StackToolchain

open Yaml (Node Document Extract)

/-- The digits of a numeral and their radix. A decimal numeral does not begin with a needless zero. -/
def Yaml.numeral? (text : List Char) : Option (Nat × List Char) :=
  match text with
  | '0' :: 'x' :: rest => some (16, rest)
  | '0' :: 'o' :: rest => some (8, rest)
  | '0' :: 'b' :: rest => some (2, rest)
  | '0' :: _ :: _ => none
  | text => some (10, text)

/-- The text of a scalar that may stand for a number or a truth value: one that is plain, or a literal block with
the tag of its kind. -/
def Yaml.valueText? (kind : String) : Node → Option String
  | .scalar text .plain _ => some text
  | .scalar text .literal (some tag) => if tag = ("tag:yaml.org,2002:" ++ kind).toUTF8.toList then some text else none
  | _ => none

namespace WatchPoint

def wordOfText? (text : String) : Option UInt16 := do
  let (radix, digits) ← Yaml.numeral? (Text.dropPlus text.toList)
  return (← (Text.readDigits radix 0x10000 digits).toOption).toUInt16

def flagOfText? (text : String) : Option Bool :=
  if text ∈ ["true", "True", "TRUE"] then some true
  else if text ∈ ["false", "False", "FALSE"] then some false
  else none

def word (d : Document) (node : Node) : Extract UInt16 := do
  Extract.ofOption ((Yaml.valueText? "int" (← Extract.follow d node)).bind wordOfText?)

def flag (d : Document) (node : Node) : Extract Bool := do
  Extract.ofOption ((Yaml.valueText? "bool" (← Extract.follow d node)).bind flagOfText?)

def words (d : Document) (node : Node) : Extract (List UInt16) := do
  match ← Extract.follow d node with
  | .list items => items.mapM (word d)
  | node => if node.isAbsent then return [] else failure

def entries (d : Document) (node : Node) : Extract (List (Node × Node)) := do
  match ← Extract.follow d node with
  | .mapping entries => return entries
  | node => if node.isAbsent then return [] else failure

def name (d : Document) (node : Node) : Extract String := do
  match ← Extract.follow d node with
  | .scalar text .. => return text
  | _ => failure

/-- The value of a field with a name, which may stand once, or what counts without it. -/
def field {α : Type} (name : String) (otherwise : α) (read : Node → Extract α) (fields : List (String × Node)) :
    Extract α :=
  match fields.filter (·.1 == name) with
  | [] => return otherwise
  | [(_, node)] => read node
  | _ => failure

/-- A watch point. Every field has a name, and fields of other names do not count. -/
def ofNode (d : Document) (node : Node) : Extract WatchPoint := do
  let fields ← (← entries d node).mapM fun (key, value) => do return (← name d key, value)
  let stack ← field "stack" false (flag d) fields
  let heap ← field "heap" [] (words d) fields
  return { stack, heap }

end WatchPoint

/-- Watch points with one more, which replaces an earlier one at its program counter. -/
def addPoint (points : List (UInt16 × WatchPoint)) (pc : UInt16) (point : WatchPoint) :
    List (UInt16 × WatchPoint) :=
  (pc, point) :: points.filter (·.1 ≠ pc)

def watchPoints (d : Document) : Extract (List (UInt16 × WatchPoint)) := do
  (← WatchPoint.entries d d.root).foldlM (fun points (key, value) => do
    return addPoint points (← WatchPoint.word d key) (← WatchPoint.ofNode d value)) []

def watchPoints? (text : String) : Option (List (UInt16 × WatchPoint)) := do
  let d ← Yaml.readDocument text
  return (← (watchPoints d).run 0).1

end StackToolchain
