import StackToolchain.Assembly.Labels
import StackToolchain.Compiler.Frame

/-! Symbol maps: the labels and frames of a compiled source, and their text in YAML. -/
namespace StackToolchain

structure SymbolMap where
  labels : Labels
  frames : Table Frame
  deriving DecidableEq, Repr

namespace SymbolMap

def reservedScalars : List String :=
  ["null", "Null", "NULL", "true", "True", "TRUE", "false", "False", "FALSE"]

/-- A name as a scalar: in quotes if it would read as something other than a text. -/
def scalar (name : String) : String :=
  if reservedScalars.contains name then "'" ++ name ++ "'" else name

/-- An entry of a mapping at an indent, with the value that follows its key. Keys of more than 128 bytes are
written on a line of their own. -/
def entry (indent : String) (name : String) (spaced : Bool) (value : String) : String :=
  if name.utf8ByteSize > 128 then indent ++ "? " ++ scalar name ++ "\n" ++ indent ++ ": " ++ value
  else indent ++ scalar name ++ ":" ++ (if spaced then " " else "\n" ++ indent ++ "  ") ++ value

def slotList (key : String) (slots : List FrameSlot) : List String :=
  if slots.isEmpty then [key ++ ": []"]
  else
    (key ++ ":") :: slots.flatMap fun slot =>
      ["- name: " ++ scalar slot.name, "  offset: " ++ toString slot.offset.toInt]

def frameText (indent : String) (frame : Frame) : String :=
  ("\n" ++ indent).intercalate
    (("size: " ++ toString frame.size.toNat) :: slotList "args" frame.args ++ slotList "locals" frame.locals)

def mapping (key : String) (entries : List String) : String :=
  if entries.isEmpty then key ++ ": \x7b\x7d\n" else key ++ ":\n" ++ Text.unlines entries

def toYaml (map : SymbolMap) : String :=
  mapping "labels" (map.labels.entries.map fun (name, addr) => entry "  " name true (toString addr.toNat)) ++
    mapping "frames" (map.frames.entries.map fun (name, frame) => entry "  " name false (frameText "    " frame))

end SymbolMap

end StackToolchain
