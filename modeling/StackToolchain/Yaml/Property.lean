import StackToolchain.Text.Numeral
import StackToolchain.Yaml.Characters
import StackToolchain.Yaml.Token

/-! Reading what stands beside values: anchors and aliases, tags, and the directives before a document. Each reader
gives what it read and the cursor after it, which is on the same line. -/
namespace StackToolchain.Yaml

def readWord (isMember : Char → Bool) (p : Cursor) : List Char × Cursor :=
  let word := p.rest.takeWhile isMember
  (word, p.right word.length)

def readName (p : Cursor) : Option (String × Cursor) :=
  let (name, p) := readWord isWordChar p
  let ends := startsBlank p.rest || p.rest.head?.any (['?', ':', ',', ']', '\x7d', '%', '@', '\x60'].contains ·)
  if !name.isEmpty && ends then some (String.ofList name, p) else none

/-- Whether a character may stand in a tag; brackets and commas only where the tag is written in full. -/
def isTagChar (full : Bool) (c : Char) : Bool :=
  isWordChar c ||
    [';', '/', '?', ':', '@', '&', '=', '+', '$', '.', '!', '~', '*', '\'', '(', ')'].contains c ||
    (full && [',', '[', ']'].contains c)

def octetsAfter? (first : Nat) : Option Nat :=
  if first < 0x80 then some 0
  else if first / 0x20 = 6 then some 1
  else if first / 0x10 = 14 then some 2
  else if first / 0x08 = 30 then some 3
  else none

/-- Read the octets of a tag after those already read. A percent sign and two digits stand for an octet, and
octets that announce others are followed by them. -/
def readTagText (full : Bool) (done : List UInt8) (owed : Nat) (spot : Spot) :
    List Char → Option (List UInt8 × Cursor)
  | [] => if owed = 0 then some (done.reverse, ⟨spot, []⟩) else none
  | '%' :: a :: b :: rest =>
    match Text.digitValue? 16 a, Text.digitValue? 16 b with
    | some hi, some lo =>
      let octet := hi * 16 + lo
      if owed = 0 then
        match octetsAfter? octet with
        | some owed => readTagText full (octet.toUInt8 :: done) owed (spot.right 3) rest
        | none => none
      else if octet / 0x40 = 2 then readTagText full (octet.toUInt8 :: done) (owed - 1) (spot.right 3) rest
      else none
    | _, _ => none
  | c :: rest =>
    if owed ≠ 0 || c = '%' then none
    else if isTagChar full c then readTagText full (c.toNat.toUInt8 :: done) 0 (spot.right 1) rest
    else some (done.reverse, ⟨spot, c :: rest⟩)

def readHandle (p : Cursor) : Option (List Char × Cursor) :=
  match p.rest with
  | '!' :: _ =>
    let (word, p) := readWord isWordChar (p.right 1)
    match p.rest with
    | '!' :: _ => some ('!' :: word ++ ['!'], p.right 1)
    | _ => some ('!' :: word, p)
  | _ => none

def isFullHandle (handle : List Char) : Bool :=
  handle.length ≠ 1 && handle.getLast? = some '!'

def localTag (name : List UInt8) : Token :=
  if name.isEmpty then .tag "" "!".toUTF8.toList else .tag "!" name

def readFullTag (p : Cursor) : Option (Token × Cursor) := do
  let (suffix, p) ← readTagText true [] 0 p.spot p.rest
  if !suffix.isEmpty && p.rest.head? = some '>' then some (.tag "" suffix, p.right 1) else none

/-- Read a tag after a full handle, or else a local one, whose name began as a handle. -/
def readShortTag (p : Cursor) : Option (Token × Cursor) := do
  let (handle, p) ← readHandle p
  if isFullHandle handle then
    let (suffix, p) ← readTagText false [] 0 p.spot p.rest
    if suffix.isEmpty then none else some (.tag (String.ofList handle) suffix, p)
  else
    let begun := (handle.drop 1).map (·.toNat.toUInt8)
    let (name, p) ← readTagText false begun.reverse 0 p.spot p.rest
    some (localTag name, p)

def readTag (flow : Bool) (p : Cursor) : Option (Token × Cursor) := do
  let (tag, p) ←
    match p.rest with
    | '!' :: '<' :: _ => readFullTag (p.right 2)
    | _ => readShortTag p
  if startsBlank p.rest || (flow && p.rest.head? = some ',') then some (tag, p) else none

/-- A part of a version number: at most nine digits. -/
def readVersionPart (p : Cursor) : Option (Nat × Cursor) :=
  let (digits, p) := readWord Char.isDigit p
  if digits.length ≤ 9 then
    match Text.readDigits 10 1000000000 digits with
    | .ok n => some (n, p)
    | .error _ => none
  else none

def readVersion (p : Cursor) : Option (Token × Cursor) := do
  let (major, p) ← readVersionPart p
  if p.rest.head? = some '.' then
    let (minor, p) ← readVersionPart (p.right 1)
    return (.version major minor, p)
  else none

def readShorthand (p : Cursor) : Option (Token × Cursor) := do
  let (handle, p) ← readHandle p
  let (gap, p) := readWord isBlank p
  if gap.isEmpty || !(handle = ['!'] || isFullHandle handle) then none
  else
    let (stem, p) ← readTagText true [] 0 p.spot p.rest
    if stem.isEmpty || !startsBlank p.rest then none else some (.shorthand (String.ofList handle) stem, p)

def readDirective (p : Cursor) : Option (Token × Cursor) :=
  let (name, p) := readWord isWordChar p
  let (gap, p) := readWord isBlank p
  if gap.isEmpty then none
  else if name = "YAML".toList then readVersion p
  else if name = "TAG".toList then readShorthand p
  else none

end StackToolchain.Yaml
