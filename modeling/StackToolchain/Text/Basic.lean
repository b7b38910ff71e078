/-! Character classes, the cutting of a text into lines and words, and padding to a width.
Text is worked on as a list of characters; a character's width in bytes is its UTF-8 size. -/
namespace StackToolchain.Text

/-- A character with the Unicode property `White_Space`. -/
def isBlank (c : Char) : Bool :=
  let n := c.toNat
  (0x09 ≤ n && n ≤ 0x0D) || n == 0x20 || n == 0x85 || n == 0xA0 || n == 0x1680 ||
    (0x2000 ≤ n && n ≤ 0x200A) || n == 0x2028 || n == 0x2029 || n == 0x202F || n == 0x205F || n == 0x3000

def isNameStart (c : Char) : Bool :=
  c.isAlpha || c == '_'

def isNameChar (c : Char) : Bool :=
  c.isAlphanum || c == '_'

def isName : List Char → Bool
  | [] => false
  | c :: rest => isNameStart c && rest.all isNameChar

def byteWidth (text : List Char) : Nat :=
  text.foldl (fun n c => n + c.utf8Size) 0

def splitAtNewlines (current : List Char) : List Char → List (List Char)
  | [] => [current.reverse]
  | c :: rest =>
    if c = '\n' then current.reverse :: splitAtNewlines [] rest else splitAtNewlines (c :: current) rest

def pieces (text : List Char) : List (List Char) :=
  splitAtNewlines [] text

def dropReturn (line : List Char) : List Char :=
  if line.getLast? = some '\r' then line.dropLast else line

/-- Pieces read as lines: a carriage return before a newline belongs to the line end, and nothing follows a
final newline. -/
def endLines : List (List Char) → List (List Char)
  | [] => []
  | [last] => if last.isEmpty then [] else [last]
  | line :: rest => dropReturn line :: endLines rest

def lines (text : List Char) : List (List Char) :=
  endLines (pieces text)

def splitAtBlanks (current : List Char) : List Char → List (List Char)
  | [] => if current.isEmpty then [] else [current.reverse]
  | c :: rest =>
    if isBlank c then
      if current.isEmpty then splitAtBlanks [] rest else current.reverse :: splitAtBlanks [] rest
    else splitAtBlanks (c :: current) rest

def words (text : List Char) : List (List Char) :=
  splitAtBlanks [] text

def repeated (n : Nat) (c : Char) : String :=
  String.ofList (List.replicate n c)

def padRight (width : Nat) (text : String) : String :=
  text ++ repeated (width - text.length) ' '

def padLeft (width : Nat) (fill : Char) (text : String) : String :=
  repeated (width - text.length) fill ++ text

def unlines (rows : List String) : String :=
  String.join (rows.map (· ++ "\n"))

end StackToolchain.Text
