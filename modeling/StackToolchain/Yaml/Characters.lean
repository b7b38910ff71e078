/-! The characters of YAML documents, and places in their text. -/
namespace StackToolchain.Yaml

/-- Whether a character may stand in a document: control characters other than tabs and line ends may not. -/
def isAllowed (c : Char) : Bool :=
  let n := c.toNat
  c = '\t' || c = '\n' || c = '\r' || (0x20 ≤ n && n ≤ 0x7E) || n = 0x85 || (0xA0 ≤ n && n ≤ 0xFFFD) || 0x10000 ≤ n

/-- A text in which every carriage return, alone or before a newline, and every next-line character has become
a newline. The characters before it are held in reverse. -/
def unifyBreaks (done : List Char) : List Char → List Char
  | [] => done.reverse
  | '\r' :: '\n' :: rest => unifyBreaks ('\n' :: done) rest
  | c :: rest => unifyBreaks ((if c = '\r' || c = '\u0085' then '\n' else c) :: done) rest

def isBreak (c : Char) : Bool :=
  c = '\n' || c = '\u2028' || c = '\u2029'

def isBlank (c : Char) : Bool :=
  c = ' ' || c = '\t'

def startsBlank : List Char → Bool
  | [] => true
  | c :: _ => isBlank c || isBreak c

def startsBreak : List Char → Bool
  | [] => true
  | c :: _ => isBreak c

def isWordChar (c : Char) : Bool :=
  c.isAlphanum || c = '_' || c = '-'

def isFlowIndicator (c : Char) : Bool :=
  [',', '[', ']', '\x7b', '\x7d'].contains c

/-- Whether a text begins with three equal marks that stand alone, as the marks between documents do. -/
def startsMarks (mark : Char) : List Char → Bool
  | a :: b :: c :: rest => a = mark && b = mark && c = mark && startsBlank rest
  | _ => false

def startsDocumentMark (text : List Char) : Bool :=
  startsMarks '-' text || startsMarks '.' text

structure Spot where
  line : Nat := 0
  column : Nat := 0
  /-- the number of bytes before it on its line -/
  offset : Nat := 0
  deriving DecidableEq, Repr

namespace Spot

def right (s : Spot) (count : Nat) : Spot :=
  { s with column := s.column + count, offset := s.offset + count }

def newLine (s : Spot) : Spot :=
  { line := s.line + 1 }

def after (s : Spot) (c : Char) : Spot :=
  if isBreak c then s.newLine else { s with column := s.column + 1, offset := s.offset + c.utf8Size }

end Spot

structure Cursor where
  spot : Spot := {}
  rest : List Char

def Cursor.right (p : Cursor) (count : Nat) : Cursor :=
  ⟨p.spot.right count, p.rest.drop count⟩

end StackToolchain.Yaml
