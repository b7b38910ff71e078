import StackToolchain.Text.Numeral
import StackToolchain.Yaml.Characters

/-! Reading scalars: plain ones, ones in quotes, and blocks. Where a plain or quoted scalar runs over several
lines, a single line end counts as a space. Texts under way are held in reverse. -/
namespace StackToolchain.Yaml

inductive Gap where
  | blanks (done : List Char)
  /-- the end of a line, unless it was escaped, and the ends of empty lines after it -/
  | breaks (first : Option Char) (more : List Char)

namespace Gap

def empty : Gap := .blanks []

def isEmpty : Gap → Bool
  | .blanks done => done.isEmpty
  | .breaks .. => false

def isBreak : Gap → Bool
  | .blanks _ => false
  | .breaks .. => true

/-- A gap with one more blank or line end. Blanks beside line ends do not count. -/
def add (c : Char) : Gap → Gap
  | .blanks done => if Yaml.isBreak c then .breaks (some c) [] else .blanks (c :: done)
  | .breaks first more => .breaks first (if Yaml.isBreak c then c :: more else more)

def text : Gap → List Char
  | .blanks done => done
  | .breaks (some '\n') [] => [' ']
  | .breaks (some '\n') more => more
  | .breaks first more => more ++ first.toList

end Gap

structure ScalarRead where
  text : String
  wrapped : Bool := false
  next : Cursor

/-- Whether a plain scalar ends at a text that follows a gap: at a mark between documents, a comment, or, outside
of flow style, a column left of the level. -/
def endsAfterGap (flow : Bool) (level : Nat) (spot : Spot) (text : List Char) : Bool :=
  (!flow && spot.column < level) || (spot.column = 0 && startsDocumentMark text) || text.head? = some '#'

/-- Read a plain scalar after the words and the gap already read. It ends at a colon before a blank, in flow
style also at an indicator. A colon right before an indicator is a fault there, and so is a tab left of the
level. -/
def readPlain (flow : Bool) (level : Nat) (done : List Char) (gap : Gap) (spot : Spot) :
    List Char → Option ScalarRead
  | [] => some ⟨String.ofList done.reverse, gap.isBreak, ⟨spot, []⟩⟩
  | c :: rest =>
    if isBlank c || isBreak c then
      if c = '\t' && gap.isBreak && spot.column < level then none
      else readPlain flow level done (gap.add c) (spot.after c) rest
    else if !gap.isEmpty && endsAfterGap flow level spot (c :: rest) then
      some ⟨String.ofList done.reverse, gap.isBreak, ⟨spot, c :: rest⟩⟩
    else if flow && c = ':' && rest.head?.any (fun d => isFlowIndicator d || d = '?') then none
    else if (c = ':' && startsBlank rest) || (flow && isFlowIndicator c) then
      some ⟨String.ofList done.reverse, gap.isBreak, ⟨spot, c :: rest⟩⟩
    else readPlain flow level (c :: gap.text ++ done) .empty (spot.after c) rest

def escaped? (c : Char) : Option Char :=
  match c with
  | '0' => some '\x00'
  | 'a' => some '\x07'
  | 'b' => some '\x08'
  | 't' => some '\t'
  | '\t' => some '\t'
  | 'n' => some '\n'
  | 'v' => some '\x0b'
  | 'f' => some '\x0c'
  | 'r' => some '\r'
  | 'e' => some '\x1b'
  | ' ' => some ' '
  | '"' => some '"'
  | '/' => some '/'
  | '\\' => some '\\'
  | 'N' => some '\u0085'
  | '_' => some '\u00a0'
  | 'L' => some '\u2028'
  | 'P' => some '\u2029'
  | _ => none

def codeWidth? (c : Char) : Option Nat :=
  match c with
  | 'x' => some 2
  | 'u' => some 4
  | 'U' => some 8
  | _ => none

def charOfCode? (n : Nat) : Option Char :=
  if n.isValidChar then some (Char.ofNat n) else none

inductive Quoting where
  | words
  | escape
  | code (left value : Nat)

/-- Read a scalar in quotes after its opening quote and what was already read. A single quote is written twice in
single quotes, and a backslash begins an escape in double quotes. A mark between documents is a fault. -/
def readQuoted (double : Bool) (mode : Quoting) (done : List Char) (gap : Gap) (spot : Spot) :
    List Char → Option ScalarRead
  | [] => none
  | c :: rest =>
    match mode with
    | .escape =>
      if isBreak c then readQuoted double .words done (.breaks none []) spot.newLine rest
      else
        match codeWidth? c, escaped? c with
        | some width, _ => readQuoted double (.code width 0) done .empty (spot.after c) rest
        | none, some d => readQuoted double .words (d :: done) .empty (spot.after c) rest
        | none, none => none
    | .code left value =>
      match Text.digitValue? 16 c with
      | none => none
      | some d =>
        let value := value * 16 + d
        if left = 1 then
          match charOfCode? value with
          | none => none
          | some d => readQuoted double .words (d :: done) .empty (spot.after c) rest
        else readQuoted double (.code (left - 1) value) done .empty (spot.after c) rest
    | .words =>
      if isBlank c || isBreak c then readQuoted double .words done (gap.add c) (spot.after c) rest
      else if spot.column = 0 && startsDocumentMark (c :: rest) then none
      else if double && c = '"' then
        some ⟨String.ofList (gap.text ++ done).reverse, false, ⟨spot.right 1, rest⟩⟩
      else if double && c = '\\' then readQuoted double .escape (gap.text ++ done) .empty (spot.after c) rest
      else if !double && c = '\'' then
        match rest with
        | '\'' :: rest => readQuoted double .words ('\'' :: gap.text ++ done) .empty (spot.right 2) rest
        | rest => some ⟨String.ofList (gap.text ++ done).reverse, false, ⟨spot.right 1, rest⟩⟩
      else readQuoted double .words (c :: gap.text ++ done) .empty (spot.after c) rest

inductive Chomping where
  | strip
  | clip
  | keep
  deriving DecidableEq, Repr

def chomping? (c : Char) : Option Chomping :=
  match c with
  | '-' => some .strip
  | '+' => some .keep
  | _ => none

def indentDigit? (c : Char) : Option Nat :=
  if c.isDigit && c ≠ '0' then some (c.toNat - 48) else none

/-- What stands after the mark of a block: a sign for the chomping and a digit for the indent, in either order,
and the text after them. A zero is refused by what may follow. -/
def blockHeader (text : List Char) : Chomping × Option Nat × List Char :=
  match text with
  | a :: b :: rest =>
    match chomping? a, indentDigit? a, chomping? b, indentDigit? b with
    | some chomp, _, _, some indent => (chomp, some indent, rest)
    | some chomp, _, _, none => (chomp, none, b :: rest)
    | none, some indent, some chomp, _ => (chomp, some indent, rest)
    | none, some indent, none, _ => (.clip, some indent, b :: rest)
    | none, none, _, _ => (.clip, none, text)
  | [a] =>
    match chomping? a, indentDigit? a with
    | some chomp, _ => (chomp, none, [])
    | none, some indent => (.clip, some indent, [])
    | none, none => (.clip, none, text)
  | [] => (.clip, none, [])

def afterComment (text : List Char) : Option (List Char) :=
  let text := text.dropWhile isBlank
  let text := if text.head? = some '#' then text.dropWhile (!isBreak ·) else text
  if startsBreak text then some text else none

structure BlockText where
  done : List Char := []
  lastBreak : List Char := []
  /-- the ends of empty lines after it -/
  breaks : List Char := []
  blankStart : Bool := false

namespace BlockText

/-- A block at the beginning of a line. In a folded block a line end between lines that begin with words counts as
a space, or as nothing if empty lines follow it. -/
def beginLine (t : BlockText) (folded blank : Bool) : BlockText :=
  let joined :=
    if folded && t.lastBreak = ['\n'] && !t.blankStart && !blank then
      if t.breaks.isEmpty then [' '] else []
    else t.lastBreak
  { done := t.breaks ++ joined ++ t.done, blankStart := blank }

def finish (t : BlockText) (chomp : Chomping) : String :=
  let last := if chomp = .strip then [] else t.lastBreak
  let more := if chomp = .keep then t.breaks else []
  String.ofList (more ++ last ++ t.done).reverse

end BlockText

/-- Read the lines of a block, within a line or before one. The indent of the block, where none is asked for, is
that of its first line that is not empty, but at least the level, one, and the widest empty line before it. A tab
in the indent is a fault. -/
def readLines (folded : Bool) (level : Nat) (inLine : Bool) (indent : Option Nat) (widest : Nat) (t : BlockText)
    (spot : Spot) : List Char → Option (BlockText × Cursor)
  | [] => some (t, ⟨spot, []⟩)
  | c :: rest =>
    if inLine then
      if isBreak c then readLines folded level false indent widest { t with lastBreak := [c] } spot.newLine rest
      else readLines folded level true indent widest { t with done := c :: t.done } (spot.after c) rest
    else
      let inside := indent.all (spot.column < ·)
      let widest := max widest spot.column
      if inside && c = ' ' then readLines folded level false indent widest t (spot.after c) rest
      else if inside && c = '\t' then none
      else if isBreak c then
        readLines folded level false indent widest { t with breaks := c :: t.breaks } spot.newLine rest
      else
        let indent := indent.getD (max widest (max level 1))
        if spot.column = indent then
          let t := t.beginLine folded (isBlank c)
          readLines folded level true (some indent) widest { t with done := c :: t.done } (spot.after c) rest
        else some (t, ⟨spot, c :: rest⟩)

/-- Read a block after its mark. An indent that is asked for counts from the column before the level. -/
def readBlock (folded : Bool) (level : Nat) (p : Cursor) : Option ScalarRead := do
  let (chomp, indent, text) := blockHeader p.rest
  match ← afterComment text with
  | [] => return ⟨"", false, ⟨p.spot, []⟩⟩
  | _ :: rest =>
    let indent := indent.map (level - 1 + ·)
    let (t, next) ← readLines folded level false indent 0 {} p.spot.newLine rest
    return ⟨t.finish chomp, false, next⟩

end StackToolchain.Yaml
