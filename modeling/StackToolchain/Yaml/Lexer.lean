import StackToolchain.Yaml.Property
import StackToolchain.Yaml.Scalar

/-! Cutting a document into tokens. A key is noticed only at the colon after it, so the lexer keeps a candidate
for the place where a key may have begun, one for every open bracket or brace, and puts the token for the key
there afterwards. -/
namespace StackToolchain.Yaml

structure Candidate where
  spot : Spot
  number : Nat
  /-- whether something other than a key is a fault there -/
  required : Bool

/-- Whether a key that began at a candidate may end at a place: on the same line, within 1024 bytes. -/
def Candidate.reaches (k : Candidate) (spot : Spot) : Bool :=
  k.spot.line = spot.line && spot.offset ≤ k.spot.offset + 1024

structure Lexer where
  cursor : Cursor
  tokens : List Token := []
  count : Nat := 0
  /-- the indents of open blocks, each as the column after it, the innermost first -/
  levels : List Nat := []
  keyAllowed : Bool := true
  key : Option Candidate := none
  /-- the same for the outer ones; the last of them is outside of all -/
  outerKeys : List (Option Candidate) := []

namespace Lexer

def inFlow (s : Lexer) : Bool :=
  !s.outerKeys.isEmpty

def level (s : Lexer) : Nat :=
  s.levels.headD 0

def emit (s : Lexer) (t : Token) : Lexer :=
  { s with tokens := t :: s.tokens, count := s.count + 1 }

def emitAt (s : Lexer) (number : Nat) (added : List Token) : Lexer :=
  let later := s.count - number
  { s with
    tokens := s.tokens.take later ++ added.reverse ++ s.tokens.drop later
    count := s.count + added.length }

def right (s : Lexer) (count : Nat) : Lexer :=
  { s with cursor := s.cursor.right count }

/-- Skip what stands between tokens: spaces, comments, ends of lines, and tabs where no key may begin. A byte order
mark may stand at the beginning of a line. Outside of flow style a key may begin after the end of a line. -/
def skipText (flow keyAllowed comment : Bool) (spot : Spot) : List Char → Bool × Cursor
  | [] => (keyAllowed, ⟨spot, []⟩)
  | c :: rest =>
    if isBreak c then skipText flow (keyAllowed || !flow) false spot.newLine rest
    else if comment || c = '#' then skipText flow keyAllowed true (spot.after c) rest
    else if c = ' ' || (c = '\t' && (flow || !keyAllowed)) || (c = '\ufeff' && spot.column = 0) then
      skipText flow keyAllowed false (spot.after c) rest
    else (keyAllowed, ⟨spot, c :: rest⟩)

def skip (s : Lexer) : Lexer :=
  let (keyAllowed, cursor) := skipText s.inFlow s.keyAllowed false s.cursor.spot s.cursor.rest
  { s with keyAllowed, cursor }

/-- Close the blocks with a level above a floor. Brackets and braces do not heed indents. -/
def closeBlocks (s : Lexer) (floor : Nat) : Lexer :=
  if s.inFlow then s
  else
    let closed := (s.levels.takeWhile (floor < ·)).length
    { s with
      levels := s.levels.drop closed
      tokens := List.replicate closed .blockEnd ++ s.tokens
      count := s.count + closed }

def openBlock (s : Lexer) (column : Nat) (start : Token) : List Token × Lexer :=
  if !s.inFlow && s.level ≤ column then ([start], { s with levels := (column + 1) :: s.levels }) else ([], s)

def openHere (s : Lexer) (start : Token) : Lexer :=
  let (added, s) := s.openBlock s.cursor.spot.column start
  added.foldl emit s

def dropKey (s : Lexer) : Option Lexer :=
  if s.key.any (·.required) then none else some { s with key := none }

def offerKey (s : Lexer) : Option Lexer :=
  if s.keyAllowed then do
    let s ← s.dropKey
    let spot := s.cursor.spot
    return { s with key := some ⟨spot, s.count, !s.inFlow && s.level = spot.column + 1⟩ }
  else some s

/-- Read a directive with the end of its line, after which no key may begin yet. -/
def directive (s : Lexer) : Option Lexer := do
  let s ← (s.closeBlocks 0).dropKey
  let (token, p) ← readDirective (s.cursor.right 1)
  let rest ← afterComment p.rest
  return { s with cursor := ⟨s.cursor.spot.newLine, rest.drop 1⟩, keyAllowed := false }.emit token

def documentMark (s : Lexer) (token : Token) : Option Lexer := do
  let s ← (s.closeBlocks 0).dropKey
  return { s with keyAllowed := false }.emit token |>.right 3

def flowOpen (s : Lexer) (token : Token) : Option Lexer := do
  let s ← s.offerKey
  return { s with keyAllowed := true, key := none, outerKeys := s.key :: s.outerKeys }.emit token |>.right 1

def flowClose (s : Lexer) (token : Token) : Option Lexer := do
  let s ← s.dropKey
  let outer : Lexer := { s with keyAllowed := false, key := s.outerKeys.head?.join, outerKeys := s.outerKeys.tail }
  return outer.emit token |>.right 1

def comma (s : Lexer) : Option Lexer := do
  let s ← s.dropKey
  return { s with keyAllowed := true }.emit .comma |>.right 1

def item (s : Lexer) : Option Lexer := do
  if !s.inFlow && !s.keyAllowed then none
  else
    let s ← (s.openHere .blockListStart).dropKey
    return { s with keyAllowed := true }.emit .item |>.right 1

def question (s : Lexer) : Option Lexer := do
  if !s.inFlow && !s.keyAllowed then none
  else
    let s ← (s.openHere .blockMapStart).dropKey
    return { s with keyAllowed := !s.inFlow }.emit .key |>.right 1

/-- Read the colon before a value. The candidate, if it reaches here, was a key. -/
def colon (s : Lexer) : Option Lexer := do
  match s.key with
  | some k =>
    if k.reaches s.cursor.spot then
      let (added, s) := s.openBlock k.spot.column .blockMapStart
      let s := s.emitAt k.number (added ++ [.key])
      return { s with key := none, keyAllowed := false }.emit .value |>.right 1
    else if k.required then none
    else lone { s with key := none }
  | none => lone s
where
  lone (s : Lexer) : Option Lexer :=
    if !s.inFlow && !s.keyAllowed then none
    else
      let s := s.openHere .blockMapStart
      some ({ s with keyAllowed := !s.inFlow }.emit .value |>.right 1)

def name (s : Lexer) (token : String → Token) : Option Lexer := do
  let s ← s.offerKey
  let (name, cursor) ← readName (s.cursor.right 1)
  return { s with cursor, keyAllowed := false }.emit (token name)

def tag (s : Lexer) : Option Lexer := do
  let s ← s.offerKey
  let (token, cursor) ← readTag s.inFlow s.cursor
  return { s with cursor, keyAllowed := false }.emit token

def block (s : Lexer) (style : ScalarStyle) : Option Lexer := do
  let s ← s.dropKey
  let read ← readBlock (style = .folded) s.level (s.cursor.right 1)
  return { s with cursor := read.next, keyAllowed := true }.emit (.scalar read.text style)

def quoted (s : Lexer) (style : ScalarStyle) : Option Lexer := do
  let s ← s.offerKey
  let start := s.cursor.right 1
  let read ← readQuoted (style = .double) .words [] .empty start.spot start.rest
  return { s with cursor := read.next, keyAllowed := false }.emit (.scalar read.text style)

def plain (s : Lexer) : Option Lexer := do
  let s ← s.offerKey
  let read ← readPlain s.inFlow s.level [] .empty s.cursor.spot s.cursor.rest
  -- a key may begin after a plain scalar only if a line ended there
  return { s with cursor := read.next, keyAllowed := read.wrapped }.emit (.scalar read.text .plain)

def startsPlain (s : Lexer) (c : Char) (rest : List Char) : Bool :=
  if c = '?' || c = ':' then !s.inFlow && !startsBlank rest
  else !(isBlank c || ['#', '|', '>', '%', '@', '\x60'].contains c)

def token (s : Lexer) (c : Char) (rest : List Char) : Option Lexer :=
  let column := s.cursor.spot.column
  if column = 0 && c = '%' then s.directive
  else if column = 0 && startsMarks '-' (c :: rest) then s.documentMark .documentStart
  else if column = 0 && startsMarks '.' (c :: rest) then s.documentMark .documentEnd
  else if c = '[' then s.flowOpen .listOpen
  else if c = '\x7b' then s.flowOpen .mapOpen
  else if c = ']' then s.flowClose .listClose
  else if c = '\x7d' then s.flowClose .mapClose
  else if c = ',' then s.comma
  else if c = '-' && startsBlank rest then s.item
  else if c = '?' && (s.inFlow || startsBlank rest) then s.question
  else if c = ':' && (s.inFlow || startsBlank rest) then s.colon
  else if c = '*' then s.name .reference
  else if c = '&' then s.name .anchor
  else if c = '!' then s.tag
  else if c = '|' && !s.inFlow then s.block .literal
  else if c = '>' && !s.inFlow then s.block .folded
  else if c = '\'' then s.quoted .single
  else if c = '"' then s.quoted .double
  else if s.startsPlain c rest then s.plain
  else none

/-- Read all tokens. Every token takes a character, so that the length of the text bounds their number. -/
def run : Nat → Lexer → Option (List Token)
  | 0, _ => none
  | limit + 1, s => do
    let s := s.skip
    let s := s.closeBlocks (s.cursor.spot.column + 1)
    match s.cursor.rest with
    | [] => return (← (s.closeBlocks 0).dropKey).tokens.reverse
    | c :: rest => run limit (← s.token c rest)

end Lexer

def lex (text : List Char) : Option (List Token) :=
  if text.all isAllowed then
    Lexer.run (text.length + 1) { cursor := { rest := unifyBreaks [] text } }
  else none

end StackToolchain.Yaml
