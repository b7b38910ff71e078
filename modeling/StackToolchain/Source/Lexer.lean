import StackToolchain.Source.Token
import StackToolchain.Text.Numeral

/-! Cutting a source without comments into tokens, from the left, the longest punctuation first. -/
namespace StackToolchain.Source

open Text (isBlank isNameStart isNameChar byteWidth)

inductive SyntaxFault where
  | unexpectedChar (c : Char)
  | charLiteral
  | literalRange
  | literal (word : String)
  | unmet (expectation : String)
  deriving DecidableEq, Repr

def SyntaxFault.message : SyntaxFault → String
  | .unexpectedChar c => "unexpected character '" ++ c.toString ++ "'"
  | .charLiteral => "invalid character literal"
  | .literalRange => "integer literal out of range"
  | .literal word => "invalid integer literal '" ++ word ++ "'"
  | .unmet expectation => expectation

structure SyntaxError where
  offset : Nat
  fault : SyntaxFault
  deriving DecidableEq, Repr

def SyntaxError.message (e : SyntaxError) : String :=
  e.fault.message

/-- The constant that a word spells. Underscores between digits do not count. -/
def readInteger (word : List Char) : Except SyntaxFault UInt16 :=
  let (radix, digits) := Text.announcedRadix word
  match Text.readDigits radix 0x100000000 (digits.filter (· != '_')) with
  | .error .invalid => .error (.literal (String.ofList word))
  | .error .tooLarge => .error .literalRange
  | .ok n => if n < 0x10000 then .ok n.toUInt16 else .error .literalRange

def escaped? (c : Char) : Option Char :=
  match c with
  | 'n' => some '\n'
  | 't' => some '\t'
  | 'r' => some '\r'
  | '0' => some '\x00'
  | '\\' => some '\\'
  | '\'' => some '\''
  | _ => none

def charConstant (c : Char) : Except SyntaxFault UInt16 :=
  if c.toNat < 0x10000 then .ok c.toNat.toUInt16 else .error .literalRange

/-- The constant after an opening quote, with the number of characters up to and including the closing one. -/
def readChar (text : List Char) : Except SyntaxFault (UInt16 × Nat) :=
  match text with
  | '\\' :: c :: '\'' :: _ =>
    match escaped? c with
    | none => .error .charLiteral
    | some c => do return (← charConstant c, 3)
  | '\\' :: _ => .error .charLiteral
  | c :: '\'' :: _ => do return (← charConstant c, 2)
  | _ => .error .charLiteral

def wordKind (word : String) : TokenKind :=
  match Keyword.ofText? word with
  | some k => .keyword k
  | none => .ident word

def readPunct? (c : Char) (rest : List Char) : Option (Punct × Nat) :=
  match rest.head?.bind (Punct.ofPair? c) with
  | some p => some (p, 1)
  | none => (Punct.ofChar? c).map (·, 0)

def readToken (c : Char) (rest : List Char) : Except SyntaxFault (TokenKind × Nat) :=
  match readPunct? c rest with
  | some (p, more) => .ok (.punct p, more)
  | none =>
    let more := rest.takeWhile isNameChar
    if c.isDigit then do return (.number (← readInteger (c :: more)), more.length)
    else if c = '\'' then do
      let (n, more) ← readChar rest
      return (.number n, more)
    else if isNameStart c then .ok (wordKind (String.ofList (c :: more)), more.length)
    else .error (.unexpectedChar c)

/-- The tokens of a text that begins at an offset, after tokens held in reverse. The last is the end. -/
def lexFrom (offset : Nat) (done : List Token) (text : List Char) : Except SyntaxError (List Token) :=
  match text with
  | [] => .ok ((⟨.endOfInput, offset⟩ :: done).reverse)
  | c :: rest =>
    if isBlank c then lexFrom (offset + c.utf8Size) done rest
    else
      match readToken c rest with
      | .error fault => .error ⟨offset, fault⟩
      | .ok (kind, more) =>
        lexFrom (offset + byteWidth (c :: rest.take more)) (⟨kind, offset⟩ :: done) (rest.drop more)
termination_by text.length
decreasing_by
  · simp
  · simp only [List.length_drop, List.length_cons]; omega

def lex (text : List Char) : Except SyntaxError (List Token) :=
  lexFrom 0 [] text

end StackToolchain.Source
