import StackToolchain.Alu

/-! Tokens of the source language. -/
namespace StackToolchain.Source

inductive Punct where
  | equals
  | differs
  | atMost
  | atLeast
  | shiftLeft
  | shiftRight
  | assign
  | plus
  | minus
  | star
  | slash
  | percent
  | ampersand
  | pipe
  | caret
  | less
  | greater
  | lparen
  | rparen
  | lbrace
  | rbrace
  | semicolon
  | comma
  deriving DecidableEq, Repr

namespace Punct

def text : Punct → String
  | equals => "=="
  | differs => "!="
  | atMost => "<="
  | atLeast => ">="
  | shiftLeft => "<<"
  | shiftRight => ">>"
  | assign => "="
  | plus => "+"
  | minus => "-"
  | star => "*"
  | slash => "/"
  | percent => "%"
  | ampersand => "&"
  | pipe => "|"
  | caret => "^"
  | less => "<"
  | greater => ">"
  | lparen => "("
  | rparen => ")"
  | lbrace => "\x7b"
  | rbrace => "\x7d"
  | semicolon => ";"
  | comma => ","

def ofPair? (c d : Char) : Option Punct :=
  match c, d with
  | '=', '=' => some equals
  | '!', '=' => some differs
  | '<', '=' => some atMost
  | '>', '=' => some atLeast
  | '<', '<' => some shiftLeft
  | '>', '>' => some shiftRight
  | _, _ => none

def ofChar? (c : Char) : Option Punct :=
  match c with
  | '=' => some assign
  | '+' => some plus
  | '-' => some minus
  | '*' => some star
  | '/' => some slash
  | '%' => some percent
  | '&' => some ampersand
  | '|' => some pipe
  | '^' => some caret
  | '<' => some less
  | '>' => some greater
  | '(' => some lparen
  | ')' => some rparen
  | '\x7b' => some lbrace
  | '\x7d' => some rbrace
  | ';' => some semicolon
  | ',' => some comma
  | _ => none

def operator? : Punct → Option AluOp
  | plus => some .add
  | minus => some .sub
  | star => some .mul
  | slash => some .div
  | percent => some .mod
  | ampersand => some .and
  | pipe => some .or
  | caret => some .xor
  | shiftLeft => some .shl
  | shiftRight => some .shr
  | equals => some .eq
  | differs => some .neq
  | less => some .lt
  | greater => some .gt
  | atMost => some .le
  | atLeast => some .ge
  | _ => none

end Punct

inductive Keyword where
  | func
  | cond
  | loop
  | var
  | ret
  | write
  deriving DecidableEq, Repr

namespace Keyword

def all : List Keyword :=
  [func, cond, loop, var, ret, write]

def text : Keyword → String
  | func => "func"
  | cond => "if"
  | loop => "while"
  | var => "var"
  | ret => "return"
  | write => "write"

def ofText? (word : String) : Option Keyword :=
  all.find? (·.text == word)

end Keyword

inductive TokenKind where
  | punct (p : Punct)
  | keyword (k : Keyword)
  | ident (name : String)
  | number (n : UInt16)
  | endOfInput
  deriving DecidableEq, Repr

def TokenKind.describe : TokenKind → String
  | .punct p => "'" ++ p.text ++ "'"
  | .keyword k => "'" ++ k.text ++ "'"
  | .ident name => "identifier `" ++ name ++ "`"
  | .number n => "constant " ++ toString n.toNat
  | .endOfInput => "'end of input'"

structure Token where
  kind : TokenKind
  offset : Nat
  deriving DecidableEq, Repr

def Token.sameKind (s t : Token) : Bool :=
  s.kind == t.kind

end StackToolchain.Source
