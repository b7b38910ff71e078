import StackToolchain.Source.Grammar
import StackToolchain.Source.Lexer
import StackToolchain.Source.Tree

/-! Reading syntax trees off tokens by the rules of a grammar.
A rule looks at the tokens that are left and either does not apply, fails, or gives a node and the tokens
after it. Every recursive function takes a bound on the number of tokens left, which each rule that applies
lowers by the token it begins with; at the bound zero there is no token, and the functions answer as they do at
the end of the source. -/
namespace StackToolchain.Source

/-- The tokens that are left, and the offset that stands for the end behind the last of them. -/
structure Cursor where
  rest : List Token
  endOffset : Nat
  deriving DecidableEq, Repr

namespace Cursor

/-- A cursor before the token at a position. The end stands where the last token does. -/
def ofTokens (tokens : List Token) (pos : Nat) : Cursor :=
  ⟨tokens.drop pos, (tokens.getLast?.map Token.offset).getD 0⟩

/-- The next token; past the last one it is always the end. -/
def peek (c : Cursor) : Token :=
  c.rest.head?.getD ⟨.endOfInput, c.endOffset⟩

def kind (c : Cursor) : TokenKind :=
  c.peek.kind

def next (c : Cursor) : Cursor :=
  { c with rest := c.rest.tail }

def atPunct (c : Cursor) (p : Punct) : Bool :=
  c.kind == .punct p

def atKeyword (c : Cursor) (k : Keyword) : Bool :=
  c.kind == .keyword k

def operator? (c : Cursor) : Option AluOp :=
  match c.kind with
  | .punct p => p.operator?
  | _ => none

def fail {α : Type} (c : Cursor) (message : String) : Except SyntaxError α :=
  .error ⟨c.peek.offset, .unmet message⟩

def expect (c : Cursor) (p : Punct) (message : String) : Except SyntaxError Cursor :=
  if c.atPunct p then .ok c.next else c.fail message

def expectName (c : Cursor) (message : String) : Except SyntaxError (String × Cursor) :=
  match c.kind with
  | .ident name => .ok (name, c.next)
  | _ => c.fail message

end Cursor

abbrev Read (α : Type) := α × Cursor

abbrev Reader (α : Type) := Cursor → Except SyntaxError (Read α)

/-- Reads a node where it applies: nothing if it does not apply, and a failure if it does but cannot go on. -/
abbrev Rule (α : Type) := Cursor → Except SyntaxError (Option (Read α))

def firstMatch {α : Type} : List (Rule α) → Rule α
  | [], _ => .ok none
  | rule :: rules, c =>
    match rule c with
    | .ok none => firstMatch rules c
    | outcome => outcome

def require {α : Type} (rule : Rule α) (c : Cursor) (message : String) : Except SyntaxError (Read α) :=
  match rule c with
  | .error e => .error e
  | .ok none => c.fail message
  | .ok (some result) => .ok result

def joinOperands (value : Rule Expr) : Nat → Expr → Reader Expr
  -- every operator takes a token, so that a limit above their number is not reached
  | 0, left, c => .ok (left, c)
  | limit + 1, left, c =>
    match c.operator? with
    | none => .ok (left, c)
    | some op => do
      let (right, c) ← require value c.next ("expected value after '" ++ op.sign ++ "'")
      joinOperands value limit (.binary left op right) c

def expressionOf (value : Rule Expr) (limit : Nat) (c : Cursor) : Except SyntaxError (Option (Read Expr)) := do
  match ← value c with
  | none => return none
  | some (left, c) => return some (← joinOperands value limit left c)

def argumentsFrom (expr : Rule Expr) : Nat → List Expr → Reader (List Expr)
  | 0, _, c => c.fail "expected argument expression"
  | limit + 1, done, c => do
    let (arg, c) ← require expr c "expected argument expression"
    if c.atPunct .comma then argumentsFrom expr limit (arg :: done) c.next else return ((arg :: done).reverse, c)

def arguments (expr : Rule Expr) (limit : Nat) (c : Cursor) : Except SyntaxError (Read (List Expr)) :=
  if c.atPunct .rparen then .ok ([], c) else argumentsFrom expr limit [] c

def ValueRule.parse (value expr : Rule Expr) (limit : Nat) : ValueRule → Rule Expr
  | .integer, c =>
    match c.kind with
    | .number n => .ok (some (.int n, c.next))
    | _ => .ok none
  | .call, c =>
    match c.kind with
    | .ident name =>
      if c.next.atPunct .lparen then do
        let (args, after) ← arguments expr limit c.next.next
        let after ← after.expect .rparen "expected ')' or ',' after argument"
        return some (.call name args c.peek.offset, after)
      else .ok none
    | _ => .ok none
  | .named, c =>
    match c.kind with
    | .ident name => .ok (some (.var name c.peek.offset, c.next))
    | _ => .ok none
  | .parentheses, c =>
    if c.atPunct .lparen then do
      let (inner, after) ← require expr c.next "expected expression after '('"
      let after ← after.expect .rparen "expected ')'"
      return some (.paren inner, after)
    else .ok none
  | .negate, c =>
    if c.atPunct .minus then do
      let (operand, after) ← require value c.next "expected value after '-'"
      return some (.binary (.int 0) .sub operand, after)
    else .ok none

def Grammar.value (g : Grammar) : Nat → Rule Expr
  | 0, _ => .ok none
  | limit + 1, c =>
    let inner := g.value limit
    firstMatch (g.values.map fun rule => rule.parse inner (expressionOf inner limit) limit) c

def Grammar.expression (g : Grammar) (limit : Nat) : Rule Expr :=
  expressionOf (g.value limit) limit

def statementsFrom (stmt : Reader Stmt) : Nat → List Stmt → Reader (List Stmt)
  | 0, _, c => c.fail "expected '\x7d' at the end of scope"
  | limit + 1, done, c =>
    match c.kind with
    | .punct .rbrace => .ok (done.reverse, c.next)
    | .endOfInput => c.fail "expected '\x7d' at the end of scope"
    | _ => do
      let (s, c) ← stmt c
      statementsFrom stmt limit (s :: done) c

def block (stmt : Reader Stmt) (limit : Nat) (c : Cursor) : Except SyntaxError (Option (Read (List Stmt))) :=
  if c.atPunct .lbrace then do return some (← statementsFrom stmt limit [] c.next) else .ok none

def initializer (expr : Rule Expr) (c : Cursor) : Except SyntaxError (Read (Option Expr)) :=
  if c.atPunct .assign then do
    let (value, c) ← require expr c.next "expected expression after '='"
    return (some value, c)
  else .ok (none, c)

def optional (expr : Rule Expr) (c : Cursor) : Except SyntaxError (Read (Option Expr)) := do
  match ← expr c with
  | none => return (none, c)
  | some (value, c) => return (some value, c)

def StmtRule.parse (expr : Rule Expr) (stmt : Reader Stmt) (limit : Nat) :
    StmtRule → Rule Stmt
  | .scope, c => do
    match ← block stmt limit c with
    | none => return none
    | some (body, after) => return some (.scope body, after)
  | .cond, c =>
    if c.atKeyword .cond then do
      let (test, after) ← require expr c.next "expected condition after 'if'"
      let (body, after) ← stmt after
      return some (.cond test body, after)
    else .ok none
  | .loop, c =>
    if c.atKeyword .loop then do
      let (test, after) ← require expr c.next "expected condition after 'while'"
      let (body, after) ← stmt after
      return some (.loop test body, after)
    else .ok none
  | .var, c =>
    if c.atKeyword .var then do
      let (name, after) ← c.next.expectName "expected variable name after 'var'"
      let (init, after) ← initializer expr after
      let after ← after.expect .semicolon "expected ';'"
      return some (.var name init c.next.peek.offset, after)
    else .ok none
  | .ret, c =>
    if c.atKeyword .ret then do
      let (value, after) ← optional expr c.next
      let after ← after.expect .semicolon "expected ';'"
      return some (.ret value, after)
    else .ok none
  | .write, c =>
    if c.atKeyword .write then do
      let (addr, after) ← require expr c.next "expected address after 'write'"
      let (value, after) ← require expr after "expected value to write"
      let after ← after.expect .semicolon "expected ';'"
      return some (.write addr value, after)
    else .ok none
  | .assign, c =>
    match c.kind with
    | .ident name =>
      if c.next.atPunct .assign then do
        let (value, after) ← require expr c.next.next "expected expression after '='"
        let after ← after.expect .semicolon "expected ';'"
        return some (.assign name value c.peek.offset, after)
      else .ok none
    | _ => .ok none
  | .expression, c => do
    match ← expr c with
    | none => return none
    | some (value, after) =>
      let after ← after.expect .semicolon "expected ';'"
      return some (.expr value, after)

def noStatement (c : Cursor) : Except SyntaxError (Read Stmt) :=
  match c.kind with
  | .endOfInput => c.fail "expected '\x7d' at the end of scope"
  | .punct .rbrace => c.fail "expected statement"
  | _ => c.fail "unrecognized statement"

def Grammar.statement (g : Grammar) : Nat → Reader Stmt
  | 0, c => noStatement c
  | limit + 1, c =>
    let inner := g.statement limit
    match firstMatch (g.stmts.map fun rule => rule.parse (g.expression (limit + 1)) inner limit) c with
    | .error e => .error e
    | .ok none => noStatement c
    | .ok (some result) => .ok result

def parametersFrom : Nat → List String → Reader (List String)
  | 0, _, c => c.fail "expected parameter name"
  | limit + 1, done, c => do
    let (name, c) ← c.expectName "expected parameter name"
    if c.atPunct .comma then parametersFrom limit (name :: done) c.next else return ((name :: done).reverse, c)

def parameters (limit : Nat) (c : Cursor) : Except SyntaxError (Read (List String)) :=
  if c.atPunct .rparen then .ok ([], c) else parametersFrom limit [] c

def DeclRule.parse (stmt : Reader Stmt) (limit : Nat) : DeclRule → Rule Decl
  | .function, c =>
    if c.atKeyword .func then do
      let (name, after) ← c.next.expectName "expected identifier after 'func'"
      let after ← after.expect .lparen "expected '(' after function name"
      let (params, after) ← parameters limit after
      let after ← after.expect .rparen "expected ')' or ',' after parameter"
      let (body, after) ← require (block stmt limit) after "expected '\x7b' to open the function body"
      return some (.func name params body c.next.peek.offset, after)
    else .ok none
  | .global, c =>
    if c.atKeyword .var then do
      let (name, after) ← c.next.expectName "expected variable name after 'var'"
      let after ← after.expect .semicolon "expected ';' after global variable"
      return some (.global name, after)
    else .ok none

def Grammar.declarationsFrom (g : Grammar) : Nat → List Decl → Cursor → Except SyntaxError Tree
  | 0, done, _ => .ok done.reverse
  | limit + 1, done, c =>
    if c.kind = .endOfInput then .ok done.reverse
    else
      match firstMatch (g.decls.map fun rule => rule.parse (g.statement limit) limit) c with
      | .error e => .error e
      | .ok none => c.fail "unrecognized statement"
      | .ok (some (decl, c)) => g.declarationsFrom limit (decl :: done) c

def Grammar.parse (g : Grammar) (tokens : List Token) : Except SyntaxError Tree :=
  g.declarationsFrom tokens.length [] (.ofTokens tokens 0)

end StackToolchain.Source
