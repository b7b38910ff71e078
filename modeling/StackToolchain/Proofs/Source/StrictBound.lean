import StackToolchain.Source.Parser

/-! The parser with a bound that stops it.
The functions of the parser are called with bounds on the tokens that are left, and answer at the bound zero as they do
at the end of the source. Here the same functions give nothing at all when they are called at the bound zero, neither a
node nor a failure. What they give at any bound is thus the outcome of a computation that ends by itself. A test
before a statement is read by a rule of its own, and the statement behind it afterwards. -/
namespace StackToolchain.Source.Strict

/-- A computation that may fail, and that gives nothing if it is stopped at the bound. -/
abbrev Run (α : Type) := ExceptT SyntaxError Option α

def ends {α : Type} (outcome : Except SyntaxError α) : Run α :=
  .mk (some outcome)

def stopped {α : Type} : Run α :=
  .mk none

def required {α : Type} (x : Run (Option (Read α))) (c : Cursor) (message : String) : Run (Read α) := do
  match ← x with
  | none => ends (c.fail message)
  | some result => pure result

section
variable (value expr : Cursor → Run (Option (Read Expr)))

def joinOperands : Nat → Expr → Cursor → Run (Read Expr)
  | 0, _, _ => stopped
  | limit + 1, left, c =>
    match c.operator? with
    | none => pure (left, c)
    | some op => do
      let (right, c) ← required (value c.next) c.next ("expected value after '" ++ op.sign ++ "'")
      joinOperands limit (.binary left op right) c

def expressionOf (limit : Nat) (c : Cursor) : Run (Option (Read Expr)) := do
  match ← value c with
  | none => return none
  | some (left, c) => return some (← joinOperands value limit left c)

def argumentsFrom : Nat → List Expr → Cursor → Run (Read (List Expr))
  | 0, _, _ => stopped
  | limit + 1, done, c => do
    let (arg, c) ← required (expr c) c "expected argument expression"
    if c.atPunct .comma then argumentsFrom limit (arg :: done) c.next else return ((arg :: done).reverse, c)

def arguments (limit : Nat) (c : Cursor) : Run (Read (List Expr)) :=
  if c.atPunct .rparen then pure ([], c) else argumentsFrom expr limit [] c

def valueRule (limit : Nat) : ValueRule → Cursor → Run (Option (Read Expr))
  | .integer, c =>
    match c.kind with
    | .number n => pure (some (.int n, c.next))
    | _ => pure none
  | .call, c =>
    match c.kind with
    | .ident name =>
      if c.next.atPunct .lparen then do
        let (args, after) ← arguments expr limit c.next.next
        let after ← ends (after.expect .rparen "expected ')' or ',' after argument")
        return some (.call name args c.peek.offset, after)
      else pure none
    | _ => pure none
  | .named, c =>
    match c.kind with
    | .ident name => pure (some (.var name c.peek.offset, c.next))
    | _ => pure none
  | .parentheses, c =>
    if c.atPunct .lparen then do
      let (inner, after) ← required (expr c.next) c.next "expected expression after '('"
      let after ← ends (after.expect .rparen "expected ')'")
      return some (.paren inner, after)
    else pure none
  | .negate, c =>
    if c.atPunct .minus then do
      let (operand, after) ← required (value c.next) c.next "expected value after '-'"
      return some (.binary (.int 0) .sub operand, after)
    else pure none

end

def value (g : Grammar) : Nat → Cursor → Run (Option (Read Expr))
  | 0, _ => stopped
  | limit + 1, c =>
    let inner := value g limit
    g.values.findSomeM? fun rule => valueRule inner (expressionOf inner limit) limit rule c

def expression (g : Grammar) (limit : Nat) : Cursor → Run (Option (Read Expr)) :=
  expressionOf (value g limit) limit

/-- What a rule for statements gives: a whole statement, or the beginning of one whose body comes next. -/
inductive Head where
  | whole (s : Stmt)
  | cond (test : Expr)
  | loop (test : Expr)

section
variable (expr : Cursor → Run (Option (Read Expr))) (stmt : Cursor → Run (Read Stmt))

def statementsFrom : Nat → List Stmt → Cursor → Run (Read (List Stmt))
  | 0, _, _ => stopped
  | limit + 1, done, c =>
    match c.kind with
    | .punct .rbrace => pure (done.reverse, c.next)
    | .endOfInput => ends (c.fail "expected '\x7d' at the end of scope")
    | _ => do
      let (s, c) ← stmt c
      statementsFrom limit (s :: done) c

def block (limit : Nat) (c : Cursor) : Run (Option (Read (List Stmt))) :=
  if c.atPunct .lbrace then do return some (← statementsFrom stmt limit [] c.next) else pure none

def initializer (c : Cursor) : Run (Read (Option Expr)) :=
  if c.atPunct .assign then do
    let (value, c) ← required (expr c.next) c.next "expected expression after '='"
    return (some value, c)
  else pure (none, c)

def optional (c : Cursor) : Run (Read (Option Expr)) := do
  match ← expr c with
  | none => return (none, c)
  | some (value, c) => return (some value, c)

def wholeRule (limit : Nat) : StmtRule → Cursor → Run (Option (Read Stmt))
  | .scope, c => do
    match ← block stmt limit c with
    | none => return none
    | some (body, after) => return some (.scope body, after)
  | .cond, _ => pure none
  | .loop, _ => pure none
  | .var, c =>
    if c.atKeyword .var then do
      let (name, after) ← ends (c.next.expectName "expected variable name after 'var'")
      let (init, after) ← initializer expr after
      let after ← ends (after.expect .semicolon "expected ';'")
      return some (.var name init c.next.peek.offset, after)
    else pure none
  | .ret, c =>
    if c.atKeyword .ret then do
      let (value, after) ← optional expr c.next
      let after ← ends (after.expect .semicolon "expected ';'")
      return some (.ret value, after)
    else pure none
  | .write, c =>
    if c.atKeyword .write then do
      let (addr, after) ← required (expr c.next) c.next "expected address after 'write'"
      let (value, after) ← required (expr after) after "expected value to write"
      let after ← ends (after.expect .semicolon "expected ';'")
      return some (.write addr value, after)
    else pure none
  | .assign, c =>
    match c.kind with
    | .ident name =>
      if c.next.atPunct .assign then do
        let (value, after) ← required (expr c.next.next) c.next.next "expected expression after '='"
        let after ← ends (after.expect .semicolon "expected ';'")
        return some (.assign name value c.peek.offset, after)
      else pure none
    | _ => pure none
  | .expression, c => do
    match ← expr c with
    | none => return none
    | some (value, after) =>
      let after ← ends (after.expect .semicolon "expected ';'")
      return some (.expr value, after)

def stmtRule (limit : Nat) : StmtRule → Cursor → Run (Option (Read Head))
  | .cond, c =>
    if c.atKeyword .cond then do
      let (test, after) ← required (expr c.next) c.next "expected condition after 'if'"
      return some (.cond test, after)
    else pure none
  | .loop, c =>
    if c.atKeyword .loop then do
      let (test, after) ← required (expr c.next) c.next "expected condition after 'while'"
      return some (.loop test, after)
    else pure none
  | rule, c => do
    match ← wholeRule expr stmt limit rule c with
    | none => return none
    | some (s, after) => return some (.whole s, after)

def attached : Head → Cursor → Run (Read Stmt)
  | .whole s, c => pure (s, c)
  | .cond test, c => do
    let (body, c) ← stmt c
    return (.cond test body, c)
  | .loop test, c => do
    let (body, c) ← stmt c
    return (.loop test body, c)

end

def statement (g : Grammar) : Nat → Cursor → Run (Read Stmt)
  | 0, _ => stopped
  | limit + 1, c => do
    let inner := statement g limit
    match ← g.stmts.findSomeM? fun rule => stmtRule (expression g (limit + 1)) inner limit rule c with
    | none => ends (noStatement c)
    | some (head, after) => attached inner head after

def parametersFrom : Nat → List String → Cursor → Run (Read (List String))
  | 0, _, _ => stopped
  | limit + 1, done, c => do
    let (name, c) ← ends (c.expectName "expected parameter name")
    if c.atPunct .comma then parametersFrom limit (name :: done) c.next else return ((name :: done).reverse, c)

def parameters (limit : Nat) (c : Cursor) : Run (Read (List String)) :=
  if c.atPunct .rparen then pure ([], c) else parametersFrom limit [] c

def declRule (stmt : Cursor → Run (Read Stmt)) (limit : Nat) : DeclRule → Cursor → Run (Option (Read Decl))
  | .function, c =>
    if c.atKeyword .func then do
      let (name, after) ← ends (c.next.expectName "expected identifier after 'func'")
      let after ← ends (after.expect .lparen "expected '(' after function name")
      let (params, after) ← parameters limit after
      let after ← ends (after.expect .rparen "expected ')' or ',' after parameter")
      let (body, after) ← required (block stmt limit after) after "expected '\x7b' to open the function body"
      return some (.func name params body c.next.peek.offset, after)
    else pure none
  | .global, c =>
    if c.atKeyword .var then do
      let (name, after) ← ends (c.next.expectName "expected variable name after 'var'")
      let after ← ends (after.expect .semicolon "expected ';' after global variable")
      return some (.global name, after)
    else pure none

def declarationsFrom (g : Grammar) : Nat → List Decl → Cursor → Run Tree
  | 0, _, _ => stopped
  | limit + 1, done, c =>
    if c.kind = .endOfInput then pure done.reverse
    else do
      match ← g.decls.findSomeM? fun rule => declRule (statement g limit) limit rule c with
      | none => ends (c.fail "unrecognized statement")
      | some (decl, c) => declarationsFrom g limit (decl :: done) c

def parse (g : Grammar) (limit : Nat) (tokens : List Token) : Run Tree :=
  declarationsFrom g limit [] (.ofTokens tokens 0)

section
variable {α β : Type}

theorem bind_ends {x : Run α} {y : Except SyntaxError α} {f : α → Run β} {h : α → Except SyntaxError β}
    (hx : x = ends y) (hf : ∀ a, y = .ok a → f a = ends (h a)) : x >>= f = ends (y >>= h) := by
  subst hx
  cases y with
  | error e => rfl
  | ok a => exact hf a rfl

theorem required_ends {x : Run (Option (Read α))} {rule : Rule α} {c : Cursor} {message : String}
    (h : x = ends (rule c)) : required x c message = ends (require rule c message) := by
  rw [required, require, h]
  cases rule c with
  | error e => rfl
  | ok outcome => cases outcome <;> rfl

theorem findSomeM?_ends {ι : Type} {f : ι → Run (Option (Read α))} {parse : ι → Rule α} {c : Cursor}
    (h : ∀ rule, f rule = ends (parse rule c)) (rules : List ι) :
    rules.findSomeM? f = ends (firstMatch (rules.map parse) c) := by
  induction rules with
  | nil => rfl
  | cons rule rules ih =>
    rw [List.findSomeM?_cons, List.map_cons, firstMatch, h rule]
    cases parse rule c with
    | error e => rfl
    | ok outcome =>
      cases outcome with
      | none => exact ih
      | some result => rfl

end

end StackToolchain.Source.Strict
