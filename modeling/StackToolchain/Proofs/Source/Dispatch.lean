import StackToolchain.Proofs.Assembly.Encoding
import StackToolchain.Source.Parser

/-! What the standard grammar does at a token.
Rules are tried in order, but the next token decides which of them applies: the one after it matters only for a
name, which a parenthesis makes a call and `=` an assignment. One equation for values, one for statements and one
for declarations; proofs about the parser start from these and do not look at the lists of rules again. -/
namespace StackToolchain.Source

namespace Cursor

variable {c c' : Cursor} {p : Punct} {k : Keyword} {message name : String}

@[simp] theorem atPunct_iff : c.atPunct p = true ↔ c.kind = .punct p := by
  simp [atPunct]

@[simp] theorem atKeyword_iff : c.atKeyword k = true ↔ c.kind = .keyword k := by
  simp [atKeyword]

theorem expect_eq_ok : c.expect p message = .ok c' ↔ c.kind = .punct p ∧ c' = c.next := by
  unfold expect
  split
  · rename_i h
    simp [atPunct_iff.mp h, eq_comm]
  · rename_i h
    simp [fail, mt atPunct_iff.mpr h]

theorem expectName_eq_ok : c.expectName message = .ok (name, c') ↔ c.kind = .ident name ∧ c' = c.next := by
  unfold expectName
  split
  · rename_i h
    simp [h, eq_comm]
  · rename_i h
    simp only [fail, reduceCtorEq, false_iff, not_and]
    intro hk
    exact absurd hk (h name)

end Cursor

def TokenKind.isOperator : TokenKind → Bool
  | .punct p => p.operator?.isSome
  | _ => false

theorem Cursor.operator?_eq_none {c : Cursor} (h : c.kind.isOperator = false) : c.operator? = none := by
  unfold Cursor.operator?
  split
  · rename_i p hp
    simpa [hp, TokenKind.isOperator] using h
  · rfl

def TokenKind.beginsValue : TokenKind → Bool
  | .number _ => true
  | .ident _ => true
  | .punct .lparen => true
  | _ => false

theorem TokenKind.isOperator_of_beginsValue {k : TokenKind} (h : k.beginsValue = true) : k.isOperator = false := by
  cases k with
  | punct p => cases p <;> first | rfl | cases h
  | _ => rfl

theorem TokenKind.cases_of_beginsValue {k : TokenKind} (h : k.beginsValue = true) :
    (∃ n, k = .number n) ∨ (∃ name, k = .ident name) ∨ k = .punct .lparen := by
  cases k with
  | number n => exact .inl ⟨n, rfl⟩
  | ident name => exact .inr (.inl ⟨name, rfl⟩)
  | punct p => cases p <;> first | exact .inr (.inr rfl) | cases h
  | _ => cases h

theorem require_eq_ok {α : Type} {rule : Rule α} {c : Cursor} {message : String} {r : Read α} :
    require rule c message = .ok r ↔ rule c = .ok (some r) := by
  unfold require
  cases rule c with
  | error e => simp
  | ok outcome => cases outcome <;> simp [Cursor.fail]

section
variable {α : Type} {rule : Rule α} {rules : List (Rule α)} {c : Cursor} {x : Except SyntaxError (Read α)}

theorem firstMatch_skip (h : rule c = .ok none) : firstMatch (rule :: rules) c = firstMatch rules c := by
  simp [firstMatch, h]

private theorem firstMatch_found {r : Read α} (h : rule c = .ok (some r)) :
    firstMatch (rule :: rules) c = .ok (some r) := by
  simp [firstMatch, h]

/-- A rule that has begun to apply ends the search, whether it fails or gives a node. -/
theorem firstMatch_commit (h : rule c = some <$> x) : firstMatch (rule :: rules) c = some <$> x := by
  rw [firstMatch, h]
  cases x <;> rfl

end

theorem value_succ (limit : Nat) (c : Cursor) :
    Grammar.standard.value (limit + 1) c =
      match c.kind with
      | .number n => .ok (some (.int n, c.next))
      | .ident name =>
        if c.next.atPunct .lparen then some <$> do
          let (args, after) ← arguments (Grammar.standard.expression limit) limit c.next.next
          let after ← after.expect .rparen "expected ')' or ',' after argument"
          return (.call name args c.peek.offset, after)
        else .ok (some (.var name c.peek.offset, c.next))
      | .punct .lparen => some <$> do
        let (inner, after) ← require (Grammar.standard.expression limit) c.next "expected expression after '('"
        let after ← after.expect .rparen "expected ')'"
        return (.paren inner, after)
      | _ => .ok none := by
  have hrules : ∀ f : ValueRule → Rule Expr,
      Grammar.standard.values.map f = [f .integer, f .call, f .named, f .parentheses] := fun _ => rfl
  rewrite [Grammar.value, hrules]
  cases hk : c.kind with
  | number n => exact firstMatch_found (by simp only [ValueRule.parse, hk])
  | ident name =>
    rewrite [firstMatch_skip (by simp only [ValueRule.parse, hk])]
    by_cases hp : c.next.atPunct .lparen = true
    · simp only [hp, if_true]
      refine firstMatch_commit ?_
      simp only [ValueRule.parse, hk, hp, if_true, map_bind, map_pure]
      rfl
    · simp only [hp]
      rewrite [firstMatch_skip (by simp [ValueRule.parse, hk, hp])]
      exact firstMatch_found (by simp only [ValueRule.parse, hk])
  | punct p =>
    rewrite [firstMatch_skip (by simp only [ValueRule.parse, hk]), firstMatch_skip (by simp only [ValueRule.parse, hk]),
      firstMatch_skip (by simp only [ValueRule.parse, hk])]
    by_cases hp : p = .lparen
    · subst hp
      refine firstMatch_commit ?_
      simp only [ValueRule.parse, Cursor.atPunct_iff, hk, if_true, map_bind, map_pure]
      rfl
    · rewrite [firstMatch_skip (by simp [ValueRule.parse, hk, hp])]
      cases p <;> first | rfl | exact absurd rfl hp
  | keyword k =>
    rewrite [firstMatch_skip (by simp only [ValueRule.parse, hk]), firstMatch_skip (by simp only [ValueRule.parse, hk]),
      firstMatch_skip (by simp only [ValueRule.parse, hk]), firstMatch_skip (by simp [ValueRule.parse, hk])]
    rfl
  | endOfInput =>
    rewrite [firstMatch_skip (by simp only [ValueRule.parse, hk]), firstMatch_skip (by simp only [ValueRule.parse, hk]),
      firstMatch_skip (by simp only [ValueRule.parse, hk]), firstMatch_skip (by simp [ValueRule.parse, hk])]
    rfl

theorem value_eq_none {limit : Nat} {c : Cursor} (h : c.kind.beginsValue = false) :
    Grammar.standard.value limit c = .ok none := by
  cases limit with
  | zero => rfl
  | succ limit =>
    rw [value_succ]
    cases hk : c.kind with
    | punct p =>
      have hp : p ≠ .lparen := by
        rintro rfl
        rw [hk] at h
        cases h
      cases p <;> first | contradiction | rfl
    | keyword k => rfl
    | endOfInput => rfl
    | number n =>
      rw [hk] at h
      cases h
    | ident name =>
      rw [hk] at h
      cases h

theorem expression_of_value_none {limit : Nat} {c : Cursor} (h : Grammar.standard.value limit c = .ok none) :
    Grammar.standard.expression limit c = .ok none := by
  rw [Grammar.expression, expressionOf, h]
  rfl

def StmtRule.opening : StmtRule → Option TokenKind
  | .scope => some (.punct .lbrace)
  | .cond => some (.keyword .cond)
  | .loop => some (.keyword .loop)
  | .var => some (.keyword .var)
  | .ret => some (.keyword .ret)
  | .write => some (.keyword .write)
  | .assign => none
  | .expression => none

theorem StmtRule.parse_of_ne_opening {expr : Rule Expr} {stmt : Reader Stmt} {limit : Nat} {rule : StmtRule}
    {k : TokenKind} {c : Cursor} (h : rule.opening = some k) (hk : c.kind ≠ k) :
    rule.parse expr stmt limit c = .ok none := by
  cases rule <;> cases h
  case scope => simp [StmtRule.parse, block, hk]; rfl
  all_goals simp [StmtRule.parse, hk]

def expressionStatement (limit : Nat) (c : Cursor) : Except SyntaxError (Read Stmt) := do
  let (value, after) ← require (Grammar.standard.expression limit) c "unrecognized statement"
  let after ← after.expect .semicolon "expected ';'"
  return (.expr value, after)

/-- A rule for expression statements and the failure behind it, at a token that neither ends a scope nor the
source. -/
theorem firstMatch_expression {limit : Nat} {stmt : Reader Stmt} {inner : Nat} {c : Cursor}
    (hb : c.kind ≠ .punct .rbrace) (he : c.kind ≠ .endOfInput) :
    (match firstMatch [StmtRule.parse (Grammar.standard.expression limit) stmt inner .expression] c with
      | .error e => .error e
      | .ok none => noStatement c
      | .ok (some result) => .ok result) = expressionStatement limit c := by
  have hnone : noStatement c = c.fail "unrecognized statement" := by
    unfold noStatement
    split
    · exact absurd ‹_› he
    · exact absurd ‹_› hb
    · rfl
  simp only [firstMatch, StmtRule.parse, expressionStatement, require]
  cases Grammar.standard.expression limit c with
  | error e => rfl
  | ok outcome =>
    cases outcome with
    | none => exact hnone
    | some result =>
      simp only [bind, Except.bind]
      cases result.2.expect .semicolon "expected ';'" <;> rfl

theorem statement_zero (c : Cursor) : Grammar.standard.statement 0 c = noStatement c := rfl

theorem statement_succ (limit : Nat) (c : Cursor) :
    Grammar.standard.statement (limit + 1) c =
      match c.kind with
      | .punct .lbrace => do
        let (body, after) ← statementsFrom (Grammar.standard.statement limit) limit [] c.next
        return (.scope body, after)
      | .keyword .cond => do
        let (test, after) ← require (Grammar.standard.expression (limit + 1)) c.next "expected condition after 'if'"
        let (body, after) ← Grammar.standard.statement limit after
        return (.cond test body, after)
      | .keyword .loop => do
        let (test, after) ← require (Grammar.standard.expression (limit + 1)) c.next "expected condition after 'while'"
        let (body, after) ← Grammar.standard.statement limit after
        return (.loop test body, after)
      | .keyword .var => do
        let (name, after) ← c.next.expectName "expected variable name after 'var'"
        let (init, after) ← initializer (Grammar.standard.expression (limit + 1)) after
        let after ← after.expect .semicolon "expected ';'"
        return (.var name init c.next.peek.offset, after)
      | .keyword .ret => do
        let (value, after) ← optional (Grammar.standard.expression (limit + 1)) c.next
        let after ← after.expect .semicolon "expected ';'"
        return (.ret value, after)
      | .keyword .write => do
        let (addr, after) ← require (Grammar.standard.expression (limit + 1)) c.next "expected address after 'write'"
        let (value, after) ← require (Grammar.standard.expression (limit + 1)) after "expected value to write"
        let after ← after.expect .semicolon "expected ';'"
        return (.write addr value, after)
      | .ident name =>
        if c.next.atPunct .assign then do
          let (value, after) ← require (Grammar.standard.expression (limit + 1)) c.next.next
            "expected expression after '='"
          let after ← after.expect .semicolon "expected ';'"
          return (.assign name value c.peek.offset, after)
        else expressionStatement (limit + 1) c
      | .punct .rbrace => c.fail "expected statement"
      | .endOfInput => c.fail "expected '\x7d' at the end of scope"
      | _ => expressionStatement (limit + 1) c := by
  have hrules : ∀ f : StmtRule → Rule Stmt, Grammar.standard.stmts.map f =
      [f .scope, f .cond, f .loop, f .var, f .ret, f .write, f .assign, f .expression] := fun _ => rfl
  have hcommit : ∀ {rule : Rule Stmt} {rules : List (Rule Stmt)} {x : Except SyntaxError (Read Stmt)},
      rule c = some <$> x →
        (match firstMatch (rule :: rules) c with
          | .error e => .error e
          | .ok none => noStatement c
          | .ok (some result) => .ok result) = x := by
    intro rule rules x h
    rw [firstMatch_commit h]
    cases x <;> rfl
  rewrite [Grammar.statement, hrules]
  cases hk : c.kind with
  | number n =>
    iterate 6 rewrite [firstMatch_skip (StmtRule.parse_of_ne_opening rfl (by simp [hk]))]
    rewrite [firstMatch_skip (by simp only [StmtRule.parse, hk])]
    exact firstMatch_expression (by simp [hk]) (by simp [hk])
  | ident name =>
    iterate 6 rewrite [firstMatch_skip (StmtRule.parse_of_ne_opening rfl (by simp [hk]))]
    by_cases hp : c.next.atPunct .assign = true
    · simp only [hp, if_true]
      refine hcommit ?_
      simp only [StmtRule.parse, hk, hp, if_true, map_bind, map_pure]
    · simp only [hp]
      rewrite [firstMatch_skip (by simp [StmtRule.parse, hk, hp])]
      exact firstMatch_expression (by simp [hk]) (by simp [hk])
  | endOfInput =>
    iterate 6 rewrite [firstMatch_skip (StmtRule.parse_of_ne_opening rfl (by simp [hk]))]
    rewrite [firstMatch_skip (by simp only [StmtRule.parse, hk])]
    have hnone : Grammar.standard.expression (limit + 1) c = .ok none :=
      expression_of_value_none (by rw [value_succ, hk])
    simp only [firstMatch, StmtRule.parse, hnone, noStatement, hk]
    rfl
  | punct p =>
    by_cases hp : p = .lbrace
    · subst hp
      refine hcommit ?_
      simp only [StmtRule.parse, block, Cursor.atPunct_iff, hk, if_true, map_bind, map_pure, bind_assoc, pure_bind]
    · iterate 6 rewrite [firstMatch_skip (StmtRule.parse_of_ne_opening rfl (by simp [hk, hp]))]
      rewrite [firstMatch_skip (by simp only [StmtRule.parse, hk])]
      by_cases hr : p = .rbrace
      · subst hr
        have hnone : Grammar.standard.expression (limit + 1) c = .ok none :=
          expression_of_value_none (by rw [value_succ, hk])
        simp only [firstMatch, StmtRule.parse, hnone, noStatement, hk]
        rfl
      · refine (firstMatch_expression (by simp [hk, hr]) (by simp [hk])).trans ?_
        cases p <;> first | rfl | contradiction
  | keyword k =>
    cases k with
    | func =>
      iterate 6 rewrite [firstMatch_skip (StmtRule.parse_of_ne_opening rfl (by simp [hk]))]
      rewrite [firstMatch_skip (by simp only [StmtRule.parse, hk])]
      exact firstMatch_expression (by simp [hk]) (by simp [hk])
    | cond =>
      iterate 1 rewrite [firstMatch_skip (StmtRule.parse_of_ne_opening rfl (by simp [hk]))]
      exact hcommit (by simp only [StmtRule.parse, Cursor.atKeyword_iff, hk, if_true, map_bind, map_pure])
    | loop =>
      iterate 2 rewrite [firstMatch_skip (StmtRule.parse_of_ne_opening rfl (by simp [hk]))]
      exact hcommit (by simp only [StmtRule.parse, Cursor.atKeyword_iff, hk, if_true, map_bind, map_pure])
    | var =>
      iterate 3 rewrite [firstMatch_skip (StmtRule.parse_of_ne_opening rfl (by simp [hk]))]
      exact hcommit (by simp only [StmtRule.parse, Cursor.atKeyword_iff, hk, if_true, map_bind, map_pure])
    | ret =>
      iterate 4 rewrite [firstMatch_skip (StmtRule.parse_of_ne_opening rfl (by simp [hk]))]
      exact hcommit (by simp only [StmtRule.parse, Cursor.atKeyword_iff, hk, if_true, map_bind, map_pure])
    | write =>
      iterate 5 rewrite [firstMatch_skip (StmtRule.parse_of_ne_opening rfl (by simp [hk]))]
      exact hcommit (by simp only [StmtRule.parse, Cursor.atKeyword_iff, hk, if_true, map_bind, map_pure])

private theorem require_block (stmt : Reader Stmt) (limit : Nat) (c : Cursor) (message : String) :
    require (block stmt limit) c message = c.expect .lbrace message >>= statementsFrom stmt limit [] := by
  unfold require block Cursor.expect
  by_cases h : c.atPunct .lbrace = true
  · simp only [h, if_true, bind, Except.bind]
    cases statementsFrom stmt limit [] c.next <;> rfl
  · simp only [h]
    rfl

def functionDeclaration (limit : Nat) (c : Cursor) : Except SyntaxError (Read Decl) := do
  let (name, after) ← c.next.expectName "expected identifier after 'func'"
  let after ← after.expect .lparen "expected '(' after function name"
  let (params, after) ← parameters limit after
  let after ← after.expect .rparen "expected ')' or ',' after parameter"
  let after ← after.expect .lbrace "expected '\x7b' to open the function body"
  let (body, after) ← statementsFrom (Grammar.standard.statement limit) limit [] after
  return (.func name params body c.next.peek.offset, after)

def globalDeclaration (c : Cursor) : Except SyntaxError (Read Decl) := do
  let (name, after) ← c.next.expectName "expected variable name after 'var'"
  let after ← after.expect .semicolon "expected ';' after global variable"
  return (.global name, after)

private theorem firstMatch_declaration {limit : Nat} {done : List Decl} {c : Cursor} {rule : Rule Decl}
    {rules : List (Rule Decl)} {x : Except SyntaxError (Read Decl)} (h : rule c = some <$> x) :
    (match firstMatch (rule :: rules) c with
      | .error e => .error e
      | .ok none => c.fail "unrecognized statement"
      | .ok (some (decl, after)) => Grammar.standard.declarationsFrom limit (decl :: done) after) =
      x >>= fun (decl, after) => Grammar.standard.declarationsFrom limit (decl :: done) after := by
  rw [firstMatch_commit h]
  cases x <;> rfl

theorem declarationsFrom_succ (limit : Nat) (done : List Decl) (c : Cursor) :
    Grammar.standard.declarationsFrom (limit + 1) done c =
      match c.kind with
      | .endOfInput => .ok done.reverse
      | .keyword .func => do
        let (decl, after) ← functionDeclaration limit c
        Grammar.standard.declarationsFrom limit (decl :: done) after
      | .keyword .var => do
        let (decl, after) ← globalDeclaration c
        Grammar.standard.declarationsFrom limit (decl :: done) after
      | _ => c.fail "unrecognized statement" := by
  have hrules : ∀ f : DeclRule → Rule Decl, Grammar.standard.decls.map f = [f .function, f .global] := fun _ => rfl
  rewrite [Grammar.declarationsFrom, hrules]
  cases hk : c.kind with
  | endOfInput => rfl
  | keyword k =>
    rewrite [if_neg (by simp)]
    cases k with
    | func =>
      refine firstMatch_declaration ?_
      simp only [DeclRule.parse, functionDeclaration, Cursor.atKeyword_iff, hk, if_true, require_block, map_bind,
        map_pure, bind_assoc]
    | var =>
      rewrite [firstMatch_skip (by simp [DeclRule.parse, hk])]
      refine firstMatch_declaration ?_
      simp only [DeclRule.parse, globalDeclaration, Cursor.atKeyword_iff, hk, if_true, map_bind, map_pure]
    | _ =>
      rewrite [firstMatch_skip (by simp [DeclRule.parse, hk]), firstMatch_skip (by simp [DeclRule.parse, hk])]
      rfl
  | _ =>
    rewrite [if_neg (by simp), firstMatch_skip (by simp [DeclRule.parse, hk]),
      firstMatch_skip (by simp [DeclRule.parse, hk])]
    rfl

end StackToolchain.Source
