import StackToolchain.Proofs.Source.Dispatch
import StackToolchain.Proofs.Source.Rewording

/-! Parsing two lists of tokens of the same kinds.
The parser looks at kinds only. Offsets are copied, from a name into the tree and from the token at fault into the
error. Whatever relates the tokens of two lists one by one therefore relates the offsets in what is made of them. -/
namespace StackToolchain.Source

structure Pairing where
  rel : Token → Token → Prop
  kind_eq {t u : Token} : rel t u → t.kind = u.kind

def Pairing.Places (R : Pairing) (o o' : Nat) : Prop :=
  ∃ t u, R.rel t u ∧ t.offset = o ∧ u.offset = o'

def Pairing.rewording (R : Pairing) : Rewording where
  name := id
  offset name o o' := R.rel ⟨.ident name, o⟩ ⟨.ident name, o'⟩

variable {R : Pairing}

structure SyntaxError.Matches (R : Pairing) (e e' : SyntaxError) : Prop where
  fault_eq : e.fault = e'.fault
  places : R.Places e.offset e'.offset

structure Cursor.Matches (R : Pairing) (c c' : Cursor) : Prop where
  rest : List.Forall₂ R.rel c.rest c'.rest
  ends : R.Places c.endOffset c'.endOffset

private def Read.Matches (R : Pairing) {α β : Type} (V : α → β → Prop) (r : Read α) (r' : Read β) : Prop :=
  V r.1 r'.1 ∧ r.2.Matches R r'.2

private def Reader.Respects (R : Pairing) {α : Type} (V : α → α → Prop) (reader : Reader α) : Prop :=
  ∀ ⦃c c'⦄, c.Matches R c' → Alike (SyntaxError.Matches R) (Read.Matches R V) (reader c) (reader c')

/-- On paired tokens a rule applies to both or to neither, and gives related nodes. -/
private def Rule.Respects (R : Pairing) {α : Type} (V : α → α → Prop) (rule : Rule α) : Prop :=
  ∀ ⦃c c'⦄, c.Matches R c' → Alike (SyntaxError.Matches R) (Option.Rel (Read.Matches R V)) (rule c) (rule c')

namespace Cursor.Matches

variable {c c' : Cursor} (h : c.Matches R c')
include h

/-- The next tokens are paired, or both lists are at their end. -/
theorem peek_cases : R.rel c.peek c'.peek ∨ c.kind = .endOfInput ∧ c'.kind = .endOfInput ∧
    R.Places c.peek.offset c'.peek.offset := by
  obtain ⟨hrest, hends⟩ := h
  unfold Cursor.kind Cursor.peek
  cases hr : c.rest with
  | nil =>
    rw [hr, List.forall₂_nil_left_iff] at hrest
    rw [hrest]
    exact .inr ⟨rfl, rfl, hends⟩
  | cons t rest =>
    rw [hr] at hrest
    obtain ⟨u, rest', ht, -, hr'⟩ := List.forall₂_cons_left_iff.mp hrest
    rw [hr']
    exact .inl ht

private theorem kind_eq : c.kind = c'.kind := by
  rcases h.peek_cases with hp | ⟨hk, hk', -⟩
  · exact R.kind_eq hp
  · rw [hk, hk']

private theorem places : R.Places c.peek.offset c'.peek.offset := by
  rcases h.peek_cases with hp | ⟨-, -, hp⟩
  · exact ⟨_, _, hp, rfl, rfl⟩
  · exact hp

private theorem ident {name : String} (hk : c.kind = .ident name) :
    R.rewording.offset name c.peek.offset c'.peek.offset := by
  have hk' : c'.kind = .ident name := h.kind_eq ▸ hk
  rcases h.peek_cases with hp | ⟨he, -, -⟩
  · have ht : c.peek = ⟨.ident name, c.peek.offset⟩ := by rw [← hk]; rfl
    have ht' : c'.peek = ⟨.ident name, c'.peek.offset⟩ := by rw [← hk']; rfl
    rw [ht, ht'] at hp
    exact hp
  · rw [hk] at he
    cases he

private theorem next : c.next.Matches R c'.next := by
  obtain ⟨rest, endOffset⟩ := c
  obtain ⟨rest', endOffset'⟩ := c'
  refine ⟨?_, h.ends⟩
  cases h.rest with
  | nil => exact .nil
  | cons _ hrest => exact hrest

private theorem atPunct_eq (p : Punct) : c.atPunct p = c'.atPunct p := by
  rw [Cursor.atPunct, h.kind_eq, Cursor.atPunct]

private theorem atKeyword_eq (k : Keyword) : c.atKeyword k = c'.atKeyword k := by
  rw [Cursor.atKeyword, h.kind_eq, Cursor.atKeyword]

private theorem operator_eq : c.operator? = c'.operator? := by
  rw [Cursor.operator?, h.kind_eq, Cursor.operator?]

private theorem fail {α β : Type} {V : α → β → Prop} (message : String) :
    Alike (SyntaxError.Matches R) V (c.fail message) (c'.fail message) :=
  .error ⟨rfl, h.places⟩

private theorem expect (p : Punct) (message : String) :
    Alike (SyntaxError.Matches R) (Cursor.Matches R) (c.expect p message) (c'.expect p message) := by
  rw [Cursor.expect, Cursor.expect, h.atPunct_eq]
  split
  · exact .ok h.next
  · exact h.fail message

private theorem expectName (message : String) :
    Alike (SyntaxError.Matches R)
      (fun r r' => r.1 = r'.1 ∧ R.rewording.offset r.1 c.peek.offset c'.peek.offset ∧ r.2.Matches R r'.2)
      (c.expectName message) (c'.expectName message) := by
  rw [Cursor.expectName, Cursor.expectName]
  cases hk : c.kind with
  | ident name =>
    rw [← h.kind_eq, hk]
    exact .ok ⟨rfl, h.ident hk, h.next⟩
  | _ =>
    rw [← h.kind_eq, hk]
    exact h.fail message

end Cursor.Matches

section
variable {α : Type} {V : α → α → Prop}

private theorem firstMatch_respects {rules : List (Rule α)} (h : ∀ rule ∈ rules, Rule.Respects R V rule) :
    Rule.Respects R V (firstMatch rules) := by
  induction rules with
  | nil =>
    intro c c' hc
    exact .ok .none
  | cons rule rules ih =>
    intro c c' hc
    obtain ⟨hrule, hrules⟩ := List.forall_mem_cons.mp h
    have hout := hrule hc
    unfold firstMatch
    generalize rule c = x at hout
    generalize rule c' = y at hout
    cases hout with
    | error he => exact .error he
    | ok hv =>
      cases hv with
      | none => exact ih hrules hc
      | some hr => exact .ok (.some hr)

private theorem require_matches {rule : Rule α} {c c' : Cursor} (h : Rule.Respects R V rule) (hc : c.Matches R c')
    (message : String) :
    Alike (SyntaxError.Matches R) (Read.Matches R V) (require rule c message) (require rule c' message) := by
  have hout := h hc
  unfold require
  generalize rule c = x at hout
  generalize rule c' = y at hout
  cases hout with
  | error he => exact .error he
  | ok hv =>
    cases hv with
    | none => exact hc.fail message
    | some hr => exact .ok hr

end

section
variable {value expr : Rule Expr} {limit : Nat}

private theorem joinOperands_matches (h : Rule.Respects R (Expr.Reworded R.rewording) value) {left left' : Expr}
    {c c' : Cursor} (hleft : left.Reworded R.rewording left') (hc : c.Matches R c') :
    Alike (SyntaxError.Matches R) (Read.Matches R (Expr.Reworded R.rewording)) (joinOperands value limit left c)
      (joinOperands value limit left' c') := by
  induction limit generalizing left left' c c' with
  | zero => exact .ok ⟨hleft, hc⟩
  | succ limit ih =>
    rw [joinOperands, joinOperands, hc.operator_eq]
    cases c'.operator? with
    | none => exact .ok ⟨hleft, hc⟩
    | some op =>
      -- the message names the operator, which is the same in both
      refine (require_matches h hc.next _).bind ?_
      rintro ⟨right, after⟩ ⟨right', after'⟩ ⟨hright, hafter⟩
      exact ih (.binary hleft hright) hafter

private theorem expressionOf_respects (h : Rule.Respects R (Expr.Reworded R.rewording) value) :
    Rule.Respects R (Expr.Reworded R.rewording) (expressionOf value limit) := by
  intro c c' hc
  refine (h hc).bind ?_
  intro r r' hr
  cases hr with
  | none => exact .ok .none
  | some hr => exact (joinOperands_matches h hr.1 hr.2).map fun _ _ hv => .some hv

private theorem argumentsFrom_matches (h : Rule.Respects R (Expr.Reworded R.rewording) expr) {done done' : List Expr}
    {c c' : Cursor} (hdone : List.Forall₂ (Expr.Reworded R.rewording) done done') (hc : c.Matches R c') :
    Alike (SyntaxError.Matches R) (Read.Matches R (List.Forall₂ (Expr.Reworded R.rewording)))
      (argumentsFrom expr limit done c) (argumentsFrom expr limit done' c') := by
  induction limit generalizing done done' c c' with
  | zero => exact hc.fail _
  | succ limit ih =>
    rw [argumentsFrom, argumentsFrom]
    refine (require_matches h hc _).bind ?_
    rintro ⟨arg, after⟩ ⟨arg', after'⟩ ⟨harg, hafter⟩
    have hall : List.Forall₂ (Expr.Reworded R.rewording) (arg :: done) (arg' :: done') := .cons harg hdone
    simp only [hafter.atPunct_eq]
    split
    · exact ih hall hafter.next
    · exact .ok ⟨List.rel_reverse hall, hafter⟩

private theorem arguments_respects (h : Rule.Respects R (Expr.Reworded R.rewording) expr) :
    Reader.Respects R (List.Forall₂ (Expr.Reworded R.rewording)) (arguments expr limit) := by
  intro c c' hc
  rw [arguments, arguments, hc.atPunct_eq]
  split
  · exact .ok ⟨.nil, hc⟩
  · exact argumentsFrom_matches h .nil hc

private theorem ValueRule.parse_respects (rule : ValueRule) (hvalue : Rule.Respects R (Expr.Reworded R.rewording) value)
    (hexpr : Rule.Respects R (Expr.Reworded R.rewording) expr) :
    Rule.Respects R (Expr.Reworded R.rewording) (rule.parse value expr limit) := by
  intro c c' hc
  cases rule with
  | integer =>
    rw [ValueRule.parse, ValueRule.parse, hc.kind_eq]
    cases c'.kind with
    | number n => exact .ok (.some ⟨.int, hc.next⟩)
    | _ => exact .ok .none
  | call =>
    rw [ValueRule.parse, ValueRule.parse, ← hc.kind_eq]
    cases hk : c.kind with
    | ident name =>
      simp only [hc.next.atPunct_eq]
      split
      · refine (arguments_respects hexpr hc.next.next).bind ?_
        rintro ⟨args, after⟩ ⟨args', after'⟩ ⟨hargs, hafter⟩
        refine (hafter.expect _ _).map fun rest rest' hrest => ?_
        exact .some ⟨.call (hc.ident hk) hargs, hrest⟩
      · exact .ok .none
    | _ => exact .ok .none
  | named =>
    rw [ValueRule.parse, ValueRule.parse, ← hc.kind_eq]
    cases hk : c.kind with
    | ident name => exact .ok (.some ⟨.var (hc.ident hk), hc.next⟩)
    | _ => exact .ok .none
  | parentheses =>
    rw [ValueRule.parse, ValueRule.parse, hc.atPunct_eq]
    split
    · refine (require_matches hexpr hc.next _).bind ?_
      rintro ⟨inner, after⟩ ⟨inner', after'⟩ ⟨hinner, hafter⟩
      exact (hafter.expect _ _).map fun rest rest' hrest => .some ⟨.paren hinner, hrest⟩
    · exact .ok .none
  | negate =>
    rw [ValueRule.parse, ValueRule.parse, hc.atPunct_eq]
    split
    · refine (require_matches hvalue hc.next _).map ?_
      rintro ⟨operand, after⟩ ⟨operand', after'⟩ ⟨hoperand, hafter⟩
      exact .some ⟨.binary .int hoperand, hafter⟩
    · exact .ok .none

end

section
variable (g : Grammar) (limit : Nat)

private theorem Grammar.value_respects : Rule.Respects R (Expr.Reworded R.rewording) (g.value limit) := by
  induction limit with
  | zero =>
    intro c c' hc
    exact .ok .none
  | succ limit ih =>
    intro c c' hc
    rw [Grammar.value]
    refine firstMatch_respects ?_ hc
    intro parse hparse
    obtain ⟨rule, -, rfl⟩ := List.mem_map.mp hparse
    exact rule.parse_respects ih (expressionOf_respects ih)

private theorem Grammar.expression_respects : Rule.Respects R (Expr.Reworded R.rewording) (g.expression limit) :=
  expressionOf_respects (g.value_respects limit)

end

section
variable {expr : Rule Expr} {stmt : Reader Stmt} {limit : Nat}

private theorem statementsFrom_matches (h : Reader.Respects R (Stmt.Reworded R.rewording) stmt) {done done' : List Stmt}
    {c c' : Cursor} (hdone : List.Forall₂ (Stmt.Reworded R.rewording) done done') (hc : c.Matches R c') :
    Alike (SyntaxError.Matches R) (Read.Matches R (List.Forall₂ (Stmt.Reworded R.rewording)))
      (statementsFrom stmt limit done c) (statementsFrom stmt limit done' c') := by
  induction limit generalizing done done' c c' with
  | zero => exact hc.fail _
  | succ limit ih =>
    rw [statementsFrom, statementsFrom, hc.kind_eq]
    split
    · exact .ok ⟨List.rel_reverse hdone, hc.next⟩
    · exact hc.fail _
    · refine (h hc).bind ?_
      rintro ⟨s, after⟩ ⟨s', after'⟩ ⟨hs, hafter⟩
      exact ih (.cons hs hdone) hafter

private theorem block_respects (h : Reader.Respects R (Stmt.Reworded R.rewording) stmt) :
    Rule.Respects R (List.Forall₂ (Stmt.Reworded R.rewording)) (block stmt limit) := by
  intro c c' hc
  rw [block, block, hc.atPunct_eq]
  split
  · exact (statementsFrom_matches h .nil hc.next).map fun _ _ hv => .some hv
  · exact .ok .none

private theorem initializer_respects (h : Rule.Respects R (Expr.Reworded R.rewording) expr) :
    Reader.Respects R (Option.Rel (Expr.Reworded R.rewording)) (initializer expr) := by
  intro c c' hc
  rw [initializer, initializer, hc.atPunct_eq]
  split
  · refine (require_matches h hc.next _).map ?_
    rintro ⟨value, after⟩ ⟨value', after'⟩ ⟨hvalue, hafter⟩
    exact ⟨.some hvalue, hafter⟩
  · exact .ok ⟨.none, hc⟩

private theorem optional_respects (h : Rule.Respects R (Expr.Reworded R.rewording) expr) :
    Reader.Respects R (Option.Rel (Expr.Reworded R.rewording)) (optional expr) := by
  intro c c' hc
  refine (h hc).bind ?_
  intro r r' hr
  cases hr with
  | none => exact .ok ⟨.none, hc⟩
  | some hr => exact .ok ⟨.some hr.1, hr.2⟩

private theorem StmtRule.parse_respects (rule : StmtRule) (hexpr : Rule.Respects R (Expr.Reworded R.rewording) expr)
    (hstmt : Reader.Respects R (Stmt.Reworded R.rewording) stmt) :
    Rule.Respects R (Stmt.Reworded R.rewording) (rule.parse expr stmt limit) := by
  intro c c' hc
  cases rule with
  | scope =>
    refine (block_respects hstmt hc).bind ?_
    intro r r' hr
    cases hr with
    | none => exact .ok .none
    | some hr => exact .ok (.some ⟨.scope hr.1, hr.2⟩)
  | cond =>
    rw [StmtRule.parse, StmtRule.parse, hc.atKeyword_eq]
    split
    · refine (require_matches hexpr hc.next _).bind ?_
      rintro ⟨test, after⟩ ⟨test', after'⟩ ⟨htest, hafter⟩
      exact (hstmt hafter).map fun _ _ hbody => .some ⟨.cond htest hbody.1, hbody.2⟩
    · exact .ok .none
  | loop =>
    rw [StmtRule.parse, StmtRule.parse, hc.atKeyword_eq]
    split
    · refine (require_matches hexpr hc.next _).bind ?_
      rintro ⟨test, after⟩ ⟨test', after'⟩ ⟨htest, hafter⟩
      exact (hstmt hafter).map fun _ _ hbody => .some ⟨.loop htest hbody.1, hbody.2⟩
    · exact .ok .none
  | var =>
    rw [StmtRule.parse, StmtRule.parse, hc.atKeyword_eq]
    split
    · refine (hc.next.expectName _).bind ?_
      rintro ⟨name, after⟩ ⟨_, after'⟩ ⟨rfl, hname, hafter⟩
      refine (initializer_respects hexpr hafter).bind ?_
      rintro ⟨init, after⟩ ⟨init', after'⟩ ⟨hinit, hafter⟩
      exact (hafter.expect _ _).map fun rest rest' hrest => .some ⟨.var hname hinit, hrest⟩
    · exact .ok .none
  | ret =>
    rw [StmtRule.parse, StmtRule.parse, hc.atKeyword_eq]
    split
    · refine (optional_respects hexpr hc.next).bind ?_
      rintro ⟨value, after⟩ ⟨value', after'⟩ ⟨hvalue, hafter⟩
      exact (hafter.expect _ _).map fun rest rest' hrest => .some ⟨.ret hvalue, hrest⟩
    · exact .ok .none
  | write =>
    rw [StmtRule.parse, StmtRule.parse, hc.atKeyword_eq]
    split
    · refine (require_matches hexpr hc.next _).bind ?_
      rintro ⟨addr, after⟩ ⟨addr', after'⟩ ⟨haddr, hafter⟩
      refine (require_matches hexpr hafter _).bind ?_
      rintro ⟨value, after⟩ ⟨value', after'⟩ ⟨hvalue, hafter⟩
      exact (hafter.expect _ _).map fun rest rest' hrest => .some ⟨.write haddr hvalue, hrest⟩
    · exact .ok .none
  | assign =>
    rw [StmtRule.parse, StmtRule.parse, ← hc.kind_eq]
    cases hk : c.kind with
    | ident name =>
      simp only [hc.next.atPunct_eq]
      split
      · refine (require_matches hexpr hc.next.next _).bind ?_
        rintro ⟨value, after⟩ ⟨value', after'⟩ ⟨hvalue, hafter⟩
        exact (hafter.expect _ _).map fun rest rest' hrest => .some ⟨.assign (hc.ident hk) hvalue, hrest⟩
      · exact .ok .none
    | _ => exact .ok .none
  | expression =>
    refine (hexpr hc).bind ?_
    intro r r' hr
    cases hr with
    | none => exact .ok .none
    | some hr => exact (hr.2.expect _ _).map fun rest rest' hrest => .some ⟨.expr hr.1, hrest⟩

private theorem noStatement_respects : Reader.Respects R (Stmt.Reworded R.rewording) noStatement := by
  intro c c' hc
  rw [noStatement, noStatement, hc.kind_eq]
  split
  · exact hc.fail _
  · exact hc.fail _
  · exact hc.fail _

end

private theorem Grammar.statement_respects (g : Grammar) (limit : Nat) :
    Reader.Respects R (Stmt.Reworded R.rewording) (g.statement limit) := by
  induction limit with
  | zero => exact noStatement_respects
  | succ limit ih =>
    intro c c' hc
    have hrules : Rule.Respects R (Stmt.Reworded R.rewording)
        (firstMatch (g.stmts.map fun rule => rule.parse (g.expression (limit + 1)) (g.statement limit) limit)) := by
      apply firstMatch_respects
      intro parse hparse
      obtain ⟨rule, -, rfl⟩ := List.mem_map.mp hparse
      exact rule.parse_respects (g.expression_respects (limit + 1)) ih
    have hout := hrules hc
    rw [Grammar.statement, Grammar.statement]
    generalize firstMatch _ c = x at hout ⊢
    generalize firstMatch _ c' = y at hout ⊢
    cases hout with
    | error he => exact .error he
    | ok hv =>
      cases hv with
      | none => exact noStatement_respects hc
      | some hr => exact .ok hr

private theorem parametersFrom_matches {limit : Nat} {done : List String} {c c' : Cursor} (hc : c.Matches R c') :
    Alike (SyntaxError.Matches R) (Read.Matches R Eq) (parametersFrom limit done c) (parametersFrom limit done c') := by
  induction limit generalizing done c c' with
  | zero => exact hc.fail _
  | succ limit ih =>
    rw [parametersFrom, parametersFrom]
    refine (hc.expectName _).bind ?_
    rintro ⟨name, after⟩ ⟨_, after'⟩ ⟨rfl, -, hafter⟩
    simp only [hafter.atPunct_eq]
    split
    · exact ih hafter.next
    · exact .ok ⟨rfl, hafter⟩

private theorem parameters_respects {limit : Nat} : Reader.Respects R Eq (parameters limit) := by
  intro c c' hc
  rw [parameters, parameters, hc.atPunct_eq]
  split
  · exact .ok ⟨rfl, hc⟩
  · exact parametersFrom_matches hc

private theorem DeclRule.parse_respects (rule : DeclRule) {stmt : Reader Stmt} {limit : Nat}
    (hstmt : Reader.Respects R (Stmt.Reworded R.rewording) stmt) :
    Rule.Respects R (Decl.Reworded R.rewording) (rule.parse stmt limit) := by
  intro c c' hc
  cases rule with
  | function =>
    rw [DeclRule.parse, DeclRule.parse, hc.atKeyword_eq]
    split
    · refine (hc.next.expectName _).bind ?_
      rintro ⟨name, after⟩ ⟨_, after'⟩ ⟨rfl, hname, hafter⟩
      refine (hafter.expect _ _).bind ?_
      intro after after' hafter
      refine (parameters_respects hafter).bind ?_
      rintro ⟨params, after⟩ ⟨_, after'⟩ ⟨rfl, hafter⟩
      refine (hafter.expect _ _).bind ?_
      intro after after' hafter
      refine (require_matches (block_respects hstmt) hafter _).map ?_
      rintro ⟨body, after⟩ ⟨body', after'⟩ ⟨hbody, hafter⟩
      -- the parameters are names without offsets
      have hfunc : Decl.Reworded R.rewording (.func name params body c.next.peek.offset)
          (.func (id name) (params.map id) body' c'.next.peek.offset) := .func hname hbody
      rw [List.map_id] at hfunc
      exact .some ⟨hfunc, hafter⟩
    · exact .ok .none
  | global =>
    rw [DeclRule.parse, DeclRule.parse, hc.atKeyword_eq]
    split
    · refine (hc.next.expectName _).bind ?_
      rintro ⟨name, after⟩ ⟨_, after'⟩ ⟨rfl, -, hafter⟩
      exact (hafter.expect _ _).map fun rest rest' hrest => .some ⟨.global, hrest⟩
    · exact .ok .none

private theorem Grammar.declarationsFrom_matches (g : Grammar) {limit : Nat} {done done' : List Decl} {c c' : Cursor}
    (hdone : List.Forall₂ (Decl.Reworded R.rewording) done done') (hc : c.Matches R c') :
    Alike (SyntaxError.Matches R) (Tree.Reworded R.rewording) (g.declarationsFrom limit done c)
      (g.declarationsFrom limit done' c') := by
  induction limit generalizing done done' c c' with
  | zero => exact .ok (List.rel_reverse hdone)
  | succ limit ih =>
    rw [Grammar.declarationsFrom, Grammar.declarationsFrom, hc.kind_eq]
    split
    · exact .ok (List.rel_reverse hdone)
    · have hrules : Rule.Respects R (Decl.Reworded R.rewording)
          (firstMatch (g.decls.map fun rule => rule.parse (g.statement limit) limit)) := by
        apply firstMatch_respects
        intro parse hparse
        obtain ⟨rule, -, rfl⟩ := List.mem_map.mp hparse
        exact rule.parse_respects (g.statement_respects limit)
      have hout := hrules hc
      generalize firstMatch _ c = x at hout ⊢
      generalize firstMatch _ c' = y at hout ⊢
      cases hout with
      | error he => exact .error he
      | ok hv =>
        cases hv with
        | none => exact hc.fail _
        | some hr => exact ih (.cons hr.1 hdone) hr.2

private theorem Cursor.ofTokens_matches {tokens tokens' : List Token} (h : List.Forall₂ R.rel tokens tokens')
    (hne : tokens ≠ []) : (Cursor.ofTokens tokens 0).Matches R (.ofTokens tokens' 0) := by
  refine ⟨h, ?_⟩
  show R.Places ((tokens.getLast?.map Token.offset).getD 0) ((tokens'.getLast?.map Token.offset).getD 0)
  have hlast : List.Forall₂ R.rel tokens.reverse tokens'.reverse := List.rel_reverse h
  obtain ⟨t, before, ht⟩ := List.exists_cons_of_ne_nil (List.reverse_ne_nil_iff.mpr hne)
  rw [ht] at hlast
  obtain ⟨u, before', hu, -, ht'⟩ := List.forall₂_cons_left_iff.mp hlast
  rw [List.getLast?_eq_head?_reverse, List.getLast?_eq_head?_reverse, ht, ht']
  exact ⟨t, u, hu, rfl, rfl⟩

/-- Trees of paired tokens have one shape, with offsets of paired names; else both parses end at paired tokens. -/
theorem Grammar.parse_matches (g : Grammar) {tokens tokens' : List Token} (h : List.Forall₂ R.rel tokens tokens') :
    Alike (SyntaxError.Matches R) (Tree.Reworded R.rewording) (g.parse tokens) (g.parse tokens') := by
  rw [Grammar.parse, Grammar.parse, h.length_eq]
  by_cases hne : tokens = []
  · -- the parser stops before it asks for a token
    subst hne
    rw [List.forall₂_nil_left_iff.mp h]
    exact .ok .nil
  · exact g.declarationsFrom_matches .nil (Cursor.ofTokens_matches h hne)

end StackToolchain.Source
