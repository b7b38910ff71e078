import StackToolchain.Proofs.Source.Dispatch
import StackToolchain.Proofs.Source.Unparsing

/-! Parsing loses, doubles and reorders no token.
Every reader that gives a node has passed exactly the tokens that the node is written with. -/
namespace StackToolchain.Source

def Cursor.Passes (c : Cursor) (kinds : List TokenKind) (c' : Cursor) : Prop :=
  ∃ tokens : List Token, tokens.map Token.kind = kinds ∧ c = ⟨tokens ++ c'.rest, c'.endOffset⟩

namespace Cursor

variable {c c' : Cursor} {k : TokenKind} {kinds : List TokenKind}

namespace Passes

theorem refl (c : Cursor) : c.Passes [] c :=
  ⟨[], rfl, rfl⟩

theorem trans {c'' : Cursor} {more : List TokenKind} (h : c.Passes kinds c') (h' : c'.Passes more c'') :
    c.Passes (kinds ++ more) c'' := by
  obtain ⟨ts, rfl, rfl⟩ := h
  obtain ⟨us, rfl, rfl⟩ := h'
  exact ⟨ts ++ us, by simp, by simp⟩

theorem split {c'' : Cursor} {more : List TokenKind} (h : c.Passes (kinds ++ more) c'') :
    ∃ c', c.Passes kinds c' ∧ c'.Passes more c'' := by
  obtain ⟨ts, hk, rfl⟩ := h
  obtain ⟨us, vs, rfl, hus, hvs⟩ := List.map_eq_append_iff.mp hk
  exact ⟨⟨vs ++ c''.rest, c''.endOffset⟩, ⟨us, hus, by simp⟩, ⟨vs, hvs, rfl⟩⟩

theorem length (h : c.Passes kinds c') : c.rest.length = kinds.length + c'.rest.length := by
  obtain ⟨ts, rfl, rfl⟩ := h
  simp

theorem kind_eq (h : c.Passes (k :: kinds) c') : c.kind = k := by
  obtain ⟨ts, hk, rfl⟩ := h
  cases ts with
  | nil => simp at hk
  | cons t ts => exact (List.cons.inj hk).1

theorem tail (h : c.Passes (k :: kinds) c') : c.next.Passes kinds c' := by
  obtain ⟨ts, hk, rfl⟩ := h
  cases ts with
  | nil => simp at hk
  | cons t ts => exact ⟨ts, (List.cons.inj hk).2, rfl⟩

/-- A bound on the tokens left goes down with every token passed. -/
theorem rest_le {limit : Nat} (h : c.Passes (k :: kinds) c') (hlimit : c.rest.length ≤ limit + 1) :
    c'.rest.length ≤ limit := by
  have := h.length
  rw [List.length_cons] at this
  omega

theorem eq_of_nil (h : c.Passes [] c') : c = c' := by
  obtain ⟨ts, hk, rfl⟩ := h
  obtain rfl := List.map_eq_nil_iff.mp hk
  rfl

end Passes

theorem length_next_le (c : Cursor) : c.next.rest.length ≤ c.rest.length := by
  simp [next]

/-- The next token of a cursor is one that is there, unless it is the end. -/
theorem passes_next (h : c.kind = k) (hk : k ≠ .endOfInput) : c.Passes [k] c.next := by
  obtain ⟨rest, last⟩ := c
  cases rest with
  | nil => exact absurd h.symm hk
  | cons t rest =>
    subst h
    exact ⟨[t], rfl, rfl⟩

private theorem Passes.cons {c'' : Cursor} (h : c.kind = k) (hk : k ≠ .endOfInput) (h' : c.next.Passes kinds c'') :
    c.Passes (k :: kinds) c'' :=
  (passes_next h hk).trans h'

private theorem expect_passes {p : Punct} {message : String} (h : c.expect p message = .ok c') :
    c.Passes [.punct p] c' := by
  obtain ⟨hk, rfl⟩ := expect_eq_ok.mp h
  exact passes_next hk (by simp)

theorem kind_of_operator? {op : AluOp} (h : c.operator? = some op) : c.kind = .punct (operatorMark op) := by
  unfold operator? at h
  split at h
  · rename_i p hp
    rw [hp, operatorMark_of_operator? h]
  · cases h

end Cursor

open Cursor (Passes passes_next expect_passes expect_eq_ok expectName_eq_ok)

def ReadsExprs (rule : Rule Expr) : Prop :=
  ∀ {c e c'}, rule c = .ok (some (e, c')) → c.Passes e.unparse c' ∧ e.leftFolded = true

/-- Where a rule gives an expression, it is a single value, and the rule has passed its tokens. -/
def ReadsValues (rule : Rule Expr) : Prop :=
  ∀ {c e c'}, rule c = .ok (some (e, c')) → c.Passes e.unparse c' ∧ e.leftFolded = true ∧ e.isBinary = false

section
variable {value expr : Rule Expr} {limit : Nat} {c c' : Cursor}

/-- Joining appends to the tokens of the left operand. -/
theorem joinOperands_passes (hv : ReadsValues value) {left e : Expr} (hl : left.leftFolded = true)
    (h : joinOperands value limit left c = .ok (e, c')) :
    ∃ more, e.unparse = left.unparse ++ more ∧ c.Passes more c' ∧ e.leftFolded = true := by
  induction limit generalizing left c with
  | zero =>
    cases h
    exact ⟨[], by simp, .refl _, hl⟩
  | succ limit ih =>
    rw [joinOperands] at h
    cases ho : c.operator? with
    | none =>
      rw [ho] at h
      cases h
      exact ⟨[], by simp, .refl _, hl⟩
    | some op =>
      rw [ho] at h
      obtain ⟨⟨right, after⟩, hr, h⟩ := bind_eq_ok.mp h
      obtain ⟨hpass, hfold, hbin⟩ := hv (require_eq_ok.mp hr)
      have hk : c.kind = .punct (operatorMark op) := Cursor.kind_of_operator? ho
      obtain ⟨more, he, hmore, hf⟩ := ih (by simp [Expr.leftFolded, hl, hfold, hbin]) h
      refine ⟨.punct (operatorMark op) :: (right.unparse ++ more), ?_, .cons hk (by simp) (hpass.trans hmore), hf⟩
      simp [he, Expr.unparse]

private theorem expressionOf_reads (hv : ReadsValues value) : ReadsExprs (expressionOf value limit) := by
  intro c e c' h
  obtain ⟨outcome, ho, h⟩ := bind_eq_ok.mp h
  cases outcome with
  | none => cases h
  | some left =>
    obtain ⟨⟨e, c'⟩, hj, h⟩ := bind_eq_ok.mp h
    cases h
    obtain ⟨hpass, hfold, -⟩ := hv ho
    obtain ⟨more, he, hmore, hf⟩ := joinOperands_passes hv hfold hj
    exact ⟨he ▸ hpass.trans hmore, hf⟩

private theorem argumentsFrom_passes (hx : ReadsExprs expr) {done args : List Expr}
    (h : argumentsFrom expr limit done c = .ok (args, c')) :
    ∃ first rest, args = done.reverse ++ first :: rest ∧
      c.Passes (commaSeparated (Expr.unparseEach (first :: rest))) c' ∧
        Expr.allLeftFolded (first :: rest) = true := by
  induction limit generalizing done c with
  | zero => cases h
  | succ limit ih =>
    obtain ⟨⟨arg, after⟩, ha, h⟩ := bind_eq_ok.mp h
    obtain ⟨hpass, hfold⟩ := hx (require_eq_ok.mp ha)
    dsimp only at h
    split at h
    · rename_i hcomma
      obtain ⟨second, rest, rfl, hmore, hf⟩ := ih h
      refine ⟨arg, second :: rest, by simp, ?_, by simp_all [Expr.allLeftFolded]⟩
      have := hpass.trans (.cons (Cursor.atPunct_iff.mp hcomma) (by simp) hmore)
      simpa [commaSeparated, Expr.unparseEach] using this
    · cases h
      exact ⟨arg, [], by simp, by simpa [commaSeparated, Expr.unparseEach] using hpass,
        by simpa [Expr.allLeftFolded] using hfold⟩

private theorem arguments_passes (hx : ReadsExprs expr) {args : List Expr}
    (h : arguments expr limit c = .ok (args, c')) :
    c.Passes (commaSeparated (Expr.unparseEach args)) c' ∧ Expr.allLeftFolded args = true := by
  unfold arguments at h
  split at h
  · cases h
    exact ⟨.refl _, rfl⟩
  · obtain ⟨first, rest, rfl, hpass, hf⟩ := argumentsFrom_passes hx h
    exact ⟨by simpa using hpass, by simpa using hf⟩

end

theorem value_reads (limit : Nat) : ReadsValues (Grammar.standard.value limit) := by
  induction limit with
  | zero =>
    intro c e c' h
    cases h
  | succ limit ih =>
    intro c e c' h
    rw [value_succ] at h
    cases hk : c.kind with
    | number n =>
      rw [hk] at h
      cases h
      exact ⟨passes_next hk (by simp), rfl, rfl⟩
    | ident name =>
      simp only [hk] at h
      split at h
      · rename_i hp
        obtain ⟨_, h, he⟩ := bind_pure_eq_ok.mp h
        cases he
        obtain ⟨⟨args, mid⟩, ha, h⟩ := bind_eq_ok.mp h
        obtain ⟨after, hr, h⟩ := bind_pure_eq_ok.mp h
        cases h
        obtain ⟨hpass, hf⟩ := arguments_passes (expressionOf_reads ih) ha
        have hargs := hpass.trans (expect_passes hr)
        exact ⟨.cons hk (by simp) (.cons (Cursor.atPunct_iff.mp hp) (by simp) hargs), hf, rfl⟩
      · cases h
        exact ⟨passes_next hk (by simp), rfl, rfl⟩
    | punct p =>
      by_cases hp : p = .lparen
      · subst hp
        simp only [hk] at h
        obtain ⟨_, h, he⟩ := bind_pure_eq_ok.mp h
        cases he
        obtain ⟨⟨inner, mid⟩, hi, h⟩ := bind_eq_ok.mp h
        obtain ⟨after, hr, h⟩ := bind_pure_eq_ok.mp h
        cases h
        obtain ⟨hpass, hf⟩ := expressionOf_reads ih (require_eq_ok.mp hi)
        exact ⟨.cons hk (by simp) (hpass.trans (expect_passes hr)), hf, rfl⟩
      · cases p <;> simp_all
    | keyword k => simp [hk] at h
    | endOfInput => simp [hk] at h

theorem expression_reads (limit : Nat) : ReadsExprs (Grammar.standard.expression limit) :=
  expressionOf_reads (value_reads limit)

section
variable {expr : Rule Expr} {stmt : Reader Stmt} {limit : Nat} {c c' : Cursor}

private theorem initializer_passes (hx : ReadsExprs expr) {init : Option Expr}
    (h : initializer expr c = .ok (init, c')) :
    c.Passes (unparseOption [.punct .assign] init) c' ∧ init.all Expr.leftFolded = true := by
  unfold initializer at h
  split at h
  · rename_i hp
    obtain ⟨⟨value, after⟩, hv, h⟩ := bind_eq_ok.mp h
    cases h
    obtain ⟨hpass, hf⟩ := hx (require_eq_ok.mp hv)
    exact ⟨.cons (Cursor.atPunct_iff.mp hp) (by simp) hpass, hf⟩
  · cases h
    exact ⟨.refl _, rfl⟩

private theorem optional_passes (hx : ReadsExprs expr) {value : Option Expr} (h : optional expr c = .ok (value, c')) :
    c.Passes (unparseOption [] value) c' ∧ value.all Expr.leftFolded = true := by
  obtain ⟨outcome, ho, h⟩ := bind_eq_ok.mp h
  cases outcome with
  | none =>
    cases h
    exact ⟨.refl _, rfl⟩
  | some result =>
    cases h
    exact hx ho

def ReadsStmts (stmt : Reader Stmt) : Prop :=
  ∀ {c s c'}, stmt c = .ok (s, c') → c.Passes s.unparse c' ∧ s.leftFolded = true

/-- A test and the statement that depends on it. -/
theorem tested_passes (hx : ReadsExprs expr) (hs : ReadsStmts stmt) {node : Expr → Stmt → Stmt} {message : String}
    {s : Stmt}
    (h : (do
      let (test, after) ← require expr c message
      let (body, after) ← stmt after
      return (node test body, after)) = .ok (s, c')) :
    ∃ test body, s = node test body ∧ c.Passes (test.unparse ++ body.unparse) c' ∧
      test.leftFolded = true ∧ body.leftFolded = true := by
  obtain ⟨⟨test, mid⟩, ht, h⟩ := bind_eq_ok.mp h
  obtain ⟨⟨body, after⟩, hb, h⟩ := bind_pure_eq_ok.mp h
  cases h
  obtain ⟨htest, hf⟩ := hx (require_eq_ok.mp ht)
  obtain ⟨hbody, hfb⟩ := hs hb
  exact ⟨test, body, rfl, htest.trans hbody, hf, hfb⟩

private theorem statementsFrom_passes (hs : ReadsStmts stmt) {done body : List Stmt}
    (h : statementsFrom stmt limit done c = .ok (body, c')) :
    ∃ rest, body = done.reverse ++ rest ∧ c.Passes (Stmt.unparseAll rest ++ [.punct .rbrace]) c' ∧
      Stmt.allLeftFolded rest = true := by
  induction limit generalizing done c with
  | zero => cases h
  | succ limit ih =>
    rw [statementsFrom] at h
    split at h
    · rename_i hk
      cases h
      exact ⟨[], by simp, passes_next hk (by simp), rfl⟩
    · cases h
    · obtain ⟨⟨s, after⟩, hfirst, h⟩ := bind_eq_ok.mp h
      obtain ⟨hpass, hf⟩ := hs hfirst
      obtain ⟨rest, rfl, hrest, hfs⟩ := ih h
      refine ⟨s :: rest, by simp, ?_, by simp [Stmt.allLeftFolded, hf, hfs]⟩
      simpa [Stmt.unparseAll] using hpass.trans hrest

end

private theorem expressionStatement_passes {limit : Nat} {c c' : Cursor} {s : Stmt}
    (h : expressionStatement limit c = .ok (s, c')) : c.Passes s.unparse c' ∧ s.leftFolded = true := by
  obtain ⟨⟨value, mid⟩, hv, h⟩ := bind_eq_ok.mp h
  obtain ⟨after, hr, h⟩ := bind_pure_eq_ok.mp h
  cases h
  obtain ⟨hpass, hf⟩ := expression_reads limit (require_eq_ok.mp hv)
  exact ⟨hpass.trans (expect_passes hr), hf⟩

theorem statement_reads (limit : Nat) : ReadsStmts (Grammar.standard.statement limit) := by
  induction limit with
  | zero =>
    intro c s c' h
    rw [statement_zero, noStatement] at h
    split at h <;> cases h
  | succ limit ih =>
    intro c s c' h
    have hx : ReadsExprs (Grammar.standard.expression (limit + 1)) := expression_reads (limit + 1)
    rw [statement_succ] at h
    cases hk : c.kind with
    | number n =>
      rw [hk] at h
      exact expressionStatement_passes h
    | endOfInput =>
      rw [hk] at h
      cases h
    | ident name =>
      simp only [hk] at h
      split at h
      · rename_i hp
        obtain ⟨⟨value, mid⟩, hv, h⟩ := bind_eq_ok.mp h
        obtain ⟨after, hr, h⟩ := bind_pure_eq_ok.mp h
        cases h
        obtain ⟨hpass, hf⟩ := hx (require_eq_ok.mp hv)
        have hvalue := hpass.trans (expect_passes hr)
        exact ⟨.cons hk (by simp) (.cons (Cursor.atPunct_iff.mp hp) (by simp) hvalue), hf⟩
      · exact expressionStatement_passes h
    | punct p =>
      by_cases hl : p = .lbrace
      · subst hl
        simp only [hk] at h
        obtain ⟨⟨body, after⟩, hb, h⟩ := bind_pure_eq_ok.mp h
        cases h
        obtain ⟨rest, rfl, hpass, hf⟩ := statementsFrom_passes ih hb
        exact ⟨.cons hk (by simp) hpass, hf⟩
      · by_cases hr : p = .rbrace
        · subst hr
          rw [hk] at h
          cases h
        · have hs : expressionStatement (limit + 1) c = .ok (s, c') := by
            rw [← h, hk]
            cases p <;> first | rfl | contradiction
          exact expressionStatement_passes hs
    | keyword k =>
      rw [hk] at h
      cases k with
      | func => exact expressionStatement_passes h
      | cond =>
        obtain ⟨test, body, rfl, hpass, hf⟩ := tested_passes hx ih h
        exact ⟨.cons hk (by simp) hpass, by simpa [Stmt.leftFolded] using hf⟩
      | loop =>
        obtain ⟨test, body, rfl, hpass, hf⟩ := tested_passes hx ih h
        exact ⟨.cons hk (by simp) hpass, by simpa [Stmt.leftFolded] using hf⟩
      | var =>
        obtain ⟨⟨name, mid⟩, hn, h⟩ := bind_eq_ok.mp h
        obtain ⟨⟨init, last⟩, hi, h⟩ := bind_eq_ok.mp h
        obtain ⟨after, hr, h⟩ := bind_pure_eq_ok.mp h
        cases h
        obtain ⟨hname, rfl⟩ := expectName_eq_ok.mp hn
        obtain ⟨hinit, hf⟩ := initializer_passes hx hi
        exact ⟨.cons hk (by simp) (.cons hname (by simp) (hinit.trans (expect_passes hr))), hf⟩
      | ret =>
        obtain ⟨⟨value, mid⟩, hv, h⟩ := bind_eq_ok.mp h
        obtain ⟨after, hr, h⟩ := bind_pure_eq_ok.mp h
        cases h
        obtain ⟨hvalue, hf⟩ := optional_passes hx hv
        exact ⟨.cons hk (by simp) (hvalue.trans (expect_passes hr)), hf⟩
      | write =>
        obtain ⟨⟨addr, mid⟩, ha, h⟩ := bind_eq_ok.mp h
        obtain ⟨⟨value, last⟩, hv, h⟩ := bind_eq_ok.mp h
        obtain ⟨after, hr, h⟩ := bind_pure_eq_ok.mp h
        cases h
        obtain ⟨haddr, hfa⟩ := hx (require_eq_ok.mp ha)
        obtain ⟨hvalue, hfv⟩ := hx (require_eq_ok.mp hv)
        exact ⟨.cons hk (by simp) (haddr.trans (hvalue.trans (expect_passes hr))),
          by simp [Stmt.leftFolded, hfa, hfv]⟩

section
variable {limit : Nat} {c c' : Cursor}

private theorem parametersFrom_passes {done params : List String} (h : parametersFrom limit done c = .ok (params, c')) :
    ∃ first rest, params = done.reverse ++ first :: rest ∧
      c.Passes (commaSeparated ((first :: rest).map fun param => [.ident param])) c' := by
  induction limit generalizing done c with
  | zero => cases h
  | succ limit ih =>
    obtain ⟨⟨name, after⟩, hn, h⟩ := bind_eq_ok.mp h
    obtain ⟨hname, rfl⟩ := expectName_eq_ok.mp hn
    dsimp only at h
    split at h
    · rename_i hcomma
      obtain ⟨second, rest, rfl, hmore⟩ := ih h
      refine ⟨name, second :: rest, by simp, .cons hname (by simp) ?_⟩
      exact .cons (Cursor.atPunct_iff.mp hcomma) (by simp) hmore
    · cases h
      exact ⟨name, [], by simp, passes_next hname (by simp)⟩

private theorem parameters_passes {params : List String} (h : parameters limit c = .ok (params, c')) :
    c.Passes (commaSeparated (params.map fun param => [.ident param])) c' := by
  unfold parameters at h
  split at h
  · cases h
    exact .refl _
  · obtain ⟨first, rest, rfl, hpass⟩ := parametersFrom_passes h
    simpa using hpass

theorem functionDeclaration_passes {decl : Decl} (hk : c.kind = .keyword .func)
    (h : functionDeclaration limit c = .ok (decl, c')) : c.Passes decl.unparse c' ∧ decl.leftFolded = true := by
  obtain ⟨⟨name, c₁⟩, hn, h⟩ := bind_eq_ok.mp h
  obtain ⟨hname, rfl⟩ := expectName_eq_ok.mp hn
  obtain ⟨c₂, hl, h⟩ := bind_eq_ok.mp h
  obtain ⟨⟨params, c₃⟩, hp, h⟩ := bind_eq_ok.mp h
  obtain ⟨c₄, hr, h⟩ := bind_eq_ok.mp h
  obtain ⟨c₅, ho, h⟩ := bind_eq_ok.mp h
  obtain ⟨⟨body, after⟩, hb, h⟩ := bind_pure_eq_ok.mp h
  cases h
  obtain ⟨_, rfl, hbody, hf⟩ := statementsFrom_passes (statement_reads limit) hb
  have hhead := (parameters_passes hp).trans ((expect_passes hr).trans ((expect_passes ho).trans hbody))
  exact ⟨.cons hk (by simp) (.cons hname (by simp) ((expect_passes hl).trans hhead)), hf⟩

theorem globalDeclaration_passes {decl : Decl} (hk : c.kind = .keyword .var)
    (h : globalDeclaration c = .ok (decl, c')) : c.Passes decl.unparse c' ∧ decl.leftFolded = true := by
  obtain ⟨⟨name, c₁⟩, hn, h⟩ := bind_eq_ok.mp h
  obtain ⟨hname, rfl⟩ := expectName_eq_ok.mp hn
  obtain ⟨after, hr, h⟩ := bind_pure_eq_ok.mp h
  cases h
  exact ⟨.cons hk (by simp) (.cons hname (by simp) (expect_passes hr)), rfl⟩

/-- A declaration takes its first word, and so at least one token. -/
theorem declaration_rest_le {decl : Decl} (h : c.Passes decl.unparse c') (hlimit : c.rest.length ≤ limit + 1) :
    c'.rest.length ≤ limit := by
  cases decl with
  | func => exact h.rest_le hlimit
  | global => exact h.rest_le hlimit

/-- Reading declarations stops at the end and nowhere else, if there are not more tokens than the bound. -/
theorem declarationsFrom_passes {done : List Decl} {tree : Tree} (hlimit : c.rest.length ≤ limit)
    (h : Grammar.standard.declarationsFrom limit done c = .ok tree) :
    ∃ rest c', tree = done.reverse ++ rest ∧ c.Passes (Tree.unparse rest) c' ∧ c'.kind = .endOfInput ∧
      Tree.leftFolded rest = true := by
  induction limit generalizing done c with
  | zero =>
    cases h
    have hrest : c.rest = [] := List.length_eq_zero_iff.mp (Nat.le_zero.mp hlimit)
    exact ⟨[], c, by simp, .refl _, by simp [Cursor.kind, Cursor.peek, hrest], rfl⟩
  | succ limit ih =>
    have hstep : ∀ {decl after}, c.Passes (Decl.unparse decl) after ∧ decl.leftFolded = true →
        Grammar.standard.declarationsFrom limit (decl :: done) after = .ok tree →
          ∃ rest c', tree = done.reverse ++ rest ∧ c.Passes (Tree.unparse rest) c' ∧ c'.kind = .endOfInput ∧
            Tree.leftFolded rest = true := by
      rintro decl after ⟨hdecl, hf⟩ h
      obtain ⟨rest, last, rfl, hrest, hend, hfs⟩ := ih (declaration_rest_le hdecl hlimit) h
      refine ⟨decl :: rest, last, by simp, hdecl.trans hrest, hend, ?_⟩
      simpa [Tree.leftFolded, hf] using hfs
    rw [declarationsFrom_succ] at h
    cases hk : c.kind with
    | endOfInput =>
      rw [hk] at h
      cases h
      exact ⟨[], c, by simp, .refl _, hk, rfl⟩
    | keyword k =>
      rw [hk] at h
      cases k with
      | func =>
        obtain ⟨⟨decl, after⟩, hd, h⟩ := bind_eq_ok.mp h
        exact hstep (functionDeclaration_passes hk hd) h
      | var =>
        obtain ⟨⟨decl, after⟩, hd, h⟩ := bind_eq_ok.mp h
        exact hstep (globalDeclaration_passes hk hd) h
      | _ => cases h
    | _ =>
      rw [hk] at h
      cases h

end

theorem parse_passes {tokens : List Token} {tree : Tree} (h : Grammar.standard.parse tokens = .ok tree) :
    ∃ c', (Cursor.ofTokens tokens 0).Passes (Tree.unparse tree) c' ∧ c'.kind = .endOfInput ∧
      Tree.leftFolded tree = true := by
  obtain ⟨_, c', rfl, hpass, hend, hf⟩ := declarationsFrom_passes (by simp [Cursor.ofTokens]) h
  exact ⟨c', hpass, hend, hf⟩

/-- A tree that parsing gives is written with the tokens before the end, all of them and in their order, and its
operations join to the left. -/
theorem parse_reads_every_token {tokens : List Token} {tree : Tree} (h : Grammar.standard.parse tokens = .ok tree) :
    Tree.unparse tree = (tokens.map Token.kind).takeWhile (· ≠ .endOfInput) ∧ Tree.leftFolded tree = true := by
  obtain ⟨c', ⟨passed, hkinds, hc⟩, hend, hf⟩ := parse_passes h
  refine ⟨?_, hf⟩
  have htokens : tokens = passed ++ c'.rest := (Cursor.mk.inj hc).1
  have hpassed : ∀ k ∈ Tree.unparse tree, decide (k ≠ .endOfInput) = true := by
    intro k hk
    rw [decide_eq_true_eq]
    rintro rfl
    exact Tree.endOfInput_not_mem_unparse tree hk
  rw [htokens, List.map_append, hkinds, List.takeWhile_append_of_pos hpassed]
  -- what was not passed is empty or begins with the end
  cases hr : c'.rest with
  | nil => simp
  | cons t ts =>
    have : t.kind = .endOfInput := by simpa [Cursor.kind, Cursor.peek, hr] using hend
    simp [this]

def returnTokens : List Token :=
  [⟨.keyword .func, 0⟩, ⟨.ident "f", 5⟩, ⟨.punct .lparen, 6⟩, ⟨.ident "a", 7⟩, ⟨.punct .rparen, 8⟩,
    ⟨.punct .lbrace, 10⟩, ⟨.keyword .ret, 12⟩, ⟨.ident "a", 19⟩, ⟨.punct .minus, 21⟩, ⟨.number 1, 23⟩,
    ⟨.punct .star, 25⟩, ⟨.punct .lparen, 27⟩, ⟨.number 2, 28⟩, ⟨.punct .rparen, 29⟩, ⟨.punct .semicolon, 30⟩,
    ⟨.punct .rbrace, 32⟩, ⟨.endOfInput, 33⟩, ⟨.punct .comma, 33⟩]

theorem parse_reads_every_return_token :
    ∃ tree, Grammar.standard.parse returnTokens = .ok tree ∧
      Tree.unparse tree = (returnTokens.map Token.kind).takeWhile (· ≠ .endOfInput) ∧ Tree.leftFolded tree = true :=
  ⟨_, rfl, parse_reads_every_token rfl⟩

end StackToolchain.Source
