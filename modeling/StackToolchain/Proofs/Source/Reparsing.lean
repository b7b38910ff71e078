import StackToolchain.Proofs.Source.ParsedTokens

/-! Parsing gives every tree back from its tokens.
A tree whose operations join to the left, and in which no name meets a parenthesis that it is not called with, is
read back from the tokens it is written with, whatever their offsets. -/
namespace StackToolchain.Source

open Cursor (Passes passes_next expect_eq_ok expectName_eq_ok)

private theorem mayMeet_of_ne {before : List TokenKind} {k : TokenKind} (h : k ≠ .punct .lparen) :
    mayMeet before [k] = true := by
  unfold mayMeet
  split
  · rename_i hk
    exact absurd (by simpa using hk) h
  · rfl

private theorem mayMeet_append {front back after : List TokenKind} (h : back ≠ []) :
    mayMeet (front ++ back) after = mayMeet back after := by
  unfold mayMeet
  rw [List.getLast?_append_of_ne_nil front h]

private theorem Expr.head_unparse (e : Expr) : ∃ k rest, e.unparse = k :: rest ∧ k.beginsValue = true := by
  cases e with
  | binary left op right =>
    obtain ⟨k, rest, h, hk⟩ := left.head_unparse
    exact ⟨k, rest ++ .punct (operatorMark op) :: right.unparse, by simp [Expr.unparse, h], hk⟩
  | _ => exact ⟨_, _, rfl, rfl⟩

private theorem Expr.unparse_ne_nil (e : Expr) : e.unparse ≠ [] := by
  obtain ⟨k, rest, h, -⟩ := e.head_unparse
  simp [h]

def TokenKind.beginsStatement : TokenKind → Bool
  | .punct .lbrace => true
  | .keyword _ => true
  | k => k.beginsValue

private theorem TokenKind.isOperator_of_beginsStatement {k : TokenKind} (h : k.beginsStatement = true) :
    k.isOperator = false := by
  cases k with
  | punct p => cases p <;> first | rfl | cases h
  | _ => rfl

theorem Stmt.head_unparse (s : Stmt) : ∃ k rest, s.unparse = k :: rest ∧ k.beginsStatement = true := by
  cases s with
  | expr value =>
    obtain ⟨k, rest, h, hk⟩ := value.head_unparse
    refine ⟨k, rest ++ [.punct .semicolon], by simp [Stmt.unparse, h], ?_⟩
    unfold TokenKind.beginsStatement
    split
    · rfl
    · rfl
    · exact hk
  | _ => exact ⟨_, _, rfl, rfl⟩

/-- A bound on the tokens left is not zero where a token is passed. -/
theorem Cursor.Passes.bound {c c' : Cursor} {k : TokenKind} {kinds : List TokenKind} {limit : Nat}
    (h : c.Passes (k :: kinds) c') (hlimit : c.rest.length ≤ limit) :
    ∃ m, limit = m + 1 ∧ c.next.rest.length ≤ m := by
  have hlen := h.length
  have hlen' := h.tail.length
  rw [List.length_cons] at hlen
  exact ⟨limit - 1, by omega, by omega⟩

/-- The tokens of an expression are read as the expression, up to its offsets, and joining goes on behind them. -/
def Expr.ReadBack (e : Expr) : Prop :=
  ∀ ⦃limit c c'⦄, c.Passes e.unparse c' → c.rest.length ≤ limit → mayMeet e.unparse [c'.kind] = true →
    ∃ e' n, c'.rest.length ≤ n ∧ e'.unplaced = e.unplaced ∧
      Grammar.standard.expression limit c = some <$> joinOperands (Grammar.standard.value limit) n e' c'

def Expr.ValueBack (e : Expr) : Prop :=
  ∀ ⦃limit c c'⦄, c.Passes e.unparse c' → c.rest.length ≤ limit → mayMeet e.unparse [c'.kind] = true →
    ∃ e', e'.unplaced = e.unplaced ∧ Grammar.standard.value limit c = .ok (some (e', c'))

private theorem joinOperands_of_none {value : Rule Expr} {limit : Nat} {left : Expr} {c : Cursor}
    (h : c.operator? = none) : joinOperands value limit left c = .ok (left, c) := by
  cases limit with
  | zero => rfl
  | succ limit => rw [joinOperands, h]

namespace Expr.ReadBack

variable {e : Expr}

private theorem of_value (h : e.ValueBack) : e.ReadBack := by
  intro limit c c' hpass hlimit hmeet
  obtain ⟨e', he, hv⟩ := h hpass hlimit hmeet
  have := hpass.length
  refine ⟨e', limit, by omega, he, ?_⟩
  rw [Grammar.expression, expressionOf, hv]
  rfl

/-- The left operand is read first, and joining goes on with the operator. -/
theorem binary {left right : Expr} {op : AluOp} (hl : left.ReadBack) (hr : right.ValueBack) :
    (Expr.binary left op right).ReadBack := by
  intro limit c c' hpass hlimit hmeet
  obtain ⟨mid, hleft, hrest⟩ := hpass.split
  have hk : mid.kind = .punct (operatorMark op) := hrest.kind_eq
  have hlparen : mid.kind ≠ .punct .lparen := by
    rw [hk]
    cases op <;> simp [operatorMark]
  obtain ⟨left', n, hn, hle, hx⟩ := hl hleft hlimit (mayMeet_of_ne hlparen)
  have hright := hrest.tail
  have hlen := hleft.length
  have hlen' := hrest.length
  have hlen'' := hright.length
  rw [List.length_cons] at hlen'
  rw [Expr.unparse, mayMeet_append (by simp), ← List.singleton_append, mayMeet_append right.unparse_ne_nil] at hmeet
  obtain ⟨right', hre, hv⟩ := hr hright (show _ ≤ limit by omega) hmeet
  obtain ⟨m, rfl⟩ : ∃ m, n = m + 1 := ⟨n - 1, by omega⟩
  refine ⟨.binary left' op right', m, by omega, by simp [Expr.unplaced, hle, hre], ?_⟩
  have ho : mid.operator? = some op := by simp [Cursor.operator?, hk]
  rw [hx, joinOperands, ho]
  simp only [require_eq_ok.mpr hv, bind, Except.bind]

/-- Where no operator follows, the expression is what is read. -/
theorem expression (h : e.ReadBack) {limit : Nat} {c c' : Cursor} (hpass : c.Passes e.unparse c')
    (hlimit : c.rest.length ≤ limit) (hmeet : mayMeet e.unparse [c'.kind] = true) (ho : c'.kind.isOperator = false) :
    ∃ e', e'.unplaced = e.unplaced ∧ Grammar.standard.expression limit c = .ok (some (e', c')) := by
  obtain ⟨e', n, -, he, hx⟩ := h hpass hlimit hmeet
  rw [joinOperands_of_none (Cursor.operator?_eq_none ho)] at hx
  exact ⟨e', he, hx⟩

/-- Before a mark that is neither an operator nor a left parenthesis. -/
theorem before (h : e.ReadBack) {limit : Nat} {c c' : Cursor} {p : Punct} (hpass : c.Passes e.unparse c')
    (hlimit : c.rest.length ≤ limit) (hk : c'.kind = .punct p) (hp : p ≠ .lparen) (ho : p.operator? = none) :
    ∃ e', e'.unplaced = e.unplaced ∧ Grammar.standard.expression limit c = .ok (some (e', c')) :=
  h.expression hpass hlimit (mayMeet_of_ne (by simp [hk, hp])) (by simp [hk, TokenKind.isOperator, ho])

end Expr.ReadBack

private theorem argumentsFrom_back {first : Expr} {rest : List Expr} (hx : ∀ e ∈ first :: rest, e.ReadBack)
    {limit n : Nat} {c c' : Cursor} (done : List Expr)
    (hpass : c.Passes (commaSeparated (Expr.unparseEach (first :: rest))) c') (hk : c'.kind = .punct .rparen)
    (hlimit : c.rest.length ≤ limit) (hn : c.rest.length ≤ n) :
    ∃ args, Expr.allUnplaced args = Expr.allUnplaced (first :: rest) ∧
      argumentsFrom (Grammar.standard.expression limit) n done c = .ok (done.reverse ++ args, c') := by
  induction rest generalizing first n done c with
  | nil =>
    simp only [Expr.unparseEach, commaSeparated, List.flatMap_nil, List.append_nil] at hpass
    obtain ⟨arg, ha, hread⟩ := (hx first (by simp)).before hpass hlimit hk (by simp) rfl
    obtain ⟨m, rfl⟩ : ∃ m, n = m + 1 := by
      have := hpass.length
      have := List.length_pos_of_ne_nil first.unparse_ne_nil
      exact ⟨n - 1, by omega⟩
    refine ⟨[arg], by simp [Expr.allUnplaced, ha], ?_⟩
    rw [argumentsFrom, require_eq_ok.mpr hread]
    simp [bind, Except.bind, pure, Except.pure, hk]
  | cons second rest ih =>
    have hsplit : c.Passes (first.unparse ++ .punct .comma :: commaSeparated (Expr.unparseEach (second :: rest))) c' :=
      by simpa [Expr.unparseEach, commaSeparated] using hpass
    obtain ⟨mid, hfirst, hmore⟩ := hsplit.split
    obtain ⟨arg, ha, hread⟩ := (hx first (by simp)).before hfirst hlimit hmore.kind_eq (by simp) rfl
    have hlen := hfirst.length
    have hlen' := hmore.length
    have hlen'' := hmore.tail.length
    rw [List.length_cons] at hlen'
    obtain ⟨m, rfl⟩ : ∃ m, n = m + 1 := ⟨n - 1, by omega⟩
    obtain ⟨args, has, hargs⟩ := ih (fun e he => hx e (by simp [he])) (arg :: done) hmore.tail
      (by omega) (show _ ≤ m by omega)
    refine ⟨arg :: args, by rw [Expr.allUnplaced, Expr.allUnplaced, ha, has], ?_⟩
    rw [argumentsFrom, require_eq_ok.mpr hread]
    simp [bind, Except.bind, hmore.kind_eq, hargs]

private theorem arguments_back {args : List Expr} (hx : ∀ e ∈ args, e.ReadBack) {limit n : Nat} {c c' : Cursor}
    (hpass : c.Passes (commaSeparated (Expr.unparseEach args)) c') (hk : c'.kind = .punct .rparen)
    (hlimit : c.rest.length ≤ limit) (hn : c.rest.length ≤ n) :
    ∃ args', Expr.allUnplaced args' = Expr.allUnplaced args ∧
      arguments (Grammar.standard.expression limit) n c = .ok (args', c') := by
  unfold arguments
  cases args with
  | nil =>
    obtain rfl := hpass.eq_of_nil
    exact ⟨[], rfl, by simp [hk]⟩
  | cons first rest =>
    obtain ⟨args', ha, hargs⟩ := argumentsFrom_back hx [] hpass hk hlimit hn
    have hne : ¬ c.atPunct .rparen = true := by
      obtain ⟨k, ks, hfirst, hbegin⟩ := first.head_unparse
      rw [Expr.unparseEach, commaSeparated, hfirst] at hpass
      rw [Cursor.atPunct_iff, hpass.kind_eq]
      rintro rfl
      cases hbegin
    exact ⟨args', ha, by simpa [hne] using hargs⟩

namespace Expr.ValueBack

private theorem int (n : UInt16) : (Expr.int n).ValueBack := by
  intro limit c c' hpass hlimit _
  obtain ⟨m, rfl, -⟩ := hpass.bound hlimit
  obtain rfl := hpass.tail.eq_of_nil
  exact ⟨.int n, rfl, by rw [value_succ, hpass.kind_eq]⟩

private theorem var (name : String) (offset : Nat) : (Expr.var name offset).ValueBack := by
  intro limit c c' hpass hlimit hmeet
  obtain ⟨m, rfl, -⟩ := hpass.bound hlimit
  obtain rfl := hpass.tail.eq_of_nil
  have hp : ¬ c.next.atPunct .lparen = true := by
    rw [Cursor.atPunct_iff]
    intro hk
    simp [mayMeet, Expr.unparse, hk] at hmeet
  refine ⟨.var name c.peek.offset, rfl, ?_⟩
  rw [value_succ, hpass.kind_eq]
  simp only [hp]
  rfl

private theorem call {name : String} {args : List Expr} {offset : Nat} (hx : ∀ e ∈ args, e.ReadBack) :
    (Expr.call name args offset).ValueBack := by
  intro limit c c' hpass hlimit _
  obtain ⟨m, rfl, hm⟩ := hpass.bound hlimit
  obtain ⟨_, hlen⟩ := hpass.tail.bound hm
  obtain ⟨mid, hargs, hclose⟩ := hpass.tail.tail.split
  obtain rfl := hclose.tail.eq_of_nil
  obtain ⟨args', ha, hread⟩ := arguments_back hx hargs hclose.kind_eq (show _ ≤ m by omega) (show _ ≤ m by omega)
  refine ⟨.call name args' c.peek.offset, by simp [Expr.unplaced, ha], ?_⟩
  rw [value_succ, hpass.kind_eq]
  simp only [Cursor.atPunct_iff.mpr hpass.tail.kind_eq, if_true, hread,
    expect_eq_ok.mpr ⟨hclose.kind_eq, rfl⟩, bind, Except.bind]
  rfl

private theorem paren {inner : Expr} (hx : inner.ReadBack) : (Expr.paren inner).ValueBack := by
  intro limit c c' hpass hlimit _
  obtain ⟨m, rfl, hm⟩ := hpass.bound hlimit
  obtain ⟨mid, hinner, hclose⟩ := hpass.tail.split
  obtain rfl := hclose.tail.eq_of_nil
  obtain ⟨inner', hi, hread⟩ := hx.before hinner hm hclose.kind_eq (by simp) rfl
  refine ⟨.paren inner', by simp [Expr.unplaced, hi], ?_⟩
  rw [value_succ, hpass.kind_eq]
  simp only [require_eq_ok.mpr hread, expect_eq_ok.mpr ⟨hclose.kind_eq, rfl⟩, bind, Except.bind]
  rfl

end Expr.ValueBack

mutual

/-- Expressions that join to the left are read back, and single values as such. -/
theorem Expr.readBack : (e : Expr) → e.leftFolded = true → e.ReadBack ∧ (e.isBinary = false → e.ValueBack)
  | .int n, _ => ⟨.of_value (.int n), fun _ => .int n⟩
  | .var name offset, _ => ⟨.of_value (.var name offset), fun _ => .var name offset⟩
  | .call name args offset, h => by
    have hx : (Expr.call name args offset).ValueBack := .call (Expr.allReadBack args h)
    exact ⟨.of_value hx, fun _ => hx⟩
  | .paren inner, h => by
    have hx : (Expr.paren inner).ValueBack := .paren (inner.readBack h).1
    exact ⟨.of_value hx, fun _ => hx⟩
  | .binary left op right, h => by
    simp only [Expr.leftFolded, Bool.and_eq_true, Bool.not_eq_true'] at h
    exact ⟨.binary (left.readBack h.1.1).1 ((right.readBack h.1.2).2 h.2), fun hb => by cases hb⟩

theorem Expr.allReadBack : (args : List Expr) → Expr.allLeftFolded args = true → ∀ e ∈ args, e.ReadBack
  | [], _ => by simp
  | e :: rest, h => by
    simp only [Expr.allLeftFolded, Bool.and_eq_true] at h
    simpa using ⟨(e.readBack h.1).1, Expr.allReadBack rest h.2⟩

end

def Stmt.ReadBack (s : Stmt) : Prop :=
  ∀ ⦃limit c c'⦄, c.Passes s.unparse c' → c.rest.length ≤ limit →
    ∃ s', s'.unplaced = s.unplaced ∧ Grammar.standard.statement limit c = .ok (s', c')

/-- Where an expression and a semicolon can be read, no other statement begins. An assignment does not, because its
expression would end before the sign. -/
theorem statement_of_expression {limit : Nat} {c c' : Cursor} {e : Expr}
    (h : Grammar.standard.expression (limit + 1) c = .ok (some (e, c'))) (hk' : c'.kind = .punct .semicolon) :
    Grammar.standard.statement (limit + 1) c = .ok (.expr e, c'.next) := by
  have hs : expressionStatement (limit + 1) c = .ok (.expr e, c'.next) := by
    rw [expressionStatement, require_eq_ok.mpr h]
    simp only [bind, Except.bind, expect_eq_ok.mpr ⟨hk', rfl⟩]
    rfl
  have hv : Grammar.standard.value (limit + 1) c ≠ .ok none := by
    intro hv
    rw [expression_of_value_none hv] at h
    cases h
  rw [value_succ] at hv
  rw [statement_succ]
  cases hk : c.kind with
  | number n => exact hs
  | ident name =>
    by_cases hp : c.next.atPunct .assign = true
    · have hread : Grammar.standard.value (limit + 1) c = .ok (some (.var name c.peek.offset, c.next)) := by
        rw [value_succ, hk]
        simp [Cursor.atPunct_iff.mp hp]
      have hstop : c.next.operator? = none := by simp [Cursor.operator?, Cursor.atPunct_iff.mp hp, Punct.operator?]
      rw [Grammar.expression, expressionOf, hread] at h
      simp only [bind, Except.bind, joinOperands_of_none hstop, pure, Except.pure, Except.ok.injEq, Option.some.injEq,
        Prod.mk.injEq] at h
      rw [← h.2, Cursor.atPunct_iff.mp hp] at hk'
      cases hk'
    · exact (if_neg hp).trans hs
  | punct p =>
    rw [hk] at hv
    cases p with
    | lparen => exact hs
    | _ => exact absurd rfl hv
  | keyword k =>
    rw [hk] at hv
    exact absurd rfl hv
  | endOfInput =>
    rw [hk] at hv
    exact absurd rfl hv

/-- Statements in a row are read back up to the brace behind them. -/
theorem statementsFrom_back {body : List Stmt} (hs : ∀ s ∈ body, s.ReadBack) {limit n : Nat} {c c' : Cursor}
    (done : List Stmt) (hpass : c.Passes (Stmt.unparseAll body ++ [.punct .rbrace]) c')
    (hlimit : c.rest.length ≤ limit) (hn : c.rest.length ≤ n) :
    ∃ body', Stmt.allUnplaced body' = Stmt.allUnplaced body ∧
      statementsFrom (Grammar.standard.statement limit) n done c = .ok (done.reverse ++ body', c') := by
  induction body generalizing n done c with
  | nil =>
    obtain ⟨m, rfl, -⟩ := hpass.bound hn
    obtain rfl := hpass.tail.eq_of_nil
    exact ⟨[], rfl, by simp [statementsFrom, hpass.kind_eq]⟩
  | cons s rest ih =>
    rw [Stmt.unparseAll, List.append_assoc] at hpass
    obtain ⟨mid, hfirst, hrest⟩ := hpass.split
    obtain ⟨s', hs', hread⟩ := hs s (by simp) hfirst hlimit
    obtain ⟨k, ks, hhead, hbegin⟩ := s.head_unparse
    rw [hhead] at hfirst
    obtain ⟨m, rfl, hm⟩ := hfirst.bound hn
    have hlen := hfirst.length
    have hlen' := hfirst.tail.length
    obtain ⟨rest', hr, hmore⟩ :=
      ih (fun t ht => hs t (by simp [ht])) (s' :: done) hrest (by omega) (show _ ≤ m by omega)
    refine ⟨s' :: rest', by rw [Stmt.allUnplaced, Stmt.allUnplaced, hs', hr], ?_⟩
    rw [statementsFrom, hfirst.kind_eq]
    split
    · cases hbegin
    · cases hbegin
    · simp [hread, bind, Except.bind, hmore]

namespace Stmt.ReadBack

private theorem scope {body : List Stmt} (hs : ∀ s ∈ body, s.ReadBack) : (Stmt.scope body).ReadBack := by
  intro limit c c' hpass hlimit
  obtain ⟨m, rfl, hm⟩ := hpass.bound hlimit
  obtain ⟨body', hb, hread⟩ := statementsFrom_back hs [] hpass.tail hm hm
  refine ⟨.scope body', by simp [Stmt.unplaced, hb], ?_⟩
  rw [statement_succ, hpass.kind_eq]
  simp [hread, bind, Except.bind, pure, Except.pure]

private theorem expr {value : Expr} (hx : value.ReadBack) : (Stmt.expr value).ReadBack := by
  intro limit c c' hpass hlimit
  obtain ⟨mid, hvalue, hclose⟩ := Cursor.Passes.split (show c.Passes (value.unparse ++ _) c' from hpass)
  obtain rfl := hclose.tail.eq_of_nil
  obtain ⟨value', hv, hread⟩ := hx.before hvalue hlimit hclose.kind_eq (by simp) rfl
  obtain ⟨k, ks, hhead, -⟩ := value.head_unparse
  rw [hhead] at hvalue
  obtain ⟨m, rfl, -⟩ := hvalue.bound hlimit
  exact ⟨.expr value', by simp [Stmt.unplaced, hv], statement_of_expression hread hclose.kind_eq⟩

private theorem assign {name : String} {value : Expr} {offset : Nat} (hx : value.ReadBack) :
    (Stmt.assign name value offset).ReadBack := by
  intro limit c c' hpass hlimit
  obtain ⟨m, rfl, hm⟩ := hpass.bound hlimit
  obtain ⟨_, hlen⟩ := hpass.tail.bound hm
  obtain ⟨mid, hvalue, hclose⟩ := hpass.tail.tail.split
  obtain rfl := hclose.tail.eq_of_nil
  obtain ⟨value', hv, hread⟩ := hx.before hvalue (show _ ≤ m + 1 by omega) hclose.kind_eq (by simp) rfl
  refine ⟨.assign name value' c.peek.offset, by simp [Stmt.unplaced, hv], ?_⟩
  rw [statement_succ, hpass.kind_eq]
  simp only [Cursor.atPunct_iff.mpr hpass.tail.kind_eq, if_true, require_eq_ok.mpr hread,
    expect_eq_ok.mpr ⟨hclose.kind_eq, rfl⟩, bind, Except.bind]
  rfl

private theorem var_none (name : String) (offset : Nat) : (Stmt.var name none offset).ReadBack := by
  intro limit c c' hpass hlimit
  obtain ⟨m, rfl, -⟩ := hpass.bound hlimit
  have hclose : c.next.next.Passes [.punct .semicolon] c' := hpass.tail.tail
  obtain rfl := hclose.tail.eq_of_nil
  refine ⟨.var name none c.next.peek.offset, rfl, ?_⟩
  rw [statement_succ, hpass.kind_eq]
  simp only [expectName_eq_ok.mpr ⟨hpass.tail.kind_eq, rfl⟩, initializer, Cursor.atPunct_iff, hclose.kind_eq,
    expect_eq_ok.mpr ⟨hclose.kind_eq, rfl⟩, bind, Except.bind, TokenKind.punct.injEq, reduceCtorEq, if_false]
  rfl

private theorem var_some {name : String} {value : Expr} {offset : Nat} (hx : value.ReadBack) :
    (Stmt.var name (some value) offset).ReadBack := by
  intro limit c c' hpass hlimit
  obtain ⟨m, rfl, hm⟩ := hpass.bound hlimit
  have hinit : c.next.next.Passes (.punct .assign :: (value.unparse ++ [.punct .semicolon])) c' := hpass.tail.tail
  obtain ⟨_, hlen⟩ := hpass.tail.bound hm
  obtain ⟨_, hlen'⟩ := hinit.bound (show _ ≤ m by omega)
  obtain ⟨mid, hvalue, hclose⟩ := hinit.tail.split
  obtain rfl := hclose.tail.eq_of_nil
  obtain ⟨value', hv, hread⟩ := hx.before hvalue (show _ ≤ m + 1 by omega) hclose.kind_eq (by simp) rfl
  refine ⟨.var name (some value') c.next.peek.offset, by simp [Stmt.unplaced, hv], ?_⟩
  rw [statement_succ, hpass.kind_eq]
  simp only [expectName_eq_ok.mpr ⟨hpass.tail.kind_eq, rfl⟩, initializer, Cursor.atPunct_iff, hinit.kind_eq, if_true,
    require_eq_ok.mpr hread, expect_eq_ok.mpr ⟨hclose.kind_eq, rfl⟩, bind, Except.bind, pure, Except.pure]

private theorem ret_none : (Stmt.ret none).ReadBack := by
  intro limit c c' hpass hlimit
  obtain ⟨m, rfl, -⟩ := hpass.bound hlimit
  have hclose : c.next.Passes [.punct .semicolon] c' := hpass.tail
  obtain rfl := hclose.tail.eq_of_nil
  have hnone : Grammar.standard.expression (m + 1) c.next = .ok none :=
    expression_of_value_none (by rw [value_succ, hclose.kind_eq])
  refine ⟨.ret none, rfl, ?_⟩
  rw [statement_succ, hpass.kind_eq]
  simp only [optional, hnone, bind, Except.bind, pure, Except.pure, expect_eq_ok.mpr ⟨hclose.kind_eq, rfl⟩]

private theorem ret_some {value : Expr} (hx : value.ReadBack) : (Stmt.ret (some value)).ReadBack := by
  intro limit c c' hpass hlimit
  obtain ⟨m, rfl, hm⟩ := hpass.bound hlimit
  obtain ⟨mid, hvalue, hclose⟩ := Cursor.Passes.split (show c.next.Passes (value.unparse ++ _) c' from hpass.tail)
  obtain rfl := hclose.tail.eq_of_nil
  obtain ⟨value', hv, hread⟩ := hx.before hvalue (show _ ≤ m + 1 by omega) hclose.kind_eq (by simp) rfl
  refine ⟨.ret (some value'), by simp [Stmt.unplaced, hv], ?_⟩
  rw [statement_succ, hpass.kind_eq]
  simp only [optional, hread, bind, Except.bind, pure, Except.pure, expect_eq_ok.mpr ⟨hclose.kind_eq, rfl⟩]

private theorem write {addr value : Expr} (ha : addr.ReadBack) (hx : value.ReadBack)
    (hmeet : mayMeet addr.unparse value.unparse = true) : (Stmt.write addr value).ReadBack := by
  intro limit c c' hpass hlimit
  obtain ⟨m, rfl, hm⟩ := hpass.bound hlimit
  obtain ⟨mid, haddr, hrest⟩ := hpass.tail.split
  obtain ⟨last, hvalue, hclose⟩ := hrest.split
  obtain rfl := hclose.tail.eq_of_nil
  have hlen := haddr.length
  obtain ⟨value', hv, hreadv⟩ := hx.before hvalue (show _ ≤ m + 1 by omega) hclose.kind_eq (by simp) rfl
  obtain ⟨k, ks, hhead, hbegin⟩ := value.head_unparse
  rw [hhead] at hvalue hmeet
  obtain ⟨addr', ha', hreada⟩ := ha.expression haddr (show _ ≤ m + 1 by omega) (by rwa [hvalue.kind_eq])
    (by rw [hvalue.kind_eq]; exact TokenKind.isOperator_of_beginsValue hbegin)
  refine ⟨.write addr' value', by simp [Stmt.unplaced, ha', hv], ?_⟩
  rw [statement_succ, hpass.kind_eq]
  simp only [require_eq_ok.mpr hreada, require_eq_ok.mpr hreadv, bind, Except.bind,
    expect_eq_ok.mpr ⟨hclose.kind_eq, rfl⟩]
  rfl

/-- A test and the statement behind it, as they are read after `if` and `while`. -/
theorem tested {test : Expr} {body : Stmt} (ht : test.ReadBack) (hb : body.ReadBack)
    (hmeet : mayMeet test.unparse body.unparse = true) {m : Nat} {c c' : Cursor} (message : String)
    (hpass : c.Passes (test.unparse ++ body.unparse) c') (hm : c.rest.length ≤ m) :
    ∃ test' mid body', test'.unplaced = test.unplaced ∧ body'.unplaced = body.unplaced ∧
      require (Grammar.standard.expression (m + 1)) c message = .ok (test', mid) ∧
        Grammar.standard.statement m mid = .ok (body', c') := by
  obtain ⟨mid, htest, hbody⟩ := hpass.split
  have hlen := htest.length
  obtain ⟨body', hb', hreadb⟩ := hb hbody (show _ ≤ m by omega)
  obtain ⟨k, ks, hhead, hbegin⟩ := body.head_unparse
  rw [hhead] at hbody hmeet
  obtain ⟨test', ht', hreadt⟩ := ht.expression htest (show _ ≤ m + 1 by omega) (by rwa [hbody.kind_eq])
    (by rw [hbody.kind_eq]; exact TokenKind.isOperator_of_beginsStatement hbegin)
  exact ⟨test', mid, body', ht', hb', require_eq_ok.mpr hreadt, hreadb⟩

private theorem cond {test : Expr} {body : Stmt} (ht : test.ReadBack) (hb : body.ReadBack)
    (hmeet : mayMeet test.unparse body.unparse = true) : (Stmt.cond test body).ReadBack := by
  intro limit c c' hpass hlimit
  obtain ⟨m, rfl, hm⟩ := hpass.bound hlimit
  obtain ⟨test', mid, body', ht', hb', hreadt, hreadb⟩ :=
    tested ht hb hmeet "expected condition after 'if'" hpass.tail hm
  refine ⟨.cond test' body', by simp [Stmt.unplaced, ht', hb'], ?_⟩
  rw [statement_succ, hpass.kind_eq]
  simp only [hreadt, hreadb, bind, Except.bind]
  rfl

private theorem loop {test : Expr} {body : Stmt} (ht : test.ReadBack) (hb : body.ReadBack)
    (hmeet : mayMeet test.unparse body.unparse = true) : (Stmt.loop test body).ReadBack := by
  intro limit c c' hpass hlimit
  obtain ⟨m, rfl, hm⟩ := hpass.bound hlimit
  obtain ⟨test', mid, body', ht', hb', hreadt, hreadb⟩ :=
    tested ht hb hmeet "expected condition after 'while'" hpass.tail hm
  refine ⟨.loop test' body', by simp [Stmt.unplaced, ht', hb'], ?_⟩
  rw [statement_succ, hpass.kind_eq]
  simp only [hreadt, hreadb, bind, Except.bind]
  rfl

end Stmt.ReadBack

mutual

private theorem Stmt.readBack : (s : Stmt) → s.leftFolded = true → s.unmerged = true → s.ReadBack
  | .scope body, hf, hu => .scope (Stmt.allReadBack body hf hu)
  | .var name none offset, _, _ => .var_none name offset
  | .var name (some value) offset, hf, _ => .var_some (value.readBack hf).1
  | .assign name value offset, hf, _ => .assign (value.readBack hf).1
  | .write addr value, hf, hu => by
    simp only [Stmt.leftFolded, Bool.and_eq_true] at hf
    exact .write (addr.readBack hf.1).1 (value.readBack hf.2).1 hu
  | .ret none, _, _ => .ret_none
  | .ret (some value), hf, _ => .ret_some (value.readBack hf).1
  | .cond test body, hf, hu => by
    simp only [Stmt.leftFolded, Stmt.unmerged, Bool.and_eq_true] at hf hu
    exact .cond (test.readBack hf.1).1 (body.readBack hf.2 hu.2) hu.1
  | .loop test body, hf, hu => by
    simp only [Stmt.leftFolded, Stmt.unmerged, Bool.and_eq_true] at hf hu
    exact .loop (test.readBack hf.1).1 (body.readBack hf.2 hu.2) hu.1
  | .expr value, hf, _ => .expr (value.readBack hf).1

private theorem Stmt.allReadBack : (body : List Stmt) → Stmt.allLeftFolded body = true → Stmt.allUnmerged body = true →
    ∀ s ∈ body, s.ReadBack
  | [], _, _ => by simp
  | s :: rest, hf, hu => by
    simp only [Stmt.allLeftFolded, Stmt.allUnmerged, Bool.and_eq_true] at hf hu
    simpa using ⟨s.readBack hf.1 hu.1, Stmt.allReadBack rest hf.2 hu.2⟩

end

private theorem parametersFrom_back {first : String} {rest : List String} {n : Nat} {c c' : Cursor} (done : List String)
    (hpass : c.Passes (commaSeparated ((first :: rest).map fun param => [.ident param])) c')
    (hk : c'.kind = .punct .rparen) (hn : c.rest.length ≤ n) :
    parametersFrom n done c = .ok (done.reverse ++ first :: rest, c') := by
  induction rest generalizing first n done c with
  | nil =>
    have hname : c.Passes [.ident first] c' := hpass
    obtain ⟨m, rfl, -⟩ := hname.bound hn
    obtain rfl := hname.tail.eq_of_nil
    rw [parametersFrom, expectName_eq_ok.mpr ⟨hname.kind_eq, rfl⟩]
    simp [bind, Except.bind, pure, Except.pure, hk]
  | cons second rest ih =>
    have hname : c.Passes (.ident first :: .punct .comma ::
        commaSeparated ((second :: rest).map fun param => [.ident param])) c' := hpass
    obtain ⟨m, rfl, hm⟩ := hname.bound hn
    obtain ⟨_, hlen⟩ := hname.tail.bound hm
    rw [parametersFrom, expectName_eq_ok.mpr ⟨hname.kind_eq, rfl⟩]
    simp [bind, Except.bind, hname.tail.kind_eq, ih (first :: done) hname.tail.tail (show _ ≤ m by omega)]

private theorem parameters_back {params : List String} {n : Nat} {c c' : Cursor}
    (hpass : c.Passes (commaSeparated (params.map fun param => [.ident param])) c')
    (hk : c'.kind = .punct .rparen) (hn : c.rest.length ≤ n) : parameters n c = .ok (params, c') := by
  unfold parameters
  cases params with
  | nil =>
    obtain rfl := hpass.eq_of_nil
    simp [hk]
  | cons first rest =>
    have hne : ¬ c.atPunct .rparen = true := by
      have hname : c.Passes (.ident first :: _) c' := hpass
      simp [hname.kind_eq]
    simpa [hne] using parametersFrom_back [] hpass hk hn

private theorem globalDeclaration_back {name : String} {c c' : Cursor}
    (hpass : c.Passes (Decl.unparse (.global name)) c') : globalDeclaration c = .ok (.global name, c') := by
  have hclose : c.next.next.Passes [.punct .semicolon] c' := hpass.tail.tail
  obtain rfl := hclose.tail.eq_of_nil
  simp [globalDeclaration, expectName_eq_ok.mpr ⟨hpass.tail.kind_eq, rfl⟩, expect_eq_ok.mpr ⟨hclose.kind_eq, rfl⟩,
    bind, Except.bind, pure, Except.pure]

private theorem functionDeclaration_back {name : String} {params : List String} {body : List Stmt} {offset limit : Nat}
    {c c' : Cursor} (hf : Stmt.allLeftFolded body = true) (hu : Stmt.allUnmerged body = true)
    (hpass : c.Passes (Decl.unparse (.func name params body offset)) c') (hnext : c.next.rest.length ≤ limit) :
    ∃ body', Stmt.allUnplaced body' = Stmt.allUnplaced body ∧
      functionDeclaration limit c = .ok (.func name params body' c.next.peek.offset, c') := by
  have hopen := hpass.tail.tail
  obtain ⟨inner, hparams, hclose⟩ := hopen.tail.split
  have hstart : c.next.next.next.rest.length ≤ limit := by
    have := Cursor.length_next_le c.next
    have := Cursor.length_next_le c.next.next
    omega
  have hbody : inner.next.next.rest.length ≤ limit := by
    have := hparams.length
    have := Cursor.length_next_le inner
    have := Cursor.length_next_le inner.next
    omega
  obtain ⟨body', hb, hread⟩ := statementsFrom_back (Stmt.allReadBack body hf hu) [] hclose.tail.tail hbody hbody
  refine ⟨body', hb, ?_⟩
  simp [functionDeclaration, expectName_eq_ok.mpr ⟨hpass.tail.kind_eq, rfl⟩, expect_eq_ok.mpr ⟨hopen.kind_eq, rfl⟩,
    parameters_back hparams hclose.kind_eq hstart, expect_eq_ok.mpr ⟨hclose.kind_eq, rfl⟩,
    expect_eq_ok.mpr ⟨hclose.tail.kind_eq, rfl⟩, hread, bind, Except.bind, pure, Except.pure]

private theorem declarationsFrom_back {tree : Tree} {limit : Nat} {c c' : Cursor} (done : List Decl)
    (hf : Tree.leftFolded tree = true) (hu : Tree.unmerged tree = true) (hpass : c.Passes (Tree.unparse tree) c')
    (hend : c'.kind = .endOfInput) (hlimit : c.rest.length ≤ limit) :
    ∃ tree', Tree.unplaced tree' = Tree.unplaced tree ∧
      Grammar.standard.declarationsFrom limit done c = .ok (done.reverse ++ tree') := by
  induction tree generalizing limit done c with
  | nil =>
    obtain rfl := hpass.eq_of_nil
    refine ⟨[], rfl, ?_⟩
    cases limit with
    | zero => simp [Grammar.declarationsFrom]
    | succ limit => simp [declarationsFrom_succ, hend]
  | cons decl rest ih =>
    simp only [Tree.leftFolded, Tree.unmerged, List.all_cons, Bool.and_eq_true] at hf hu
    obtain ⟨mid, hdecl, hrest⟩ := Cursor.Passes.split (show c.Passes (decl.unparse ++ Tree.unparse rest) c' from hpass)
    cases decl with
    | global name =>
      obtain ⟨m, rfl, -⟩ := hdecl.bound hlimit
      obtain ⟨rest', hr, hmore⟩ := ih (.global name :: done) hf.2 hu.2 hrest (hdecl.rest_le hlimit)
      refine ⟨.global name :: rest', by simpa [Tree.unplaced, Decl.unplaced] using hr, ?_⟩
      rw [declarationsFrom_succ, hdecl.kind_eq]
      simp only [globalDeclaration_back hdecl, bind, Except.bind]
      simpa using hmore
    | func name params body offset =>
      obtain ⟨m, rfl, hm⟩ := hdecl.bound hlimit
      obtain ⟨body', hb, hread⟩ := functionDeclaration_back hf.1 hu.1 hdecl hm
      obtain ⟨rest', hr, hmore⟩ := ih (.func name params body' c.next.peek.offset :: done) hf.2 hu.2 hrest
        (hdecl.rest_le hlimit)
      refine ⟨.func name params body' c.next.peek.offset :: rest', ?_, ?_⟩
      · simpa [Tree.unplaced, Decl.unplaced, hb] using hr
      · rw [declarationsFrom_succ, hdecl.kind_eq]
        simp only [hread, bind, Except.bind]
        simpa using hmore

/-- A tree whose operations join to the left and whose names meet no parenthesis is read back from its tokens and the
end. -/
theorem parse_gives_tree_back {tree : Tree} {tokens : List Token} (hf : Tree.leftFolded tree = true)
    (hu : Tree.unmerged tree = true) (h : tokens.map Token.kind = Tree.unparse tree ++ [.endOfInput]) :
    ∃ tree', Grammar.standard.parse tokens = .ok tree' ∧ Tree.unplaced tree' = Tree.unplaced tree := by
  obtain ⟨passed, last, rfl, hpassed, hlast⟩ := List.map_eq_append_iff.mp h
  obtain ⟨t, rfl, ht⟩ := List.map_eq_singleton_iff.mp hlast
  have hpass : (Cursor.ofTokens (passed ++ [t]) 0).Passes (Tree.unparse tree) ⟨[t], t.offset⟩ :=
    ⟨passed, hpassed, by simp [Cursor.ofTokens]⟩
  have hlimit : (Cursor.ofTokens (passed ++ [t]) 0).rest.length ≤ (passed ++ [t]).length := le_rfl
  obtain ⟨tree', htree, hparse⟩ := declarationsFrom_back [] hf hu hpass ht hlimit
  exact ⟨tree', hparse, htree⟩

/-- The tree of `var g; func f(a, b) { if a while (b) (f(1, a - 2)); write 5 (a); return; }`. -/
def parenthesizedTree : Tree :=
  [.global "g",
    .func "f" ["a", "b"]
      [.cond (.var "a" 0) (.loop (.paren (.var "b" 0))
        (.expr (.paren (.call "f" [.int 1, .binary (.var "a" 0) .sub (.int 2)] 0)))),
        .write (.int 5) (.paren (.var "a" 0)), .ret none] 0]

theorem parse_gives_nested_tree_back :
    Tree.leftFolded parenthesizedTree = true ∧ Tree.unmerged parenthesizedTree = true ∧
      ∃ tree,
        Grammar.standard.parse ((Tree.unparse parenthesizedTree ++ [TokenKind.endOfInput]).map (⟨·, 7⟩)) = .ok tree ∧
        Tree.unplaced tree = Tree.unplaced parenthesizedTree :=
  ⟨rfl, rfl, parse_gives_tree_back rfl rfl (by simp [Function.comp_def])⟩

end StackToolchain.Source
