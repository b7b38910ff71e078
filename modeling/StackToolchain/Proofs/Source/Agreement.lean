import StackToolchain.Proofs.Source.Recognizer
import StackToolchain.Proofs.Source.Reparsing

/-! The parser and the token machine agree.
Every reader of the parser does what the machine does with the parts that it reads: agreement is stated over all
stacks below, so that it passes from the steps of a reader to the reader. -/
namespace StackToolchain.Source

/-- Reading at a cursor agrees with parts on top of the stack: it refuses the tokens that they refuse, and where it
gives a node, the rest of the tokens is for the parts below. -/
def Follows {α : Type} (c : Cursor) (parts : List Pending) (x : Except SyntaxError (Read α)) : Prop :=
  ∀ stack, c.judge (parts ++ stack) = x >>= fun r => r.2.judge stack

namespace Follows

variable {α β : Type} {c : Cursor} {part : Pending} {parts more : List Pending} {message : String}
  {x : Except SyntaxError (Read α)}

private theorem done (a : α) (c : Cursor) : Follows c [] (.ok (a, c)) :=
  fun _ => rfl

private theorem refuse (h : part.respond c.kind = .refuse message) :
    Follows (α := α) c (part :: parts) (c.fail message) :=
  fun _ => judge_refuse h

private theorem congr {other : Pending} (h : part.respond c.kind = other.respond c.kind)
    (hx : Follows c (other :: parts) x) : Follows c (part :: parts) x :=
  fun stack => (judge_congr h).trans (hx stack)

private theorem leave (h : part.respond c.kind = .leave) (hx : Follows c parts x) : Follows c (part :: parts) x :=
  fun stack => (judge_leave h).trans (hx stack)

private theorem enter (h : part.respond c.kind = .enter parts) (hk : c.kind ≠ .endOfInput)
    (hx : Follows c.next (parts ++ more) x) : Follows c (part :: more) x := by
  intro stack
  rw [List.cons_append, judge_enter h hk, ← hx stack, List.append_assoc]

/-- Parts one after the other are read one after the other. -/
theorem bind {f : Read α → Except SyntaxError (Read β)} (h : Follows c parts x)
    (hf : ∀ r, x = .ok r → Follows r.2 more (f r)) : Follows c (parts ++ more) (x >>= f) := by
  intro stack
  rw [List.append_assoc, h]
  cases x with
  | error e => rfl
  | ok r => exact hf r rfl stack

private theorem map (f : α → β) (h : Follows c parts x) :
    Follows c parts (do let (a, after) ← x; return (f a, after)) := by
  rw [← List.append_nil parts]
  exact h.bind fun r _ => done (f r.1) r.2

private theorem mark {p : Punct} {f : Cursor → Except SyntaxError (Read α)}
    (hf : c.kind = .punct p → Follows c.next parts (f c.next)) :
    Follows c (.mark p message :: parts) (c.expect p message >>= f) := by
  unfold Cursor.expect
  by_cases hp : c.kind = .punct p
  · rw [if_pos (Cursor.atPunct_iff.mpr hp)]
    exact enter (show _ = Response.enter [] by simp [Pending.respond, hp]) (by simp [hp]) (hf hp)
  · rw [if_neg (mt Cursor.atPunct_iff.mp hp)]
    exact refuse (by simp [Pending.respond, hp])

private theorem name : Follows c [.name message] (c.expectName message) := by
  unfold Cursor.expectName
  cases hk : c.kind with
  | ident name => exact enter (by rw [hk]; rfl) (by simp [hk]) (done name c.next)
  | _ => exact refuse (by rw [hk]; rfl)

end Follows

private theorem Cursor.Passes.length_le {c c' : Cursor} {kinds : List TokenKind} (h : c.Passes kinds c') :
    c'.rest.length ≤ c.rest.length := by
  have := h.length
  omega

theorem Cursor.kind_of_length {c : Cursor} (h : c.rest.length ≤ 0) : c.kind = .endOfInput := by
  have hrest : c.rest = [] := List.length_eq_zero_iff.mp (Nat.le_zero.mp h)
  simp [Cursor.kind, Cursor.peek, hrest]

private theorem Cursor.length_next {c : Cursor} {limit : Nat} (hk : c.kind ≠ .endOfInput)
    (h : c.rest.length ≤ limit + 1) : c.next.rest.length ≤ limit :=
  (Cursor.passes_next rfl hk).rest_le h

section
variable {α : Type} {limit : Nat} {c : Cursor} {message : String}

/-- Where a token is for a value with parts behind it, it is for a value and then for those parts. -/
theorem Follows.of_valueResponse {part : Pending} {behind more : List Pending} {x : Except SyntaxError (Read α)}
    (h : part.respond c.kind = valueResponse message behind c.kind)
    (hx : Follows c (.value message :: (behind ++ more)) x) : Follows c (part :: more) x := by
  intro stack
  refine (judge_of_advance_eq ?_).trans (hx stack)
  rw [List.cons_append, List.cons_append, List.append_assoc, advance, advance, h, Pending.respond]
  cases c.kind with
  | punct p => cases p <;> rfl
  | _ => rfl

private theorem require_of_commit {rule : Rule α} {x : Except SyntaxError (Read α)} (h : rule c = some <$> x) :
    require rule c message = x := by
  rw [require, h]
  cases x <;> rfl

private theorem require_expression (limit : Nat) (c : Cursor) (message : String) :
    require (Grammar.standard.expression limit) c message =
      require (Grammar.standard.value limit) c message >>= fun r =>
        joinOperands (Grammar.standard.value limit) limit r.1 r.2 := by
  rw [require, require, Grammar.expression, expressionOf]
  cases Grammar.standard.value limit c with
  | error e => rfl
  | ok outcome =>
    cases outcome with
    | none => rfl
    | some r =>
      obtain ⟨left, after⟩ := r
      simp only [bind, Except.bind]
      cases joinOperands (Grammar.standard.value limit) limit left after <;> rfl

/-- Joining agrees with the part for operators if values agree with theirs. -/
theorem joinOperands_follows {value : Rule Expr} (hv : ReadsValues value)
    (hf : ∀ ⦃c message⦄, c.rest.length ≤ limit → Follows c [.value message] (require value c message))
    (left : Expr) {bound : Nat} (hc : c.rest.length ≤ limit) (hb : c.rest.length ≤ bound) :
    Follows c [.operands] (joinOperands value bound left c) := by
  induction bound generalizing left c with
  | zero => exact .leave (by rw [Cursor.kind_of_length hb]; rfl) (.done left c)
  | succ bound ih =>
    rw [joinOperands]
    cases ho : c.operator? with
    | none =>
      refine .leave ?_ (.done left c)
      unfold Cursor.operator? at ho
      split at ho
      · rename_i p hp
        simp [hp, Pending.respond, ho]
      · cases hk : c.kind <;> first | rfl | exact absurd hk (by simp_all)
    | some op =>
      have hk : c.kind = .punct (operatorMark op) := Cursor.kind_of_operator? ho
      have hk' : c.kind ≠ .endOfInput := by simp [hk]
      have hnext : c.next.rest.length ≤ bound := Cursor.length_next hk' hb
      refine .enter (by simp only [hk, Pending.respond, operator?_operatorMark]; rfl) hk' ?_
      refine (hf ((Cursor.length_next_le c).trans hc)).bind ?_
      rintro ⟨right, after⟩ hr
      have hle := (hv (require_eq_ok.mp hr)).1.length_le
      exact ih _ (hle.trans ((Cursor.length_next_le c).trans hc)) (hle.trans hnext)

/-- Values agree with their part, and so do the expressions that they are joined to. -/
theorem expression_follows_of_value
    (hf : ∀ ⦃c message⦄, c.rest.length ≤ limit →
      Follows c [.value message] (require (Grammar.standard.value limit) c message))
    (hc : c.rest.length ≤ limit) :
    Follows c [.value message, .operands] (require (Grammar.standard.expression limit) c message) := by
  rw [require_expression]
  refine (hf hc).bind ?_
  rintro ⟨left, after⟩ hr
  have hle := (value_reads limit (require_eq_ok.mp hr)).1.length_le
  exact joinOperands_follows (value_reads limit) hf left (hle.trans hc) (hle.trans hc)

/-- Arguments and the parenthesis behind them. -/
theorem argumentsFrom_follows {expr : Rule Expr} (hx : ReadsExprs expr)
    (hf : ∀ ⦃c message⦄, c.rest.length ≤ limit → Follows c [.value message, .operands] (require expr c message))
    (node : List Expr → Expr) (done : List Expr) {bound : Nat} (hc : c.rest.length ≤ limit)
    (hb : c.rest.length ≤ bound) :
    Follows c [.value "expected argument expression", .operands, .moreArguments] (do
      let (args, after) ← argumentsFrom expr bound done c
      let after ← after.expect .rparen "expected ')' or ',' after argument"
      return (node args, after)) := by
  induction bound generalizing done c with
  | zero => exact .refuse (by rw [Cursor.kind_of_length hb]; rfl)
  | succ bound ih =>
    rw [argumentsFrom, bind_assoc]
    refine (hf hc).bind ?_
    rintro ⟨arg, after⟩ hr
    have hle := (hx (require_eq_ok.mp hr)).1.length_le
    dsimp only
    split
    · rename_i hcomma
      have hk := Cursor.atPunct_iff.mp hcomma
      refine .enter (by simp only [hk, Pending.respond, if_true]; rfl) (by simp [hk]) ?_
      have hnext := Cursor.length_next_le after
      exact ih (arg :: done) (by omega) (Cursor.length_next (by simp [hk]) (hle.trans hb))
    · rename_i hcomma
      have hk := mt Cursor.atPunct_iff.mpr hcomma
      exact .congr (by simp [Pending.respond, hk]) (.mark fun _ => .done _ _)

/-- The arguments of a call and the parenthesis behind them. -/
theorem arguments_follows {expr : Rule Expr} (hx : ReadsExprs expr)
    (hf : ∀ ⦃c message⦄, c.rest.length ≤ limit → Follows c [.value message, .operands] (require expr c message))
    (node : List Expr → Expr) (hc : c.rest.length ≤ limit) :
    Follows c [.arguments] (do
      let (args, after) ← arguments expr limit c
      let after ← after.expect .rparen "expected ')' or ',' after argument"
      return (node args, after)) := by
  unfold arguments
  split
  · rename_i hp
    have hk := Cursor.atPunct_iff.mp hp
    exact .congr (by simp [Pending.respond, hk]) (.mark fun _ => .done _ _)
  · rename_i hp
    have hk := mt Cursor.atPunct_iff.mpr hp
    exact .of_valueResponse (if_neg hk) (argumentsFrom_follows hx hf node [] hc hc)

private theorem value_follows (limit : Nat) ⦃c : Cursor⦄ ⦃message : String⦄ (hc : c.rest.length ≤ limit) :
    Follows c [.value message] (require (Grammar.standard.value limit) c message) := by
  induction limit generalizing c message with
  | zero => exact .refuse (by rw [Cursor.kind_of_length hc]; rfl)
  | succ limit ih =>
    have hx := @expression_follows_of_value limit
    cases hv : c.kind.beginsValue with
    | false =>
      rw [require, value_eq_none hv]
      exact .refuse (valueResponse_of_not_beginsValue hv message [])
    | true =>
      have hend : c.kind ≠ .endOfInput := by
        intro hk
        rw [hk] at hv
        cases hv
      have hnext := Cursor.length_next hend hc
      obtain ⟨n, hk⟩ | ⟨name, hk⟩ | hk := TokenKind.cases_of_beginsValue hv
      · have hr : require (Grammar.standard.value (limit + 1)) c message = .ok (.int n, c.next) :=
          require_eq_ok.mpr (by rw [value_succ, hk])
        rw [hr]
        exact .enter (by rw [hk]; rfl) hend (.done _ _)
      · refine .enter (by rw [hk]; rfl) hend ?_
        by_cases hp : c.next.atPunct .lparen = true
        · have hp' := Cursor.atPunct_iff.mp hp
          rw [require_of_commit (by rw [value_succ, hk]; exact if_pos hp)]
          refine .enter (by rw [hp']; rfl) (by simp [hp']) ?_
          exact arguments_follows (expression_reads limit) (fun _ _ h => hx ih h)
            (fun args => .call name args c.peek.offset) ((Cursor.length_next_le _).trans hnext)
        · have hr : require (Grammar.standard.value (limit + 1)) c message = .ok (.var name c.peek.offset, c.next) :=
            require_eq_ok.mpr (by rw [value_succ, hk]; exact if_neg hp)
          rw [hr]
          exact .leave (by simp [Pending.respond, mt Cursor.atPunct_iff.mpr hp]) (.done _ _)
      · rw [require_of_commit (by rw [value_succ, hk])]
        refine .enter (by rw [hk]; rfl) hend ?_
        exact (hx ih hnext).bind fun _ _ => .mark fun _ => .done _ _

private theorem expression_follows (hc : c.rest.length ≤ limit) :
    Follows c [.value message, .operands] (require (Grammar.standard.expression limit) c message) :=
  expression_follows_of_value (value_follows limit) hc

end

section
variable {α : Type} {limit : Nat} {c : Cursor}

private theorem expression_ne_none (hc : c.rest.length ≤ limit) (h : c.kind.beginsValue = true) :
    Grammar.standard.expression limit c ≠ .ok none := by
  intro hx
  have hv : Grammar.standard.value limit c = .ok none := by
    obtain ⟨outcome, hv, hx⟩ := bind_eq_ok.mp hx
    cases outcome with
    | none => exact hv
    | some r => exact nomatch (bind_pure_eq_ok.mp hx).choose_spec.2
  have hsome : ∀ x : Except SyntaxError (Read Expr), some <$> x ≠ .ok none := fun x hx => by cases x <;> cases hx
  cases limit with
  | zero =>
    rw [Cursor.kind_of_length hc] at h
    cases h
  | succ limit =>
    rw [value_succ] at hv
    obtain ⟨n, hk⟩ | ⟨name, hk⟩ | hk := TokenKind.cases_of_beginsValue h
    · simp [hk] at hv
    · simp only [hk] at hv
      split at hv
      · exact hsome _ hv
      · cases hv
    · simp only [hk] at hv
      exact hsome _ hv

private theorem initializer_follows (hc : c.rest.length ≤ limit) :
    Follows c [.initializer] (initializer (Grammar.standard.expression limit) c) := by
  unfold initializer
  split
  · rename_i hp
    have hk := Cursor.atPunct_iff.mp hp
    refine .enter (by simp only [hk, Pending.respond, if_true]; rfl) (by simp [hk]) ?_
    exact (expression_follows ((Cursor.length_next_le c).trans hc)).map some
  · rename_i hp
    exact .leave (by simp [Pending.respond, mt Cursor.atPunct_iff.mpr hp]) (.done _ _)

private theorem optional_eq_require {expr : Rule Expr} (h : expr c ≠ .ok none) (message : String) :
    optional expr c = do
      let (value, after) ← require expr c message
      return (some value, after) := by
  rw [optional, require]
  cases hx : expr c with
  | error e => rfl
  | ok outcome =>
    cases outcome with
    | none => exact absurd hx h
    | some r => rfl

private theorem optional_follows (hc : c.rest.length ≤ limit) :
    Follows c [.optional] (optional (Grammar.standard.expression limit) c) := by
  cases hv : c.kind.beginsValue with
  | false =>
    rw [optional, expression_of_value_none (value_eq_none hv)]
    exact .leave (by simp [Pending.respond, hv]) (.done _ _)
  | true =>
    rw [optional_eq_require (expression_ne_none hc hv) ""]
    exact .of_valueResponse (if_pos hv) ((expression_follows hc).map some)

private theorem expressionStatement_follows (hc : c.rest.length ≤ limit) :
    Follows c [.value "unrecognized statement", .operands, .mark .semicolon "expected ';'"]
      (expressionStatement limit c) :=
  (expression_follows hc).bind fun _ _ => .mark fun _ => .done _ _

private theorem Follows.of_statement {x : Except SyntaxError (Read α)} (h : c.kind ≠ .punct .rbrace)
    (hx : Follows c [.statement, .statements] x) : Follows c [.statements] x := by
  intro stack
  refine (judge_of_advance_eq ?_).trans (hx stack)
  have hr : Pending.statements.respond c.kind = statementResponse [.statements] c.kind := if_neg h
  have hs : Pending.statement.respond c.kind = statementResponse [] c.kind := rfl
  rw [List.cons_append, List.cons_append, advance, advance, hr, hs]
  cases c.kind with
  | punct p => cases p <;> rfl
  | keyword k => cases k <;> rfl
  | _ => rfl

/-- Statements agree with their part if each of them does. -/
theorem statementsFrom_follows {stmt : Reader Stmt} (hs : ReadsStmts stmt)
    (hf : ∀ ⦃c⦄, c.rest.length ≤ limit → Follows c [.statement] (stmt c)) (done : List Stmt) {bound : Nat}
    (hc : c.rest.length ≤ limit) (hb : c.rest.length ≤ bound) :
    Follows c [.statements] (statementsFrom stmt bound done c) := by
  induction bound generalizing done c with
  | zero => exact .refuse (by rw [Cursor.kind_of_length hb]; rfl)
  | succ bound ih =>
    rw [statementsFrom]
    split
    · rename_i hk
      exact .enter (show _ = Response.enter [] by rw [hk]; rfl) (by simp [hk]) (.done _ _)
    · rename_i hk
      exact .refuse (by rw [hk]; rfl)
    · rename_i hbrace hend
      refine .of_statement hbrace ((hf hc).bind ?_)
      rintro ⟨s, after⟩ hr
      have hpass := (hs hr).1
      obtain ⟨k, rest, hk, -⟩ := s.head_unparse
      rw [hk] at hpass
      exact ih (s :: done) (hpass.length_le.trans hc) (hpass.rest_le hb)

/-- An expression statement, at a token that is for nothing else. -/
theorem statement_follows_expression (hc : c.rest.length ≤ limit)
    (h : statementResponse [] c.kind =
      valueResponse "unrecognized statement" [.operands, .mark .semicolon "expected ';'"] c.kind) :
    Follows c [.statement] (expressionStatement limit c) :=
  .of_valueResponse h (expressionStatement_follows hc)

/-- A name that is no target is read again as the beginning of an expression. -/
theorem statement_follows_named {name : String} (hc : c.rest.length ≤ limit) (hk : c.kind = .ident name)
    (hp : c.next.kind ≠ .punct .assign) : Follows c [.statement] (expressionStatement limit c) := by
  intro stack
  have hk' : c.kind ≠ .endOfInput := by simp [hk]
  have hs : Pending.statement.respond c.kind = .enter [.assignee, .operands, .mark .semicolon "expected ';'"] := by
    rw [hk]
    rfl
  have hv : (Pending.value "unrecognized statement").respond c.kind = .enter [.callee] := by
    rw [hk]
    rfl
  calc c.judge (.statement :: stack)
    _ = c.next.judge (.assignee :: .operands :: .mark .semicolon "expected ';'" :: stack) := judge_enter hs hk'
    _ = c.next.judge (.callee :: .operands :: .mark .semicolon "expected ';'" :: stack) :=
      judge_congr (by simp [Pending.respond, hp])
    _ = c.judge (.value "unrecognized statement" :: .operands :: .mark .semicolon "expected ';'" :: stack) :=
      (judge_enter hv hk').symm
    _ = _ := expressionStatement_follows hc stack

private theorem statement_follows (limit : Nat) ⦃c : Cursor⦄ (hc : c.rest.length ≤ limit) :
    Follows c [.statement] (Grammar.standard.statement limit c) := by
  induction limit generalizing c with
  | zero =>
    have hk := Cursor.kind_of_length hc
    rw [statement_zero, noStatement, hk]
    exact .refuse (by rw [hk]; rfl)
  | succ limit ih =>
    -- behind the first token, expressions keep the bound and statements have one less
    have hx : ∀ ⦃after : Cursor⦄ ⦃message : String⦄, after.rest.length ≤ limit →
        Follows after [.value message, .operands]
          (require (Grammar.standard.expression (limit + 1)) after message) :=
      fun after message h => expression_follows (Nat.le_succ_of_le h)
    have hle : ∀ ⦃after last : Cursor⦄ ⦃message : String⦄ ⦃e : Expr⦄, after.rest.length ≤ limit →
        require (Grammar.standard.expression (limit + 1)) after message = .ok (e, last) → last.rest.length ≤ limit :=
      fun after last message e h hr => (expression_reads (limit + 1) (require_eq_ok.mp hr)).1.length_le.trans h
    rw [statement_succ]
    cases hk : c.kind with
    | number n => exact statement_follows_expression hc (by rw [hk]; rfl)
    | endOfInput => exact .refuse (by rw [hk]; rfl)
    | ident name =>
      have hnext := Cursor.length_next (by simp [hk]) hc
      by_cases hp : c.next.atPunct .assign = true
      · have hp' := Cursor.atPunct_iff.mp hp
        simp only [hp, if_true]
        refine .enter (by rw [hk]; rfl) (by simp [hk]) ?_
        refine .enter (by rw [hp']; rfl) (by simp [hp']) ?_
        exact (hx ((Cursor.length_next_le _).trans hnext)).bind fun _ _ => .mark fun _ => .done _ _
      · simp only [hp, Bool.false_eq_true, if_false]
        exact statement_follows_named hc hk (mt Cursor.atPunct_iff.mpr hp)
    | punct p =>
      by_cases hl : p = .lbrace
      · subst hl
        have hnext := Cursor.length_next (by simp [hk]) hc
        refine .enter (by rw [hk]; rfl) (by simp [hk]) ?_
        exact (statementsFrom_follows (statement_reads limit) ih [] hnext hnext).map Stmt.scope
      · by_cases hr : p = .rbrace
        · subst hr
          exact .refuse (by rw [hk]; rfl)
        · have hs := statement_follows_expression hc
            (by rw [hk]; cases p <;> first | contradiction | rfl)
          cases p <;> first | contradiction | exact hs
    | keyword k =>
      have hnext := Cursor.length_next (by simp [hk]) hc
      cases k with
      | func => exact statement_follows_expression hc (by rw [hk]; rfl)
      | cond =>
        refine .enter (by rw [hk]; rfl) (by simp [hk]) ?_
        refine (hx hnext).bind ?_
        rintro ⟨test, after⟩ hr
        exact (ih (hle hnext hr)).map (Stmt.cond test)
      | loop =>
        refine .enter (by rw [hk]; rfl) (by simp [hk]) ?_
        refine (hx hnext).bind ?_
        rintro ⟨test, after⟩ hr
        exact (ih (hle hnext hr)).map (Stmt.loop test)
      | var =>
        refine .enter (by rw [hk]; rfl) (by simp [hk]) ?_
        refine Follows.name.bind ?_
        rintro ⟨name, after⟩ hn
        obtain ⟨-, rfl⟩ := Cursor.expectName_eq_ok.mp hn
        have hafter := (Cursor.length_next_le c.next).trans hnext
        exact (initializer_follows (Nat.le_succ_of_le hafter)).bind fun _ _ => .mark fun _ => .done _ _
      | ret =>
        refine .enter (by rw [hk]; rfl) (by simp [hk]) ?_
        exact (optional_follows (Nat.le_succ_of_le hnext)).bind fun _ _ => .mark fun _ => .done _ _
      | write =>
        refine .enter (by rw [hk]; rfl) (by simp [hk]) ?_
        refine (hx hnext).bind ?_
        rintro ⟨addr, after⟩ hr
        exact (hx (hle hnext hr)).bind fun _ _ => .mark fun _ => .done _ _

end

section
variable {α : Type} {limit : Nat} {c : Cursor} {more : List Pending}
  {f : List String → Cursor → Except SyntaxError (Read α)}

/-- Parameters and the parenthesis behind them. -/
theorem parametersFrom_follows (done : List String)
    (hf : ∀ params after, after.rest.length ≤ limit → Follows after more (f params after))
    {bound : Nat} (hc : c.rest.length ≤ limit) (hb : c.rest.length ≤ bound) :
    Follows c (.name "expected parameter name" :: .moreParameters :: more) (do
      let (params, after) ← parametersFrom bound done c
      let after ← after.expect .rparen "expected ')' or ',' after parameter"
      f params after) := by
  induction bound generalizing done c with
  | zero => exact .refuse (by rw [Cursor.kind_of_length hb]; rfl)
  | succ bound ih =>
    rw [parametersFrom, bind_assoc]
    refine Follows.name.bind ?_
    rintro ⟨name, after⟩ hn
    obtain ⟨hname, rfl⟩ := Cursor.expectName_eq_ok.mp hn
    have hle : c.next.next.rest.length ≤ limit :=
      (Cursor.length_next_le c.next).trans ((Cursor.length_next_le c).trans hc)
    dsimp only
    split
    · rename_i hcomma
      have hk := Cursor.atPunct_iff.mp hcomma
      refine .enter (by simp only [hk, Pending.respond, if_true]; rfl) (by simp [hk]) ?_
      exact ih (name :: done) hle ((Cursor.length_next_le c.next).trans (Cursor.length_next (by simp [hname]) hb))
    · rename_i hcomma
      have hk := mt Cursor.atPunct_iff.mpr hcomma
      exact .congr (by simp [Pending.respond, hk]) (.mark fun _ => hf _ _ hle)

private theorem parameters_follows
    (hf : ∀ params after, after.rest.length ≤ limit → Follows after more (f params after))
    (hc : c.rest.length ≤ limit) :
    Follows c (.parameters :: more) (do
      let (params, after) ← parameters limit c
      let after ← after.expect .rparen "expected ')' or ',' after parameter"
      f params after) := by
  unfold parameters
  split
  · rename_i hp
    have hk := Cursor.atPunct_iff.mp hp
    exact .congr (by rw [hk]; rfl) (.mark fun _ => hf _ _ ((Cursor.length_next_le c).trans hc))
  · rename_i hp
    intro stack
    refine (judge_of_advance_eq ?_).trans (parametersFrom_follows [] hf hc hc stack)
    simp only [List.cons_append, advance]
    cases hk : c.kind with
    | punct p =>
      have hp' : p ≠ .rparen := by
        rintro rfl
        exact hp (Cursor.atPunct_iff.mpr hk)
      simp [Pending.respond, hp']
    | _ => rfl

end

section
variable {limit : Nat} {c : Cursor}

private theorem functionDeclaration_follows (hc : c.next.rest.length ≤ limit) :
    Follows c.next [.functionName] (functionDeclaration limit c) := by
  unfold functionDeclaration
  cases hk : c.next.kind with
  | ident name =>
    rw [Cursor.expectName_eq_ok.mpr ⟨hk, rfl⟩]
    refine .enter (by rw [hk]; rfl) (by simp [hk]) ?_
    change Follows _ _ (c.next.next.expect .lparen "expected '(' after function name" >>= _)
    by_cases hp : c.next.next.kind = .punct .lparen
    · rw [Cursor.expect_eq_ok.mpr ⟨hp, rfl⟩]
      refine .enter (by rw [hp]; rfl) (by simp [hp]) ?_
      refine parameters_follows (f := fun params after =>
          after.expect .lbrace "expected '\x7b' to open the function body" >>= fun after =>
            statementsFrom (Grammar.standard.statement limit) limit [] after >>= fun r =>
              pure (Decl.func name params r.1 c.next.peek.offset, r.2)) (fun params after hle => .mark fun _ => ?_)
        ((Cursor.length_next_le _).trans ((Cursor.length_next_le _).trans hc))
      have hle' := (Cursor.length_next_le after).trans hle
      exact (statementsFrom_follows (statement_reads limit) (statement_follows limit) [] hle' hle').map
        fun body => Decl.func name params body c.next.peek.offset
    · rw [Cursor.expect, if_neg (mt Cursor.atPunct_iff.mp hp)]
      exact .refuse (by simp [Pending.respond, hp])
  | _ =>
    simp only [Cursor.expectName, hk]
    exact .refuse (by rw [hk]; rfl)

private theorem globalDeclaration_follows :
    Follows c.next [.name "expected variable name after 'var'",
      .mark .semicolon "expected ';' after global variable"] (globalDeclaration c) :=
  Follows.name.bind fun _ _ => .mark fun _ => .done _ _

private theorem declarationsFrom_judge (done : List Decl) (hc : c.rest.length ≤ limit) :
    c.judge [.declarations] = Grammar.standard.declarationsFrom limit done c >>= fun _ => .ok () := by
  induction limit generalizing done c with
  | zero => exact judge_accept (by rw [Cursor.kind_of_length hc]; rfl)
  | succ limit ih =>
    have hstep : ∀ {parts x}, Pending.declarations.respond c.kind = .enter (parts ++ [.declarations]) →
        c.kind ≠ .endOfInput → Follows c.next parts x →
        (∀ {decl after}, x = .ok (decl, after) → c.Passes (Decl.unparse decl) after) →
        c.judge [.declarations] =
          (x >>= fun r => Grammar.standard.declarationsFrom limit (r.1 :: done) r.2) >>= fun _ => .ok () := by
      intro parts x hr hk hx hpass
      rw [judge_enter hr hk, List.append_nil, hx]
      cases hd : x with
      | error e => rfl
      | ok r => exact ih (r.1 :: done) (declaration_rest_le (hpass hd) hc)
    rw [declarationsFrom_succ]
    cases hk : c.kind with
    | endOfInput => exact judge_accept (by rw [hk]; rfl)
    | keyword k =>
      have hnext := Cursor.length_next (by simp [hk]) hc
      cases k with
      | func =>
        refine hstep (by rw [hk]; rfl) (by simp [hk]) (functionDeclaration_follows hnext) ?_
        exact fun hd => (functionDeclaration_passes hk hd).1
      | var =>
        refine hstep (by rw [hk]; rfl) (by simp [hk]) globalDeclaration_follows ?_
        exact fun hd => (globalDeclaration_passes hk hd).1
      | _ => exact judge_refuse (by rw [hk]; rfl)
    | _ => exact judge_refuse (by rw [hk]; rfl)

/-- The machine and the parser accept the same tokens, and refuse the others alike. -/
theorem parse_judge (tokens : List Token) :
    (Cursor.ofTokens tokens 0).judge [.declarations] = Grammar.standard.parse tokens >>= fun _ => .ok () :=
  declarationsFrom_judge [] (by simp [Cursor.ofTokens])

end

end StackToolchain.Source
