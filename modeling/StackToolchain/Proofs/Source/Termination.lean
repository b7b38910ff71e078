import StackToolchain.Proofs.Source.Agreement
import StackToolchain.Proofs.Source.Progress
import StackToolchain.Proofs.Source.StrictBound

/-! Reading ends.
Every function of the parser calls itself only behind a token that it has passed. So a bound that stops the parser is
never met if it lies above the number of tokens that are left, and the parser then gives what it gives with a bound at
which it answers. -/
namespace StackToolchain.Source

namespace Strict

/-- Wherever fewer tokens are left than a bound, a computation ends with the outcome of a function of the parser. -/
def Keeps {α : Type} (f : Cursor → Run α) (read : Cursor → Except SyntaxError α) (bound : Nat) : Prop :=
  ∀ ⦃c : Cursor⦄, c.rest.length < bound → f c = ends (read c)

private theorem Keeps.mono {α : Type} {f : Cursor → Run α} {read : Cursor → Except SyntaxError α} {bound less : Nat}
    (h : Keeps f read bound) (hle : less ≤ bound) : Keeps f read less := by
  intro c hc
  exact h (hc.trans_le hle)

-- a limit of each parser stands beside a bound that lies below both and goes down with them
variable {g : Grammar} {bound limit limit' : Nat} {c : Cursor}

section
variable {f : Cursor → Run (Option (Read Expr))} {read : Rule Expr}

private theorem joinOperands_ends (hf : Keeps f read bound) (ha : Rule.Advancing read) (hl : bound ≤ limit)
    (hl' : bound ≤ limit') (left : Expr) (hc : c.rest.length < bound) :
    joinOperands f limit left c = ends (Source.joinOperands read limit' left c) := by
  induction bound generalizing limit limit' left c with
  | zero => omega
  | succ bound ih =>
    obtain ⟨limit, rfl⟩ : ∃ n, limit = n + 1 := ⟨limit - 1, by omega⟩
    obtain ⟨limit', rfl⟩ : ∃ n, limit' = n + 1 := ⟨limit' - 1, by omega⟩
    rw [joinOperands, Source.joinOperands]
    cases hop : c.operator? with
    | none => rfl
    | some op =>
      have hnext : c.Advances c.next := Cursor.advances_next (by simp [Cursor.kind_of_operator? hop])
      have hlt := hnext.2
      refine bind_ends (required_ends (hf (by omega))) fun right hright => ?_
      have hafter := (require_advancing ha _ hright).2
      exact ih (hf.mono (by omega)) (by omega) (by omega) _ (by omega)

private theorem expressionOf_keeps (hf : Keeps f read bound) (ha : Rule.Advancing read) (hl : bound ≤ limit)
    (hl' : bound ≤ limit') : Keeps (expressionOf f limit) (Source.expressionOf read limit') bound := by
  intro c hc
  refine bind_ends (hf hc) fun outcome ho => ?_
  cases outcome with
  | none => rfl
  | some left =>
    have hlt := (ha ho).2
    exact bind_ends (joinOperands_ends hf ha hl hl' left.1 (by omega)) fun result _ => rfl

private theorem argumentsFrom_ends (hf : Keeps f read bound) (ha : Rule.Advancing read) (hl : bound ≤ limit)
    (hl' : bound ≤ limit') (done : List Expr) (hc : c.rest.length < bound) :
    argumentsFrom f limit done c = ends (Source.argumentsFrom read limit' done c) := by
  induction bound generalizing limit limit' done c with
  | zero => omega
  | succ bound ih =>
    obtain ⟨limit, rfl⟩ : ∃ n, limit = n + 1 := ⟨limit - 1, by omega⟩
    obtain ⟨limit', rfl⟩ : ∃ n, limit' = n + 1 := ⟨limit' - 1, by omega⟩
    refine bind_ends (required_ends (hf hc)) fun arg harg => ?_
    have hlt := (require_advancing ha _ harg).2
    dsimp only
    split
    · rename_i hcomma
      have hnext := (Cursor.advances_next_of_atPunct hcomma).2
      exact ih (hf.mono (by omega)) (by omega) (by omega) _ (by omega)
    · rfl

private theorem arguments_ends (hf : Keeps f read bound) (ha : Rule.Advancing read) (hl : bound ≤ limit)
    (hl' : bound ≤ limit') (hc : c.rest.length < bound) :
    arguments f limit c = ends (Source.arguments read limit' c) := by
  unfold arguments Source.arguments
  split
  · rfl
  · exact argumentsFrom_ends hf ha hl hl' [] hc

/-- A rule for values reads other values only behind its first token. -/
theorem valueRule_ends (hf : Keeps f read bound) (ha : Rule.Advancing read) (hl : bound ≤ limit) (hl' : bound ≤ limit')
    (rule : ValueRule) (hc : c.rest.length ≤ bound) :
    valueRule f (expressionOf f limit) limit rule c =
      ends (rule.parse read (Source.expressionOf read limit') limit' c) := by
  have hx := expressionOf_keeps hf ha hl hl'
  cases rule with
  | integer | named =>
    simp only [valueRule, ValueRule.parse]
    cases c.kind <;> rfl
  | call =>
    simp only [valueRule, ValueRule.parse]
    cases hk : c.kind with
    | ident name =>
      dsimp only
      split
      · rename_i hp
        have hname : c.Advances c.next := Cursor.advances_next (by simp [hk])
        have hlt := (hname.trans_reaches (Cursor.advances_next_of_atPunct hp).reaches).2
        refine bind_ends (arguments_ends hx (expressionOf_advancing ha) hl hl' (by omega)) fun args _ => ?_
        exact bind_ends rfl fun after _ => rfl
      · rfl
    | _ => rfl
  | parentheses =>
    simp only [valueRule, ValueRule.parse]
    split
    · rename_i hp
      have hlt := (Cursor.advances_next_of_atPunct hp).2
      refine bind_ends (required_ends (hx (by omega))) fun inner _ => ?_
      exact bind_ends rfl fun after _ => rfl
    · rfl
  | negate =>
    simp only [valueRule, ValueRule.parse]
    split
    · rename_i hp
      have hlt := (Cursor.advances_next_of_atPunct hp).2
      exact bind_ends (required_ends (hf (by omega))) fun operand _ => rfl
    · rfl

end

private theorem value_keeps (g : Grammar) (hl : bound ≤ limit) (hl' : bound ≤ limit') :
    Keeps (value g limit) (g.value limit') bound := by
  induction bound generalizing limit limit' with
  | zero =>
    intro c hc
    omega
  | succ bound ih =>
    intro c hc
    obtain ⟨limit, rfl⟩ : ∃ n, limit = n + 1 := ⟨limit - 1, by omega⟩
    obtain ⟨limit', rfl⟩ : ∃ n, limit' = n + 1 := ⟨limit' - 1, by omega⟩
    have hl : bound ≤ limit := by omega
    have hl' : bound ≤ limit' := by omega
    exact findSomeM?_ends
      (fun rule => valueRule_ends (ih hl hl') (g.value_advancing limit') hl hl' rule (by omega)) g.values

private theorem expression_keeps (g : Grammar) (hl : bound ≤ limit) (hl' : bound ≤ limit') :
    Keeps (expression g limit) (g.expression limit') bound :=
  expressionOf_keeps (value_keeps g hl hl') (g.value_advancing limit') hl hl'

section
variable {x : Cursor → Run (Option (Read Expr))} {f : Cursor → Run (Read Stmt)} {expr : Rule Expr} {read : Reader Stmt}

private theorem initializer_ends (hx : Keeps x expr bound) (hc : c.rest.length < bound) :
    initializer x c = ends (Source.initializer expr c) := by
  unfold initializer Source.initializer
  split
  · rename_i hp
    have hlt := (Cursor.advances_next_of_atPunct hp).2
    exact bind_ends (required_ends (hx (by omega))) fun value _ => rfl
  · rfl

private theorem optional_ends (hx : Keeps x expr bound) (hc : c.rest.length < bound) :
    optional x c = ends (Source.optional expr c) := by
  refine bind_ends (hx hc) fun outcome _ => ?_
  cases outcome <;> rfl

private theorem statementsFrom_ends (hf : Keeps f read bound) (ha : Reader.Advancing read) (hl : bound ≤ limit)
    (hl' : bound ≤ limit') (done : List Stmt) (hc : c.rest.length < bound) :
    statementsFrom f limit done c = ends (Source.statementsFrom read limit' done c) := by
  induction bound generalizing limit limit' done c with
  | zero => omega
  | succ bound ih =>
    obtain ⟨limit, rfl⟩ : ∃ n, limit = n + 1 := ⟨limit - 1, by omega⟩
    obtain ⟨limit', rfl⟩ : ∃ n, limit' = n + 1 := ⟨limit' - 1, by omega⟩
    have hmore : (f c >>= fun s => statementsFrom f limit (s.1 :: done) s.2) =
        ends (read c >>= fun s => Source.statementsFrom read limit' (s.1 :: done) s.2) := by
      refine bind_ends (hf hc) fun s hread => ?_
      have hlt := (ha hread).2
      exact ih (hf.mono (by omega)) (by omega) (by omega) _ (by omega)
    rw [statementsFrom, Source.statementsFrom]
    cases c.kind with
    | punct p =>
      cases p with
      | rbrace => rfl
      | _ => exact hmore
    | endOfInput => rfl
    | _ => exact hmore

private theorem block_ends (hf : Keeps f read bound) (ha : Reader.Advancing read) (hl : bound ≤ limit)
    (hl' : bound ≤ limit') (hc : c.rest.length ≤ bound) : block f limit c = ends (Source.block read limit' c) := by
  unfold block Source.block
  split
  · rename_i hp
    have hlt := (Cursor.advances_next_of_atPunct hp).2
    exact bind_ends (statementsFrom_ends hf ha hl hl' [] (by omega)) fun body _ => rfl
  · rfl

private theorem wholeRule_ends (hx : Keeps x expr (bound + 1)) (hxa : Rule.Advancing expr) (hf : Keeps f read bound)
    (ha : Reader.Advancing read) (hl : bound ≤ limit) (hl' : bound ≤ limit') {rule : StmtRule} (hcond : rule ≠ .cond)
    (hloop : rule ≠ .loop) (hc : c.rest.length ≤ bound) :
    wholeRule x f limit rule c = ends (rule.parse expr read limit' c) := by
  cases rule with
  | scope =>
    refine bind_ends (block_ends hf ha hl hl' hc) fun outcome _ => ?_
    cases outcome <;> rfl
  | cond => exact absurd rfl hcond
  | loop => exact absurd rfl hloop
  | var =>
    simp only [wholeRule, StmtRule.parse]
    split
    · rename_i hk
      have hlt := (Cursor.advances_next_of_atKeyword hk).2
      refine bind_ends rfl fun name hname => ?_
      have hafter := (Cursor.advances_of_expectName hname).2
      refine bind_ends (initializer_ends hx (by omega)) fun init _ => ?_
      exact bind_ends rfl fun after _ => rfl
    · rfl
  | ret =>
    simp only [wholeRule, StmtRule.parse]
    split
    · rename_i hk
      have hlt := (Cursor.advances_next_of_atKeyword hk).2
      refine bind_ends (optional_ends hx (by omega)) fun value _ => ?_
      exact bind_ends rfl fun after _ => rfl
    · rfl
  | write =>
    simp only [wholeRule, StmtRule.parse]
    split
    · rename_i hk
      have hlt := (Cursor.advances_next_of_atKeyword hk).2
      refine bind_ends (required_ends (hx (by omega))) fun addr haddr => ?_
      have hafter := (require_advancing hxa _ haddr).2
      refine bind_ends (required_ends (hx (by omega))) fun value _ => ?_
      exact bind_ends rfl fun after _ => rfl
    · rfl
  | assign =>
    simp only [wholeRule, StmtRule.parse]
    cases hk : c.kind with
    | ident name =>
      dsimp only
      split
      · rename_i hp
        have hname : c.Advances c.next := Cursor.advances_next (by simp [hk])
        have hlt := (hname.trans_reaches (Cursor.advances_next_of_atPunct hp).reaches).2
        refine bind_ends (required_ends (hx (by omega))) fun value _ => ?_
        exact bind_ends rfl fun after _ => rfl
      · rfl
    | _ => rfl
  | expression =>
    refine bind_ends (hx (by omega)) fun outcome _ => ?_
    cases outcome with
    | none => rfl
    | some value => exact bind_ends rfl fun after _ => rfl

def headRule (expr : Rule Expr) (read : Reader Stmt) (limit : Nat) : StmtRule → Rule Head
  | .cond, c =>
    if c.atKeyword .cond then do
      let (test, after) ← require expr c.next "expected condition after 'if'"
      return some (.cond test, after)
    else .ok none
  | .loop, c =>
    if c.atKeyword .loop then do
      let (test, after) ← require expr c.next "expected condition after 'while'"
      return some (.loop test, after)
    else .ok none
  | rule, c => do
    match ← rule.parse expr read limit c with
    | none => return none
    | some (s, after) => return some (.whole s, after)

private def attach (read : Reader Stmt) : Head → Reader Stmt
  | .whole s, c => .ok (s, c)
  | .cond test, c => do
    let (body, after) ← read c
    return (.cond test body, after)
  | .loop test, c => do
    let (body, after) ← read c
    return (.loop test body, after)

def attachSome (read : Reader Stmt) : Option (Read Head) → Except SyntaxError (Option (Read Stmt))
  | none => .ok none
  | some (head, after) => some <$> attach read head after

private theorem headRule_of_whole {rule : StmtRule} (hcond : rule ≠ .cond) (hloop : rule ≠ .loop) :
    headRule expr read limit rule c =
      (rule.parse expr read limit c >>= fun outcome => .ok (outcome.map fun r => (.whole r.1, r.2))) := by
  unfold headRule
  split
  · exact absurd rfl hcond
  · exact absurd rfl hloop
  · congr 1
    funext outcome
    cases outcome <;> rfl

private theorem headRule_advancing (hxa : Rule.Advancing expr) (ha : Reader.Advancing read) (rule : StmtRule) :
    Rule.Advancing (headRule expr read limit rule) := by
  intro c head c' h
  cases rule with
  | cond | loop =>
    simp only [headRule] at h
    split at h
    · rename_i hk
      obtain ⟨⟨test, after⟩, ht, h⟩ := bind_pure_eq_ok.mp h
      cases h
      exact (Cursor.advances_next_of_atKeyword hk).trans_reaches (require_advancing hxa _ ht).reaches
    · cases h
  | _ =>
    rw [headRule_of_whole (by simp) (by simp)] at h
    obtain ⟨outcome, ho, h⟩ := bind_eq_ok.mp h
    cases outcome with
    | none => cases h
    | some result =>
      cases h
      exact StmtRule.parse_advancing hxa ha _ ho

private theorem stmtRule_ends (hx : Keeps x expr (bound + 1)) (hxa : Rule.Advancing expr) (hf : Keeps f read bound)
    (ha : Reader.Advancing read) (hl : bound ≤ limit) (hl' : bound ≤ limit') (rule : StmtRule)
    (hc : c.rest.length ≤ bound) : stmtRule x f limit rule c = ends (headRule expr read limit' rule c) := by
  cases rule with
  | cond | loop =>
    simp only [stmtRule, headRule]
    split
    · rename_i hk
      have hlt := (Cursor.advances_next_of_atKeyword hk).2
      exact bind_ends (required_ends (hx (by omega))) fun test _ => rfl
    · rfl
  | _ =>
    refine bind_ends (wholeRule_ends hx hxa hf ha hl hl' (by simp) (by simp) hc) fun outcome _ => ?_
    cases outcome <;> rfl

/-- A head with its body is what the rule gives. -/
theorem headRule_attach (expr : Rule Expr) (read : Reader Stmt) (limit : Nat) (rule : StmtRule) (c : Cursor) :
    headRule expr read limit rule c >>= attachSome read = rule.parse expr read limit c := by
  cases rule with
  | cond | loop =>
    simp only [headRule, StmtRule.parse]
    split
    · rw [bind_assoc]
      congr 1
      funext test
      change some <$> attach read _ test.2 = _
      rw [attach, map_bind]
      rfl
    · rfl
  | _ =>
    rw [headRule_of_whole (by simp) (by simp), bind_assoc]
    refine (bind_congr fun outcome => ?_).trans (bind_pure _)
    cases outcome <;> rfl

private theorem firstMatch_attach (expr : Rule Expr) (read : Reader Stmt) (limit : Nat) (rules : List StmtRule)
    (c : Cursor) : firstMatch (rules.map (headRule expr read limit)) c >>= attachSome read =
      firstMatch (rules.map fun rule => rule.parse expr read limit) c := by
  induction rules with
  | nil => rfl
  | cons rule rules ih =>
    have hrule := headRule_attach expr read limit rule c
    rw [List.map_cons, List.map_cons, firstMatch]
    cases hhead : headRule expr read limit rule c with
    | error e =>
      rw [hhead] at hrule
      exact (firstMatch_commit (x := .error e) hrule.symm).symm
    | ok outcome =>
      rw [hhead] at hrule
      cases outcome with
      | none =>
        rw [firstMatch_skip hrule.symm]
        exact ih
      | some result => exact (firstMatch_commit hrule.symm).symm

private theorem attached_ends (hf : Keeps f read bound) (head : Head) (hc : c.rest.length < bound) :
    attached f head c = ends (attach read head c) := by
  cases head with
  | whole s => rfl
  | cond test | loop test => exact bind_ends (hf hc) fun body _ => rfl

end

private theorem statement_of_commit {y : Except SyntaxError (Read Stmt)}
    (h : firstMatch (g.stmts.map fun rule => rule.parse (g.expression (limit + 1)) (g.statement limit) limit) c =
      some <$> y) :
    g.statement (limit + 1) c = y := by
  simp only [Grammar.statement]
  rw [h]
  cases y <;> rfl

private theorem statement_keeps (g : Grammar) (hl : bound ≤ limit) (hl' : bound ≤ limit') :
    Keeps (statement g limit) (g.statement limit') bound := by
  induction bound generalizing limit limit' with
  | zero =>
    intro c hc
    omega
  | succ bound ih =>
    intro c hc
    obtain ⟨limit, rfl⟩ : ∃ n, limit = n + 1 := ⟨limit - 1, by omega⟩
    obtain ⟨limit', rfl⟩ : ∃ n, limit' = n + 1 := ⟨limit' - 1, by omega⟩
    have hx := expression_keeps g hl hl'
    have hxa := g.expression_advancing (limit' + 1)
    have ha := g.statement_advancing limit'
    replace hl : bound ≤ limit := by omega
    replace hl' : bound ≤ limit' := by omega
    have hheads := findSomeM?_ends
      (fun rule => stmtRule_ends hx hxa (ih hl hl') ha hl hl' rule (c := c) (by omega)) g.stmts
    have hparse := firstMatch_attach (g.expression (limit' + 1)) (g.statement limit') limit' g.stmts c
    simp only [statement]
    rw [hheads]
    cases hfirst : firstMatch (g.stmts.map (headRule (g.expression (limit' + 1)) (g.statement limit') limit')) c with
    | error e =>
      rw [Grammar.statement, ← hparse, hfirst]
      rfl
    | ok outcome =>
      rw [hfirst] at hparse
      cases outcome with
      | none =>
        rw [Grammar.statement, ← hparse]
        rfl
      | some result =>
        -- a head may end at a test, and its body is read where the head ends
        have hlt := (firstMatch_advancing (headRule_advancing hxa ha) g.stmts hfirst).2
        rw [statement_of_commit hparse.symm]
        exact attached_ends (ih hl hl') result.1 (by omega)

private theorem parametersFrom_ends (hl : bound ≤ limit) (hl' : bound ≤ limit') (done : List String)
    (hc : c.rest.length < bound) :
    parametersFrom limit done c = ends (Source.parametersFrom limit' done c) := by
  induction bound generalizing limit limit' done c with
  | zero => omega
  | succ bound ih =>
    obtain ⟨limit, rfl⟩ : ∃ n, limit = n + 1 := ⟨limit - 1, by omega⟩
    obtain ⟨limit', rfl⟩ : ∃ n, limit' = n + 1 := ⟨limit' - 1, by omega⟩
    refine bind_ends rfl fun name hname => ?_
    have hlt := (Cursor.advances_of_expectName hname).2
    dsimp only
    split
    · rename_i hcomma
      have hnext := (Cursor.advances_next_of_atPunct hcomma).2
      exact ih (by omega) (by omega) _ (by omega)
    · rfl

private theorem parameters_ends (hl : bound ≤ limit) (hl' : bound ≤ limit') (hc : c.rest.length < bound) :
    parameters limit c = ends (Source.parameters limit' c) := by
  unfold parameters Source.parameters
  split
  · rfl
  · exact parametersFrom_ends hl hl' [] hc

private theorem declRule_ends {f : Cursor → Run (Read Stmt)} {read : Reader Stmt} (hf : Keeps f read bound)
    (ha : Reader.Advancing read) (hl : bound ≤ limit) (hl' : bound ≤ limit') (rule : DeclRule)
    (hc : c.rest.length ≤ bound + 1) : declRule f limit rule c = ends (rule.parse read limit' c) := by
  cases rule with
  | function =>
    simp only [declRule, DeclRule.parse]
    split
    · rename_i hk
      have hfunc := (Cursor.advances_next_of_atKeyword hk).2
      refine bind_ends rfl fun name hname => ?_
      have hopen := (Cursor.advances_of_expectName hname).2
      refine bind_ends rfl fun afterOpen ho => ?_
      have hparams := (Cursor.advances_of_expect ho).2
      refine bind_ends (parameters_ends hl hl' (by omega)) fun params hp => ?_
      have hclose := (parameters_reaches hp).length_le
      refine bind_ends rfl fun afterClose hr => ?_
      have hbody := (Cursor.advances_of_expect hr).2
      exact bind_ends (required_ends (block_ends hf ha hl hl' (by omega))) fun body _ => rfl
    · rfl
  | global =>
    simp only [declRule, DeclRule.parse]
    split
    · refine bind_ends rfl fun name _ => ?_
      exact bind_ends rfl fun after _ => rfl
    · rfl

private theorem declarationsFrom_at_end {done : List Decl} (hk : c.kind = .endOfInput) :
    g.declarationsFrom limit done c = .ok done.reverse := by
  cases limit with
  | zero => rfl
  | succ limit => rw [Grammar.declarationsFrom, if_pos hk]

private theorem declarationsFrom_ends (g : Grammar) (hl : bound < limit) (hl' : bound ≤ limit') (done : List Decl)
    (hc : c.rest.length ≤ bound) :
    declarationsFrom g limit done c = ends (g.declarationsFrom limit' done c) := by
  obtain ⟨limit, rfl⟩ : ∃ n, limit = n + 1 := ⟨limit - 1, by omega⟩
  induction bound generalizing limit limit' done c with
  | zero =>
    have hk := Cursor.kind_of_length hc
    rw [declarationsFrom, if_pos hk, declarationsFrom_at_end hk]
    rfl
  | succ bound ih =>
    obtain ⟨limit', rfl⟩ : ∃ n, limit' = n + 1 := ⟨limit' - 1, by omega⟩
    have ha := g.statement_advancing limit'
    have hle : bound ≤ limit := by omega
    replace hl' : bound ≤ limit' := by omega
    have hrules := findSomeM?_ends
      (fun rule => declRule_ends (statement_keeps g hle hl') ha hle hl' rule hc) g.decls
    rw [declarationsFrom, Grammar.declarationsFrom, hrules]
    split
    · rfl
    · cases hfirst : firstMatch (g.decls.map fun rule => rule.parse (g.statement limit') limit') c with
      | error e => rfl
      | ok outcome =>
        cases outcome with
        | none => rfl
        | some result =>
          have hlt := (firstMatch_advancing (DeclRule.parse_advancing ha) g.decls hfirst).2
          obtain ⟨limit, rfl⟩ : ∃ n, limit = n + 1 := ⟨limit - 1, by omega⟩
          exact ih hl' (result.1 :: done) (by omega) limit (by omega)

/-- A cursor stands at a later position than a given one, at most behind the last token, and no token in between is the
end. -/
def AdvancesTo (tokens : List Token) (pos : Nat) (c : Cursor) : Prop :=
  ∃ next, pos < next ∧ next ≤ tokens.length ∧ c = .ofTokens tokens next ∧
    ∀ k t, pos ≤ k → k < next → tokens[k]? = some t → t.kind ≠ .endOfInput

/-- With any bound above the number of tokens a computation ends with an outcome, and if that is a node, it has gone
forward from a position. -/
def EndsBeyond {α : Type} (tokens : List Token) (pos : Nat) (run : Nat → Run (Option (Read α)))
    (outcome : Except SyntaxError (Option (Read α))) : Prop :=
  (∀ more, run (tokens.length + 1 + more) = ends outcome) ∧
    ∀ a c, outcome = .ok (some (a, c)) → AdvancesTo tokens pos c

section
variable {α : Type} {tokens : List Token} {pos : Nat}

private theorem advancesTo_of_advances (h : (Cursor.ofTokens tokens pos).Advances c) : AdvancesTo tokens pos c := by
  obtain ⟨⟨kinds, ⟨passed, rfl, hcursor⟩, hend⟩, hlt⟩ := h
  have hrest : tokens.drop pos = passed ++ c.rest := congrArg Cursor.rest hcursor
  have hoffset : (Cursor.ofTokens tokens pos).endOffset = c.endOffset := by rw [hcursor]
  have hlength : tokens.length - pos = passed.length + c.rest.length := by
    rw [← List.length_drop, hrest, List.length_append]
  rw [Cursor.ofTokens, hrest, List.length_append] at hlt
  refine ⟨pos + passed.length, by omega, by omega, ?_, fun k t hpos hk ht hkind => ?_⟩
  · have hdrop : tokens.drop (pos + passed.length) = c.rest := by
      rw [← List.drop_drop, hrest, List.drop_left]
    rw [Cursor.ofTokens, hdrop]
    exact congrArg (Cursor.mk c.rest) hoffset.symm
  · have hpassed : passed[k - pos]? = some t := by
      have hget : (tokens.drop pos)[k - pos]? = tokens[k]? := by
        rw [List.getElem?_drop, Nat.add_sub_cancel' hpos]
      rw [hrest, List.getElem?_append_left (by omega)] at hget
      exact hget.trans ht
    apply hend
    rw [← hkind]
    exact List.mem_map_of_mem (List.mem_of_getElem? hpassed)

private theorem endsBeyond_of_rule {run : Nat → Run (Option (Read α))} {rule : Rule α} (ha : Rule.Advancing rule)
    (h : ∀ more, run (tokens.length + 1 + more) = ends (rule (.ofTokens tokens pos))) :
    EndsBeyond tokens pos run (rule (.ofTokens tokens pos)) :=
  ⟨h, fun _ _ hrule => advancesTo_of_advances (ha hrule)⟩

private theorem endsBeyond_of_reader {run : Nat → Run (Read α)} {reader : Reader α} (ha : Reader.Advancing reader)
    (h : ∀ more, run (tokens.length + 1 + more) = ends (reader (.ofTokens tokens pos))) :
    EndsBeyond tokens pos (fun limit => some <$> run limit) (some <$> reader (.ofTokens tokens pos)) := by
  refine ⟨fun more => ?_, fun a c hread => ?_⟩
  · change some <$> run (tokens.length + 1 + more) = _
    rw [h]
    cases reader (.ofTokens tokens pos) <;> rfl
  · cases hc : reader (.ofTokens tokens pos) with
    | error e =>
      rw [hc] at hread
      cases hread
    | ok result =>
      rw [hc] at hread
      cases hread
      exact advancesTo_of_advances (ha hc)

private theorem length_ofTokens_le (tokens : List Token) (pos : Nat) :
    (Cursor.ofTokens tokens pos).rest.length ≤ tokens.length := by
  rw [Cursor.ofTokens, List.length_drop]
  exact Nat.sub_le _ _

end

end Strict

open Strict in
/-- Whatever the rules of a registry are, reading tokens ends with what the parser gives, and so does each rule and each
reader of values, expressions and statements, started anywhere: no bound above the number of tokens is ever met.
Wherever one of them gives a node, it has passed at least one token, none that is the end, and has not run past the
last one. -/
theorem parsing_ends_and_advances (g : Grammar) (tokens : List Token) :
    (∀ more, Strict.parse g (tokens.length + 1 + more) tokens = ends (g.parse tokens)) ∧
      ∀ pos, let c := Cursor.ofTokens tokens pos
        let limit := tokens.length + 1
        EndsBeyond tokens pos (fun n => value g n c) (g.value limit c) ∧
        EndsBeyond tokens pos (fun n => expression g n c) (g.expression limit c) ∧
        EndsBeyond tokens pos (fun n => some <$> statement g n c) (some <$> g.statement limit c) ∧
        (∀ message, EndsBeyond tokens pos (fun n => some <$> required (value g n c) c message)
          (some <$> require (g.value limit) c message)) ∧
        (∀ message, EndsBeyond tokens pos (fun n => some <$> required (expression g n c) c message)
          (some <$> require (g.expression limit) c message)) ∧
        (∀ rule, EndsBeyond tokens pos (fun n => valueRule (value g n) (expression g n) n rule c)
          (rule.parse (g.value limit) (g.expression limit) limit c)) ∧
        (∀ rule, EndsBeyond tokens pos (fun n => stmtRule (expression g n) (statement g n) n rule c)
          (headRule (g.expression limit) (g.statement limit) limit rule c)) ∧
        ∀ rule, EndsBeyond tokens pos (fun n => declRule (statement g n) n rule c)
          (rule.parse (g.statement limit) limit c) := by
  refine ⟨fun more => ?_, fun pos => ?_⟩
  · exact declarationsFrom_ends g (by omega) le_rfl [] (length_ofTokens_le tokens 0)
  · intro c limit
    have hc : c.rest.length ≤ tokens.length := length_ofTokens_le tokens pos
    have hlt : c.rest.length < limit := Nat.lt_succ_of_le hc
    have hl (more : Nat) : limit ≤ tokens.length + 1 + more := Nat.le_add_right _ more
    have hv (more : Nat) := value_keeps g (hl more) le_rfl
    have hx (more : Nat) := expression_keeps g (hl more) le_rfl
    have hs (more : Nat) := statement_keeps g (hl more) le_rfl
    have hva := g.value_advancing limit
    have hxa := g.expression_advancing limit
    have hsa := g.statement_advancing limit
    refine ⟨endsBeyond_of_rule hva fun more => hv more hlt, endsBeyond_of_rule hxa fun more => hx more hlt,
      endsBeyond_of_reader hsa fun more => hs more hlt, fun message => ?_, fun message => ?_, fun rule => ?_,
      fun rule => ?_, fun rule => ?_⟩
    · exact endsBeyond_of_reader (require_advancing hva message) fun more => required_ends (hv more hlt)
    · exact endsBeyond_of_reader (require_advancing hxa message) fun more => required_ends (hx more hlt)
    · exact endsBeyond_of_rule (rule.parse_advancing hva hxa) fun more =>
        valueRule_ends (hv more) hva (hl more) le_rfl rule hlt.le
    · exact endsBeyond_of_rule (headRule_advancing hxa hsa rule) fun more =>
        stmtRule_ends (hx more) hxa ((hs more).mono (Nat.le_succ _)) hsa ((Nat.le_succ _).trans (hl more))
          (Nat.le_succ _) rule hc
    · exact endsBeyond_of_rule (rule.parse_advancing hsa) fun more =>
        declRule_ends (hs more) hsa (hl more) le_rfl rule (Nat.le_succ_of_le hlt.le)

end StackToolchain.Source
