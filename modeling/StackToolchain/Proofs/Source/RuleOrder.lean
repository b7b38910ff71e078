import StackToolchain.Proofs.Source.Dispatch

/-! The order of grammar rules.
The next token rules out all but a few rules, and a rule that is ruled out may stand anywhere. Only two pairs of rules
of the standard grammar share their tokens: calls and variables, and assignments and expressions. -/
namespace StackToolchain.Source

section
variable {α ι : Type} {f : ι → Rule α} {p : ι → Bool} {c : Cursor}

private theorem firstMatch_filter (h : ∀ i, p i = false → f i c = .ok none) (l : List ι) :
    firstMatch (l.map f) c = firstMatch ((l.filter p).map f) c := by
  induction l with
  | nil => rfl
  | cons i l ih =>
    cases hp : p i with
    | false => rw [List.map_cons, firstMatch_skip (h i hp), List.filter_cons_of_neg (by simp [hp]), ih]
    | true => rw [List.filter_cons_of_pos hp, List.map_cons, List.map_cons, firstMatch, firstMatch, ih]

/-- Lists of rules answer alike at a token if the rules that are left there stand in the same order. -/
theorem firstMatch_congr {l l' : List ι} (h : ∀ i, p i = false → f i c = .ok none) (heq : l.filter p = l'.filter p) :
    firstMatch (l.map f) c = firstMatch (l'.map f) c := by
  rw [firstMatch_filter h l, heq, ← firstMatch_filter h l']

end

private def TokenKind.isNumber : TokenKind → Bool
  | .number _ => true
  | _ => false

private def TokenKind.isIdent : TokenKind → Bool
  | .ident _ => true
  | _ => false

def ValueRule.begins : ValueRule → TokenKind → Bool
  | .integer, kind => kind.isNumber
  | .call, kind => kind.isIdent
  | .named, kind => kind.isIdent
  | .parentheses, kind => kind == .punct .lparen
  | .negate, kind => kind == .punct .minus

def StmtRule.begins : StmtRule → TokenKind → Bool
  | .assign, kind => kind.isIdent
  | .expression, kind => kind.beginsValue || kind == .punct .minus
  | rule, kind => rule.opening == some kind

def DeclRule.begins : DeclRule → TokenKind → Bool
  | .function, kind => kind == .keyword .func
  | .global, kind => kind == .keyword .var

private theorem ValueRule.parse_of_not_begins {value expr : Rule Expr} {limit : Nat} {rule : ValueRule} {c : Cursor}
    (h : rule.begins c.kind = false) : rule.parse value expr limit c = .ok none := by
  cases rule with
  | integer | call | named =>
    cases hk : c.kind <;> simp_all [ValueRule.parse, ValueRule.begins, TokenKind.isNumber, TokenKind.isIdent]
  | parentheses | negate => exact if_neg (by simpa [ValueRule.begins] using h)

private theorem DeclRule.parse_of_not_begins {stmt : Reader Stmt} {limit : Nat} {rule : DeclRule} {c : Cursor}
    (h : rule.begins c.kind = false) : rule.parse stmt limit c = .ok none := by
  cases rule with
  | function | global => exact if_neg (by simpa [DeclRule.begins] using h)

private theorem Grammar.value_of_not_begins (g : Grammar) {limit : Nat} {c : Cursor}
    (h : ∀ rule : ValueRule, rule.begins c.kind = false) : g.value limit c = .ok none := by
  cases limit with
  | zero => rfl
  | succ limit =>
    have hnone : g.values.filter (fun rule => rule.begins c.kind) = [] := by simp [h]
    rw [Grammar.value, firstMatch_filter fun rule => ValueRule.parse_of_not_begins, hnone]
    rfl

private theorem ValueRule.expression_begins {rule : ValueRule} {kind : TokenKind} (h : rule.begins kind = true) :
    StmtRule.expression.begins kind = true := by
  cases rule with
  | integer | call | named => cases kind <;> first | rfl | cases h
  | parentheses | negate =>
    obtain rfl := eq_of_beq h
    rfl

private theorem StmtRule.parse_of_not_begins (g : Grammar) {stmt : Reader Stmt} {limit inner : Nat} {rule : StmtRule}
    {c : Cursor} (h : rule.begins c.kind = false) : rule.parse (g.expression limit) stmt inner c = .ok none := by
  cases rule with
  | assign =>
    cases hk : c.kind with
    | ident name => simp [StmtRule.begins, TokenKind.isIdent, hk] at h
    | _ => simp only [StmtRule.parse, hk]
  | expression =>
    have hnone (rule : ValueRule) : rule.begins c.kind = false := by
      rw [Bool.eq_false_iff]
      intro hrule
      rw [rule.expression_begins hrule] at h
      cases h
    have hvalue : g.value limit c = .ok none := g.value_of_not_begins hnone
    simp only [StmtRule.parse, Grammar.expression, expressionOf, hvalue]
    rfl
  | _ =>
    refine StmtRule.parse_of_ne_opening rfl fun hk => ?_
    rw [hk] at h
    simp [StmtRule.begins, StmtRule.opening] at h

/-- For every token, the rules that may apply there stand in the same order in two registries. -/
structure Grammar.SameOrder (g g' : Grammar) : Prop where
  decls : ∀ kind, g.decls.filter (·.begins kind) = g'.decls.filter (·.begins kind)
  stmts : ∀ kind, g.stmts.filter (·.begins kind) = g'.stmts.filter (·.begins kind)
  values : ∀ kind, g.values.filter (·.begins kind) = g'.values.filter (·.begins kind)

namespace Grammar.SameOrder

variable {g g' : Grammar} (h : g.SameOrder g')
include h

private theorem value_eq (limit : Nat) : g.value limit = g'.value limit := by
  induction limit with
  | zero => rfl
  | succ limit ih =>
    funext c
    rw [Grammar.value, Grammar.value, ih]
    exact firstMatch_congr (fun rule => ValueRule.parse_of_not_begins) (h.values c.kind)

private theorem expression_eq (limit : Nat) : g.expression limit = g'.expression limit := by
  rw [Grammar.expression, Grammar.expression, h.value_eq]

private theorem statement_eq (limit : Nat) : g.statement limit = g'.statement limit := by
  induction limit with
  | zero => rfl
  | succ limit ih =>
    funext c
    rw [Grammar.statement, Grammar.statement, ih, h.expression_eq,
      firstMatch_congr (fun rule => StmtRule.parse_of_not_begins g') (h.stmts c.kind)]

private theorem declarationsFrom_eq (limit : Nat) (done : List Decl) (c : Cursor) :
    g.declarationsFrom limit done c = g'.declarationsFrom limit done c := by
  induction limit generalizing done c with
  | zero => rfl
  | succ limit ih =>
    simp only [Grammar.declarationsFrom, h.statement_eq, ih]
    rw [firstMatch_congr (fun rule => DeclRule.parse_of_not_begins) (h.decls c.kind)]

private theorem parse_eq (tokens : List Token) : g.parse tokens = g'.parse tokens :=
  h.declarationsFrom_eq tokens.length [] (.ofTokens tokens 0)

end Grammar.SameOrder

private theorem filter_eq_of_perm {α : Type} {l l' : List α} {p : α → Bool} (h : l.Perm l')
    (horder : (l'.filter p).length ≤ 1 ∨ (l'.filter p).Sublist l) : l.filter p = l'.filter p := by
  have hperm := h.filter p
  rcases horder with hfew | hsub
  · generalize l'.filter p = kept at hperm hfew
    cases kept with
    | nil => exact hperm.eq_nil
    | cons a more =>
      obtain rfl : more = [] := List.length_eq_zero_iff.mp (Nat.le_zero.mp (Nat.le_of_succ_le_succ hfew))
      exact List.perm_singleton.mp hperm
  · have hfilter : (l'.filter p).Sublist (l.filter p) := by simpa using hsub.filter p
    exact (hfilter.eq_of_length hperm.length_eq.symm).symm

private def pairOf {α : Type} (first : Bool) (a b : α) : List α :=
  if first then [a, b] else [b, a]

private theorem exists_pairOf_sublist {α : Type} {l : List α} {a b : α} (ha : a ∈ l) (hb : b ∈ l) (hne : a ≠ b) :
    ∃ first, (pairOf first a b).Sublist l := by
  obtain ⟨before, after, rfl⟩ := List.append_of_mem ha
  rcases List.mem_append.mp hb with hb | hb
  · have hlast : [a].Sublist (a :: after) := List.singleton_sublist.mpr List.mem_cons_self
    exact ⟨false, (List.singleton_sublist.mpr hb).append hlast⟩
  · have hb : b ∈ after := (List.mem_cons.mp hb).resolve_left hne.symm
    exact ⟨true, .trans (.cons_cons a (List.singleton_sublist.mpr hb)) (List.sublist_append_right before _)⟩

private def arrangedValues (callFirst : Bool) : List ValueRule :=
  .integer :: (pairOf callFirst .call .named ++ [.parentheses])

private def arrangedStmts (assignFirst : Bool) : List StmtRule :=
  [.scope, .cond, .loop, .var, .ret, .write] ++ pairOf assignFirst .assign .expression

private theorem filter_values_eq {values : List ValueRule} {callFirst : Bool} (h : values.Perm Grammar.standard.values)
    (hpair : List.Sublist (pairOf callFirst .call .named) values) (kind : TokenKind) :
    values.filter (·.begins kind) = (arrangedValues callFirst).filter (·.begins kind) := by
  have hperm : Grammar.standard.values.Perm (arrangedValues callFirst) := by cases callFirst <;> decide
  apply filter_eq_of_perm (h.trans hperm)
  cases callFirst <;> cases kind with
  | ident name => exact .inr hpair
  | punct p => cases p <;> exact .inl (by decide)
  | keyword k => exact .inl (Nat.zero_le 1)
  | number n => exact .inl (Nat.le_refl 1)
  | endOfInput => exact .inl (Nat.zero_le 1)

private theorem filter_stmts_eq {stmts : List StmtRule} {assignFirst : Bool} (h : stmts.Perm Grammar.standard.stmts)
    (hpair : List.Sublist (pairOf assignFirst .assign .expression) stmts) (kind : TokenKind) :
    stmts.filter (·.begins kind) = (arrangedStmts assignFirst).filter (·.begins kind) := by
  have hperm : Grammar.standard.stmts.Perm (arrangedStmts assignFirst) := by cases assignFirst <;> decide
  apply filter_eq_of_perm (h.trans hperm)
  cases assignFirst <;> cases kind with
  | ident name => exact .inr hpair
  | punct p => cases p <;> exact .inl (by decide)
  | keyword k => cases k <;> exact .inl (by decide)
  | number n => exact .inl (Nat.le_refl 1)
  | endOfInput => exact .inl (Nat.zero_le 1)

private theorem filter_decls_eq {decls : List DeclRule} (h : decls.Perm Grammar.standard.decls) (kind : TokenKind) :
    decls.filter (·.begins kind) = Grammar.standard.decls.filter (·.begins kind) := by
  apply filter_eq_of_perm h
  cases kind with
  | keyword k => cases k <;> exact .inl (by decide)
  | _ => exact .inl (Nat.zero_le 1)

private def Grammar.arranged (callFirst assignFirst : Bool) : Grammar :=
  ⟨Grammar.standard.decls, arrangedStmts assignFirst, arrangedValues callFirst⟩

private def functionTokens (body : List TokenKind) : List Token :=
  let opening : List TokenKind := [.keyword .func, .ident "main", .punct .lparen, .punct .rparen, .punct .lbrace]
  let closing : List TokenKind := [.punct .rbrace, .endOfInput]
  (opening ++ body ++ closing).map (⟨·, 0⟩)

private def callTokens : List Token :=
  functionTokens [.ident "main", .punct .lparen, .punct .rparen, .punct .semicolon]

private def assignTokens : List Token :=
  functionTokens [.ident "x", .punct .assign, .number 1, .punct .semicolon]

private theorem standard_reads : ∃ tree tree', Grammar.standard.parse callTokens = .ok tree ∧
    Grammar.standard.parse assignTokens = .ok tree' :=
  ⟨_, _, rfl, rfl⟩

private theorem arranged_refuses_call (assignFirst : Bool) :
    ∃ e, (Grammar.arranged false assignFirst).parse callTokens = .error e := by
  cases assignFirst <;> exact ⟨_, rfl⟩

private theorem arranged_refuses_assign (callFirst : Bool) :
    ∃ e, (Grammar.arranged callFirst false).parse assignTokens = .error e := by
  cases callFirst <;> exact ⟨_, rfl⟩

/-- The standard rules in any order read all tokens as the standard registry does, exactly if calls come before
variables and assignments before expressions. -/
theorem order_matters_only_where_rules_overlap {g : Grammar} (hdecls : g.decls.Perm Grammar.standard.decls)
    (hstmts : g.stmts.Perm Grammar.standard.stmts) (hvalues : g.values.Perm Grammar.standard.values) :
    (∀ tokens, g.parse tokens = Grammar.standard.parse tokens) ↔
      List.Sublist [.call, .named] g.values ∧ List.Sublist [.assign, .expression] g.stmts := by
  have hsame (callFirst assignFirst : Bool) (hcall : List.Sublist (pairOf callFirst .call .named) g.values)
      (hassign : List.Sublist (pairOf assignFirst .assign .expression) g.stmts) :
      g.SameOrder (.arranged callFirst assignFirst) :=
    ⟨filter_decls_eq hdecls, filter_stmts_eq hstmts hassign, filter_values_eq hvalues hcall⟩
  constructor
  · intro heq
    have hvalue (rule : ValueRule) (hrule : rule ∈ Grammar.standard.values) : rule ∈ g.values :=
      hvalues.mem_iff.mpr hrule
    have hstmt (rule : StmtRule) (hrule : rule ∈ Grammar.standard.stmts) : rule ∈ g.stmts := hstmts.mem_iff.mpr hrule
    obtain ⟨callFirst, hcall⟩ :=
      exists_pairOf_sublist (hvalue .call (by decide)) (hvalue .named (by decide)) (by decide)
    obtain ⟨assignFirst, hassign⟩ :=
      exists_pairOf_sublist (hstmt .assign (by decide)) (hstmt .expression (by decide)) (by decide)
    have hparse := (hsame callFirst assignFirst hcall hassign).parse_eq
    obtain ⟨tree, tree', htree, htree'⟩ := standard_reads
    cases callFirst with
    | false =>
      obtain ⟨e, he⟩ := arranged_refuses_call assignFirst
      have hread := heq callTokens
      rw [hparse, he, htree] at hread
      cases hread
    | true =>
      cases assignFirst with
      | false =>
        obtain ⟨e, he⟩ := arranged_refuses_assign true
        have hread := heq assignTokens
        rw [hparse, he, htree'] at hread
        cases hread
      | true => exact ⟨hcall, hassign⟩
  · intro horder
    exact (hsame true true horder.1 horder.2).parse_eq

/-- A registry in which nothing but the two pairs stands as in the standard one. -/
def shuffledGrammar : Grammar where
  decls := [.global, .function]
  stmts := [.assign, .write, .ret, .expression, .var, .loop, .cond, .scope]
  values := [.parentheses, .call, .integer, .named]

theorem order_matters_only_where_rules_overlap_of_shuffled :
    shuffledGrammar.decls.Perm Grammar.standard.decls ∧ shuffledGrammar.stmts.Perm Grammar.standard.stmts ∧
      shuffledGrammar.values.Perm Grammar.standard.values ∧
      ∀ tokens, shuffledGrammar.parse tokens = Grammar.standard.parse tokens := by
  have hdecls : shuffledGrammar.decls.Perm Grammar.standard.decls := by decide
  have hstmts : shuffledGrammar.stmts.Perm Grammar.standard.stmts := by decide
  have hvalues : shuffledGrammar.values.Perm Grammar.standard.values := by decide
  refine ⟨hdecls, hstmts, hvalues, ?_⟩
  exact (order_matters_only_where_rules_overlap hdecls hstmts hvalues).mpr ⟨by decide, by decide⟩

end StackToolchain.Source
