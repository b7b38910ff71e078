import StackToolchain.Proofs.Source.ParsedTokens

/-! Reading goes forward.
Whatever the rules of a registry are and in whatever order they stand, a rule that gives a node has passed at least one
token and has not passed the end. -/
namespace StackToolchain.Source

def Cursor.Reaches (c c' : Cursor) : Prop :=
  ∃ kinds, c.Passes kinds c' ∧ .endOfInput ∉ kinds

/-- At least one token leads from a cursor to another, and none of them is the end. -/
def Cursor.Advances (c c' : Cursor) : Prop :=
  c.Reaches c' ∧ c'.rest.length < c.rest.length

namespace Cursor

variable {c c' c'' : Cursor} {p : Punct} {k : Keyword} {message name : String}

private theorem Reaches.refl (c : Cursor) : c.Reaches c :=
  ⟨[], .refl c, List.not_mem_nil⟩

private theorem Reaches.trans (h : c.Reaches c') (h' : c'.Reaches c'') : c.Reaches c'' := by
  obtain ⟨kinds, hpass, hend⟩ := h
  obtain ⟨more, hpass', hend'⟩ := h'
  exact ⟨kinds ++ more, hpass.trans hpass', by simp [hend, hend']⟩

theorem Reaches.length_le (h : c.Reaches c') : c'.rest.length ≤ c.rest.length := by
  obtain ⟨kinds, hpass, -⟩ := h
  rw [hpass.length]
  exact Nat.le_add_left _ _

theorem Advances.reaches (h : c.Advances c') : c.Reaches c' := h.1

theorem Advances.trans_reaches (h : c.Advances c') (h' : c'.Reaches c'') : c.Advances c'' :=
  ⟨h.1.trans h', h'.length_le.trans_lt h.2⟩

theorem advances_next (hk : c.kind ≠ .endOfInput) : c.Advances c.next := by
  have hpass := passes_next rfl hk
  refine ⟨⟨_, hpass, ?_⟩, ?_⟩
  · rw [List.mem_singleton]
    exact hk.symm
  · rw [hpass.length]
    exact Nat.lt_add_of_pos_left Nat.one_pos

theorem advances_next_of_atPunct (h : c.atPunct p = true) : c.Advances c.next :=
  advances_next (by simp [atPunct_iff.mp h])

theorem advances_next_of_atKeyword (h : c.atKeyword k = true) : c.Advances c.next :=
  advances_next (by simp [atKeyword_iff.mp h])

theorem advances_of_expect (h : c.expect p message = .ok c') : c.Advances c' := by
  obtain ⟨hk, rfl⟩ := expect_eq_ok.mp h
  exact advances_next (by simp [hk])

theorem advances_of_expectName (h : c.expectName message = .ok (name, c')) : c.Advances c' := by
  obtain ⟨hk, rfl⟩ := expectName_eq_ok.mp h
  exact advances_next (by simp [hk])

end Cursor

open Cursor (Reaches Advances advances_next advances_next_of_atPunct advances_next_of_atKeyword advances_of_expect
  advances_of_expectName)

def Rule.Advancing {α : Type} (rule : Rule α) : Prop :=
  ∀ ⦃c a c'⦄, rule c = .ok (some (a, c')) → c.Advances c'

def Reader.Advancing {α : Type} (reader : Reader α) : Prop :=
  ∀ ⦃c a c'⦄, reader c = .ok (a, c') → c.Advances c'

theorem firstMatch_advancing {α ι : Type} {parse : ι → Rule α} (h : ∀ rule, Rule.Advancing (parse rule))
    (rules : List ι) : Rule.Advancing (firstMatch (rules.map parse)) := by
  intro c a c' hmatch
  induction rules with
  | nil => cases hmatch
  | cons rule rules ih =>
    rw [List.map_cons, firstMatch] at hmatch
    split at hmatch
    · exact ih hmatch
    · exact h rule hmatch

theorem require_advancing {α : Type} {rule : Rule α} (h : Rule.Advancing rule) (message : String) :
    Reader.Advancing fun c => require rule c message := by
  intro c a c' hrequire
  exact h (require_eq_ok.mp hrequire)

section
variable {value expr : Rule Expr} {limit : Nat} {c c' : Cursor}

private theorem joinOperands_reaches (hv : Rule.Advancing value) {left e : Expr}
    (h : joinOperands value limit left c = .ok (e, c')) : c.Reaches c' := by
  induction limit generalizing left c with
  | zero =>
    cases h
    exact .refl _
  | succ limit ih =>
    rw [joinOperands] at h
    cases ho : c.operator? with
    | none =>
      rw [ho] at h
      cases h
      exact .refl _
    | some op =>
      rw [ho] at h
      obtain ⟨⟨right, after⟩, hr, h⟩ := bind_eq_ok.mp h
      have hnext : c.Advances c.next := advances_next (by simp [Cursor.kind_of_operator? ho])
      exact hnext.reaches.trans ((require_advancing hv _ hr).reaches.trans (ih h))

theorem expressionOf_advancing (hv : Rule.Advancing value) : Rule.Advancing (expressionOf value limit) := by
  intro c e c' h
  obtain ⟨outcome, ho, h⟩ := bind_eq_ok.mp h
  cases outcome with
  | none => cases h
  | some left =>
    obtain ⟨⟨e, c'⟩, hj, h⟩ := bind_eq_ok.mp h
    cases h
    exact (hv ho).trans_reaches (joinOperands_reaches hv hj)

private theorem argumentsFrom_reaches (hx : Rule.Advancing expr) {done args : List Expr}
    (h : argumentsFrom expr limit done c = .ok (args, c')) : c.Reaches c' := by
  induction limit generalizing done c with
  | zero => cases h
  | succ limit ih =>
    obtain ⟨⟨arg, after⟩, ha, h⟩ := bind_eq_ok.mp h
    have harg := (require_advancing hx _ ha).reaches
    dsimp only at h
    split at h
    · rename_i hcomma
      exact harg.trans ((advances_next_of_atPunct hcomma).reaches.trans (ih h))
    · cases h
      exact harg

private theorem arguments_reaches (hx : Rule.Advancing expr) {args : List Expr}
    (h : arguments expr limit c = .ok (args, c')) : c.Reaches c' := by
  unfold arguments at h
  split at h
  · cases h
    exact .refl c
  · exact argumentsFrom_reaches hx h

theorem ValueRule.parse_advancing (hv : Rule.Advancing value) (hx : Rule.Advancing expr) (rule : ValueRule) :
    Rule.Advancing (rule.parse value expr limit) := by
  intro c e c' h
  cases rule with
  | integer | named =>
    simp only [ValueRule.parse] at h
    split at h
    · rename_i hk
      cases h
      exact advances_next (by simp [hk])
    · cases h
  | call =>
    simp only [ValueRule.parse] at h
    split at h
    · rename_i hk
      split at h
      · rename_i hp
        obtain ⟨⟨args, mid⟩, ha, h⟩ := bind_eq_ok.mp h
        obtain ⟨after, hr, h⟩ := bind_pure_eq_ok.mp h
        cases h
        have hargs := (arguments_reaches hx ha).trans (advances_of_expect hr).reaches
        have hname : c.Advances c.next := advances_next (by simp [hk])
        exact hname.trans_reaches ((advances_next_of_atPunct hp).reaches.trans hargs)
      · cases h
    · cases h
  | parentheses =>
    simp only [ValueRule.parse] at h
    split at h
    · rename_i hp
      obtain ⟨⟨inner, mid⟩, hi, h⟩ := bind_eq_ok.mp h
      obtain ⟨after, hr, h⟩ := bind_pure_eq_ok.mp h
      cases h
      have hinner := (require_advancing hx _ hi).reaches.trans (advances_of_expect hr).reaches
      exact (advances_next_of_atPunct hp).trans_reaches hinner
    · cases h
  | negate =>
    simp only [ValueRule.parse] at h
    split at h
    · rename_i hp
      obtain ⟨⟨operand, after⟩, ho, h⟩ := bind_pure_eq_ok.mp h
      cases h
      exact (advances_next_of_atPunct hp).trans_reaches (require_advancing hv _ ho).reaches
    · cases h

end

theorem Grammar.value_advancing (g : Grammar) (limit : Nat) : Rule.Advancing (g.value limit) := by
  induction limit with
  | zero =>
    intro c e c' h
    cases h
  | succ limit ih =>
    exact firstMatch_advancing (ValueRule.parse_advancing ih (expressionOf_advancing ih)) g.values

theorem Grammar.expression_advancing (g : Grammar) (limit : Nat) : Rule.Advancing (g.expression limit) :=
  expressionOf_advancing (g.value_advancing limit)

section
variable {expr : Rule Expr} {stmt : Reader Stmt} {limit : Nat} {c c' : Cursor}

private theorem statementsFrom_reaches (hs : Reader.Advancing stmt) {done body : List Stmt}
    (h : statementsFrom stmt limit done c = .ok (body, c')) : c.Reaches c' := by
  induction limit generalizing done c with
  | zero => cases h
  | succ limit ih =>
    rw [statementsFrom] at h
    split at h
    · rename_i hk
      cases h
      exact (advances_next (by simp [hk])).reaches
    · cases h
    · obtain ⟨⟨s, after⟩, hfirst, h⟩ := bind_eq_ok.mp h
      exact (hs hfirst).reaches.trans (ih h)

private theorem block_advancing (hs : Reader.Advancing stmt) : Rule.Advancing (block stmt limit) := by
  intro c body c' h
  unfold block at h
  split at h
  · rename_i hp
    obtain ⟨⟨body, after⟩, hb, h⟩ := bind_pure_eq_ok.mp h
    cases h
    exact (advances_next_of_atPunct hp).trans_reaches (statementsFrom_reaches hs hb)
  · cases h

private theorem initializer_reaches (hx : Rule.Advancing expr) {init : Option Expr}
    (h : initializer expr c = .ok (init, c')) : c.Reaches c' := by
  unfold initializer at h
  split at h
  · rename_i hp
    obtain ⟨⟨value, after⟩, hv, h⟩ := bind_pure_eq_ok.mp h
    cases h
    exact (advances_next_of_atPunct hp).reaches.trans (require_advancing hx _ hv).reaches
  · cases h
    exact .refl c

private theorem optional_reaches (hx : Rule.Advancing expr) {value : Option Expr}
    (h : optional expr c = .ok (value, c')) : c.Reaches c' := by
  obtain ⟨outcome, ho, h⟩ := bind_eq_ok.mp h
  cases outcome with
  | none =>
    cases h
    exact .refl c
  | some result =>
    cases h
    exact (hx ho).reaches

theorem StmtRule.parse_advancing (hx : Rule.Advancing expr) (hs : Reader.Advancing stmt) (rule : StmtRule) :
    Rule.Advancing (rule.parse expr stmt limit) := by
  intro c s c' h
  cases rule with
  | scope =>
    obtain ⟨outcome, ho, h⟩ := bind_eq_ok.mp h
    cases outcome with
    | none => cases h
    | some result =>
      cases h
      exact block_advancing hs ho
  | cond | loop =>
    simp only [StmtRule.parse] at h
    split at h
    · rename_i hk
      obtain ⟨⟨test, mid⟩, ht, h⟩ := bind_eq_ok.mp h
      obtain ⟨⟨body, after⟩, hb, h⟩ := bind_pure_eq_ok.mp h
      cases h
      have htest := (require_advancing hx _ ht).reaches.trans (hs hb).reaches
      exact (advances_next_of_atKeyword hk).trans_reaches htest
    · cases h
  | var =>
    simp only [StmtRule.parse] at h
    split at h
    · rename_i hk
      obtain ⟨⟨name, mid⟩, hn, h⟩ := bind_eq_ok.mp h
      obtain ⟨⟨init, last⟩, hi, h⟩ := bind_eq_ok.mp h
      obtain ⟨after, hr, h⟩ := bind_pure_eq_ok.mp h
      cases h
      have hinit := (initializer_reaches hx hi).trans (advances_of_expect hr).reaches
      exact (advances_next_of_atKeyword hk).trans_reaches ((advances_of_expectName hn).reaches.trans hinit)
    · cases h
  | ret =>
    simp only [StmtRule.parse] at h
    split at h
    · rename_i hk
      obtain ⟨⟨value, mid⟩, hv, h⟩ := bind_eq_ok.mp h
      obtain ⟨after, hr, h⟩ := bind_pure_eq_ok.mp h
      cases h
      have hvalue := (optional_reaches hx hv).trans (advances_of_expect hr).reaches
      exact (advances_next_of_atKeyword hk).trans_reaches hvalue
    · cases h
  | write =>
    simp only [StmtRule.parse] at h
    split at h
    · rename_i hk
      obtain ⟨⟨addr, mid⟩, ha, h⟩ := bind_eq_ok.mp h
      obtain ⟨⟨value, last⟩, hv, h⟩ := bind_eq_ok.mp h
      obtain ⟨after, hr, h⟩ := bind_pure_eq_ok.mp h
      cases h
      have hvalue := (require_advancing hx _ hv).reaches.trans (advances_of_expect hr).reaches
      exact (advances_next_of_atKeyword hk).trans_reaches ((require_advancing hx _ ha).reaches.trans hvalue)
    · cases h
  | assign =>
    simp only [StmtRule.parse] at h
    split at h
    · rename_i hk
      split at h
      · rename_i hp
        obtain ⟨⟨value, mid⟩, hv, h⟩ := bind_eq_ok.mp h
        obtain ⟨after, hr, h⟩ := bind_pure_eq_ok.mp h
        cases h
        have hname : c.Advances c.next := advances_next (by simp [hk])
        have hvalue := (require_advancing hx _ hv).reaches.trans (advances_of_expect hr).reaches
        exact hname.trans_reaches ((advances_next_of_atPunct hp).reaches.trans hvalue)
      · cases h
    · cases h
  | expression =>
    obtain ⟨outcome, ho, h⟩ := bind_eq_ok.mp h
    cases outcome with
    | none => cases h
    | some result =>
      obtain ⟨after, hr, h⟩ := bind_pure_eq_ok.mp h
      cases h
      exact (hx ho).trans_reaches (advances_of_expect hr).reaches

end

private theorem noStatement_ne_ok {c : Cursor} {r : Read Stmt} : noStatement c ≠ .ok r := by
  unfold noStatement
  split <;> simp [Cursor.fail]

theorem Grammar.statement_advancing (g : Grammar) (limit : Nat) : Reader.Advancing (g.statement limit) := by
  induction limit with
  | zero =>
    intro c s c' h
    exact absurd h noStatement_ne_ok
  | succ limit ih =>
    intro c s c' h
    have hrules (rule : StmtRule) :
        Rule.Advancing (rule.parse (g.expression (limit + 1)) (g.statement limit) limit) :=
      rule.parse_advancing (g.expression_advancing (limit + 1)) ih
    simp only [Grammar.statement] at h
    split at h
    · cases h
    · exact absurd h noStatement_ne_ok
    · rename_i result hresult
      cases h
      exact firstMatch_advancing hrules g.stmts hresult

section
variable {stmt : Reader Stmt} {limit : Nat} {c c' : Cursor}

private theorem parametersFrom_reaches {done params : List String}
    (h : parametersFrom limit done c = .ok (params, c')) : c.Reaches c' := by
  induction limit generalizing done c with
  | zero => cases h
  | succ limit ih =>
    obtain ⟨⟨name, after⟩, hn, h⟩ := bind_eq_ok.mp h
    have hname := (advances_of_expectName hn).reaches
    dsimp only at h
    split at h
    · rename_i hcomma
      exact hname.trans ((advances_next_of_atPunct hcomma).reaches.trans (ih h))
    · cases h
      exact hname

theorem parameters_reaches {params : List String} (h : parameters limit c = .ok (params, c')) : c.Reaches c' := by
  unfold parameters at h
  split at h
  · cases h
    exact .refl c
  · exact parametersFrom_reaches h

theorem DeclRule.parse_advancing (hs : Reader.Advancing stmt) (rule : DeclRule) :
    Rule.Advancing (rule.parse stmt limit) := by
  intro c decl c' h
  cases rule with
  | function =>
    simp only [DeclRule.parse] at h
    split at h
    · rename_i hk
      obtain ⟨⟨name, afterName⟩, hn, h⟩ := bind_eq_ok.mp h
      obtain ⟨afterOpen, ho, h⟩ := bind_eq_ok.mp h
      obtain ⟨⟨params, afterParams⟩, hp, h⟩ := bind_eq_ok.mp h
      obtain ⟨afterClose, hr, h⟩ := bind_eq_ok.mp h
      obtain ⟨⟨body, after⟩, hb, h⟩ := bind_pure_eq_ok.mp h
      cases h
      have hhead := (advances_of_expectName hn).reaches.trans (advances_of_expect ho).reaches
      have hparams := (parameters_reaches hp).trans (advances_of_expect hr).reaches
      have hbody := (require_advancing (block_advancing hs) _ hb).reaches
      exact (advances_next_of_atKeyword hk).trans_reaches (hhead.trans (hparams.trans hbody))
    · cases h
  | global =>
    simp only [DeclRule.parse] at h
    split at h
    · rename_i hk
      obtain ⟨⟨name, mid⟩, hn, h⟩ := bind_eq_ok.mp h
      obtain ⟨after, hr, h⟩ := bind_pure_eq_ok.mp h
      cases h
      have hname := (advances_of_expectName hn).reaches.trans (advances_of_expect hr).reaches
      exact (advances_next_of_atKeyword hk).trans_reaches hname
    · cases h

end

end StackToolchain.Source
