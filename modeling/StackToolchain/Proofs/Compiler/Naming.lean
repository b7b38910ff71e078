import StackToolchain.Proofs.Compiler.Fragments
import StackToolchain.Proofs.Source.Evaluation

/-! Names and scopes.
The scope in which a piece of source is compiled gives every name the place of what it stands for. This is kept
by statements, by parameters and by declarations. The code of every function and the record of every global
variable then stands in the generated program. -/
namespace StackToolchain

open Source

namespace Source

def LocalVar.offset (params : Nat) : LocalVar → Int
  | .param i => -4 - 2 * ((params - i : Nat) : Int)
  | .var k => 2 * k

/-- A variable is one of a frame with a number of parameters and of other variables, and a signed byte holds its
place. -/
def LocalVar.Within (params vars : Nat) (v : LocalVar) : Prop :=
  (match v with
    | .param i => i < params
    | .var k => k < vars) ∧ -128 ≤ v.offset params ∧ v.offset params ≤ 127

theorem LocalVar.Within.mono {params vars vars' : Nat} {v : LocalVar} (h : v.Within params vars) (hle : vars ≤ vars') :
    v.Within params vars' := by
  cases v with
  | param i => exact h
  | var k => exact ⟨h.1.trans_le hle, h.2⟩

def arity (tree : Tree) (index : Nat) : Nat :=
  match tree[index]? with
  | some (.func _ params _ _) => params.length
  | _ => 0

def Referent.binding (tree : Tree) (params : Nat) : Referent → Binding
  | .function index => .function (arity tree index)
  | .own v => .slot (Int8.ofInt (v.offset params))
  | .global name => .global (globalLabel name)

end Source

structure Agrees (tree : Tree) (params : Nat) (names : Names) (scope : Scope) : Prop where
  binding : ∀ x, scope.get? x = (names.find x).map (Referent.binding tree params)
  own : ∀ x v, names.find x = some (.own v) → v.Within params names.vars
  function : ∀ x i, names.find x = some (.function i) → ∃ ps body o, tree[i]? = some (.func x ps body o)
  global : ∀ x g, names.find x = some (.global g) → .global g ∈ tree

theorem frameOffset?_eq_some {n : Int} {off : Int8} :
    frameOffset? n = some off ↔ (-128 ≤ n ∧ n ≤ 127) ∧ off = Int8.ofInt n := by
  unfold frameOffset?
  split
  · rename_i h
    simp [h, eq_comm]
  · rename_i h
    simp [h]

namespace Agrees

variable {tree : Tree} {params : Nat} {names : Names} {scope : Scope}

/-- A name is bound to a variable. -/
theorem rebind (h : Agrees tree params names scope) {vars : Nat} (hle : names.vars ≤ vars) (x : String) {v : LocalVar}
    (hv : v.Within params vars) :
    Agrees tree params ⟨Source.rebind names.find x (.own v), vars⟩
      (scope.insert x (.slot (Int8.ofInt (v.offset params)))) where
  binding y := by
    rw [Table.get?_insert]
    simp only [Source.rebind]
    split
    · rfl
    · exact h.binding y
  own y w hw := by
    simp only [Source.rebind] at hw
    split at hw
    · cases hw
      exact hv
    · exact (h.own y w hw).mono hle
  function y i hi := by
    simp only [Source.rebind] at hi
    split at hi
    · cases hi
    · exact h.function y i hi
  global y g hg := by
    simp only [Source.rebind] at hg
    split at hg
    · cases hg
    · exact h.global y g hg

private theorem widen (h : Agrees tree params names scope) {vars : Nat} (hle : names.vars ≤ vars) :
    Agrees tree params ⟨names.find, vars⟩ scope :=
  ⟨h.binding, fun x v hv => (h.own x v hv).mono hle, h.function, h.global⟩

/-- A call is bound to a function that has as many parameters. -/
theorem of_arity (h : Agrees tree params names scope) {x : String} {offset : Option Nat} {n : Nat}
    (ha : scope.arity x offset = .ok n) :
    ∃ i ps body o, names.find x = some (.function i) ∧ tree[i]? = some (.func x ps body o) ∧ ps.length = n := by
  have hb := h.binding x
  rw [Scope.arity_eq_ok.mp ha, eq_comm, Option.map_eq_some_iff] at hb
  obtain ⟨r, hr, hb⟩ := hb
  cases r <;> cases hb
  rename_i i
  obtain ⟨ps, body, o, hi⟩ := h.function x i hr
  exact ⟨i, ps, body, o, hr, hi, by rw [arity, hi]⟩

/-- A variable is bound to its place in the frame, or to its record. -/
theorem of_cell (h : Agrees tree params names scope) {x : String} {offset : Option Nat} {cell : Cell}
    (hc : scope.cell x offset = .ok cell) :
    (∃ v, names.find x = some (.own v) ∧ v.Within params names.vars ∧ cell = .frame (Int8.ofInt (v.offset params))) ∨
      ∃ g, names.find x = some (.global g) ∧ .global g ∈ tree ∧ cell = .record (globalLabel g) := by
  have hb := h.binding x
  rcases Scope.cell_eq_ok.mp hc with ⟨off, hs, rfl⟩ | ⟨label, hs, rfl⟩
  · rw [hs, eq_comm, Option.map_eq_some_iff] at hb
    obtain ⟨r, hr, hb⟩ := hb
    cases r <;> cases hb
    exact .inl ⟨_, hr, h.own _ _ hr, rfl⟩
  · rw [hs, eq_comm, Option.map_eq_some_iff] at hb
    obtain ⟨r, hr, hb⟩ := hb
    cases r <;> cases hb
    exact .inr ⟨_, hr, h.global _ _ hr, rfl⟩

end Agrees

/-- The slots drawn so far are those of the variables declared so far, which are as many as signed bytes reach. -/
def BodyState.Counts (st : BodyState) (names : Names) : Prop :=
  st.slots.next = 2 * names.vars ∧ names.vars ≤ 64

theorem BodyState.Counts.withIds {st : BodyState} {names : Names} (h : st.Counts names) (ids : LabelSupply) :
    BodyState.Counts { st with ids } names :=
  h

/-- The next slot is given to the next variable. -/
theorem addLocal_agrees {tree : Tree} {params : Nat} {names : Names} {scope : Scope} {st st' : BodyState}
    {function name : String} {off : Int8} (ha : Agrees tree params names scope) (hc : st.Counts names)
    (h : st.addLocal function name = .ok (off, st')) :
    off = Int8.ofInt (LocalVar.offset params (.var names.vars)) ∧
      (LocalVar.var names.vars).Within params (names.vars + 1) ∧
      Agrees tree params ⟨rebind names.find name (.own (.var names.vars)), names.vars + 1⟩
        (scope.insert name (.slot off)) ∧
      st'.Counts ⟨rebind names.find name (.own (.var names.vars)), names.vars + 1⟩ := by
  obtain ⟨ho, rfl⟩ := addLocal_eq_ok.mp h
  obtain ⟨hrange, rfl⟩ := frameOffset?_eq_some.mp ho
  have hoff : ((st.slots.next : Nat) : Int) = LocalVar.offset params (.var names.vars) := by
    rw [hc.1]
    simp [LocalVar.offset]
  rw [hoff] at hrange ⊢
  have hw : (LocalVar.var names.vars).Within params (names.vars + 1) := ⟨Nat.lt_succ_self _, hrange⟩
  refine ⟨rfl, hw, ha.rebind (Nat.le_succ _) name hw, ?_⟩
  simp only [BodyState.Counts, LocalVar.offset] at hc hrange ⊢
  omega

section
variable {tree : Tree} {params : Nat} {function : String}

mutual

/-- A statement keeps names and scope in agreement. -/
theorem compileStmt_agrees : (s : Stmt) →
    ∀ {names : Names} {scope scope' : Scope} {st st' : BodyState} {code : Program},
    Agrees tree params names scope → st.Counts names → compileStmt function s scope st = .ok (code, scope', st') →
      Agrees tree params (names.after s) scope' ∧ st'.Counts (names.after s) ∧ names.vars ≤ (names.after s).vars
  | .scope body, names, scope, scope', st, st', code, ha, hc, h => by
    obtain ⟨hb, rfl⟩ := compileStmt_scope.mp h
    obtain ⟨hc', hle⟩ := compileStmts_counts body ha hc hb
    exact ⟨ha.widen hle, hc', hle⟩
  | .var name none offset, names, scope, scope', st, st', code, ha, hc, h => by
    obtain ⟨off, hl, rfl, rfl⟩ := compileStmt_var_none.mp h
    obtain ⟨-, -, ha', hc'⟩ := addLocal_agrees ha hc hl
    exact ⟨ha', hc', Nat.le_succ _⟩
  | .var name (some value) offset, names, scope, scope', st, st', code, ha, hc, h => by
    obtain ⟨off, mid, c, ids, hl, rfl, -, -, rfl⟩ := compileStmt_var_some.mp h
    obtain ⟨-, -, ha', hc'⟩ := addLocal_agrees ha hc hl
    exact ⟨ha', hc', Nat.le_succ _⟩
  | .assign name value offset, names, scope, scope', st, st', code, ha, hc, h => by
    obtain ⟨cell, c, ids, -, -, -, rfl, rfl⟩ := compileStmt_assign.mp h
    exact ⟨ha, hc, le_rfl⟩
  | .write addr value, names, scope, scope', st, st', code, ha, hc, h => by
    obtain ⟨a, mid, v, ids, -, -, -, rfl, rfl⟩ := compileStmt_write.mp h
    exact ⟨ha, hc, le_rfl⟩
  | .ret none, names, scope, scope', st, st', code, ha, hc, h => by
    obtain ⟨-, rfl, rfl⟩ := compileStmt_ret_none.mp h
    exact ⟨ha, hc, le_rfl⟩
  | .ret (some value), names, scope, scope', st, st', code, ha, hc, h => by
    obtain ⟨c, ids, -, -, rfl, rfl⟩ := compileStmt_ret_some.mp h
    exact ⟨ha, hc, le_rfl⟩
  | .cond test body, names, scope, scope', st, st', code, ha, hc, h => by
    obtain ⟨t, ids, b, -, hb, -⟩ := compileStmt_cond.mp h
    exact compileStmt_agrees body ha (hc.withIds _) hb
  | .loop test body, names, scope, scope', st, st', code, ha, hc, h => by
    obtain ⟨t, ids, b, -, hb, -⟩ := compileStmt_loop.mp h
    exact compileStmt_agrees body ha (hc.withIds _) hb
  | .expr value, names, scope, scope', st, st', code, ha, hc, h => by
    obtain ⟨ids, -, rfl, rfl⟩ := compileStmt_expr.mp h
    exact ⟨ha, hc, le_rfl⟩

/-- The statements of a scope draw the slots of their variables. -/
theorem compileStmts_counts : (body : List Stmt) →
    ∀ {names : Names} {scope : Scope} {st st' : BodyState} {code : Program},
    Agrees tree params names scope → st.Counts names → compileStmts function [] body scope st = .ok (code, st') →
      st'.Counts (names.afterAll body) ∧ names.vars ≤ (names.afterAll body).vars
  | [], names, scope, st, st', code, ha, hc, h => by
    obtain ⟨-, rfl⟩ := compileStmts_nil.mp h
    exact ⟨hc, le_rfl⟩
  | s :: rest, names, scope, st, st', code, ha, hc, h => by
    obtain ⟨c, sc, mid, cs, hs, hr, -⟩ := compileStmts_cons.mp h
    obtain ⟨ha', hc', hle⟩ := compileStmt_agrees s ha hc hs
    obtain ⟨hc'', hle'⟩ := compileStmts_counts rest ha' hc' hr
    exact ⟨hc'', hle.trans hle'⟩

end

end

end StackToolchain
