import StackToolchain.Compiler.Generate
import StackToolchain.Proofs.Assembly.Encoding

/-! What a successful compilation of each kind of node consists of.
One equivalence for every form of expression, statement and declaration; proofs about compiled code start from
these and do not open the compiler again. -/
namespace StackToolchain

open Source (Expr Stmt Decl Tree)

section
variable {scope : Scope} {ids ids' : LabelSupply} {code : Program}

theorem compileExpr_int {n : UInt16} :
    compileExpr scope (.int n) ids = .ok (code, ids') ↔ code = [.inst (.imm .rret n)] ∧ ids' = ids := by
  simp [compileExpr, eq_comm]

theorem compileExpr_var {name : String} {offset : Nat} :
    compileExpr scope (.var name offset) ids = .ok (code, ids') ↔
      ∃ cell, scope.cell name (some offset) = .ok cell ∧ code = cell.load ∧ ids' = ids := by
  simp only [compileExpr, bind_eq_ok, pure, Except.pure, Except.ok.injEq, Prod.mk.injEq]
  constructor
  · rintro ⟨cell, hc, rfl, rfl⟩
    exact ⟨cell, hc, rfl, rfl⟩
  · rintro ⟨cell, hc, rfl, rfl⟩
    exact ⟨cell, hc, rfl, rfl⟩

theorem compileExpr_paren {inner : Expr} :
    compileExpr scope (.paren inner) ids = .ok (code, ids') ↔ compileExpr scope inner ids = .ok (code, ids') := by
  simp [compileExpr]

theorem compileExpr_binary {left right : Expr} {op : AluOp} :
    compileExpr scope (.binary left op right) ids = .ok (code, ids') ↔
      ∃ l mid r, compileExpr scope left ids = .ok (l, mid) ∧ compileExpr scope right mid = .ok (r, ids') ∧
        code = binaryCode op l r := by
  simp only [compileExpr, bind_eq_ok, pure, Except.pure, Except.ok.injEq, Prod.mk.injEq, Prod.exists]
  constructor
  · rintro ⟨l, mid, hl, r, _, hr, rfl, rfl⟩
    exact ⟨l, mid, r, hl, hr, rfl⟩
  · rintro ⟨l, mid, r, hl, hr, rfl⟩
    exact ⟨l, mid, hl, r, ids', hr, rfl, rfl⟩

theorem compileExpr_call {name : String} {args : List Expr} {offset : Nat} :
    compileExpr scope (.call name args offset) ids = .ok (code, ids') ↔
      ∃ codes mid, scope.arity name (some offset) = .ok args.length ∧ compileArgs scope args ids = .ok (codes, mid) ∧
        (code, ids') = callCode name codes mid := by
  simp only [compileExpr, bind_eq_ok]
  constructor
  · rintro ⟨arity, ha, h⟩
    split at h
    · rename_i hn
      obtain ⟨⟨codes, mid⟩, hc, h⟩ := bind_eq_ok.mp h
      cases h
      exact ⟨codes, mid, hn ▸ ha, hc, rfl⟩
    · cases h
  · rintro ⟨codes, mid, ha, hc, h⟩
    refine ⟨args.length, ha, ?_⟩
    rw [if_pos rfl, bind_eq_ok]
    exact ⟨(codes, mid), hc, by rw [h]; rfl⟩

theorem compileArgs_nil {codes : List Program} :
    compileArgs scope [] ids = .ok (codes, ids') ↔ codes = [] ∧ ids' = ids := by
  simp [compileArgs, eq_comm]

theorem compileArgs_cons {arg : Expr} {rest : List Expr} {codes : List Program} :
    compileArgs scope (arg :: rest) ids = .ok (codes, ids') ↔
      ∃ c mid cs, compileExpr scope arg ids = .ok (c, mid) ∧ compileArgs scope rest mid = .ok (cs, ids') ∧
        codes = c :: cs := by
  simp only [compileArgs, bind_eq_ok, pure, Except.pure, Except.ok.injEq, Prod.mk.injEq, Prod.exists]
  constructor
  · rintro ⟨c, mid, hc, cs, _, hr, rfl, rfl⟩
    exact ⟨c, mid, cs, hc, hr, rfl⟩
  · rintro ⟨c, mid, cs, hc, hr, rfl⟩
    exact ⟨c, mid, hc, cs, ids', hr, rfl, rfl⟩

/-- The code of a call, with its own label drawn after those of its arguments. -/
theorem callCode_eq (name : String) (codes : List Program) (ids : LabelSupply) :
    callCode name codes ids =
      (codes.flatMap (· ++ [.inst (.push .rret)]) ++
        ([.inst (.immLabel .raddr (ids.fresh "call_ret").1), .inst (.push .raddr), .inst (.jmp (functionLabel name)),
          .label (ids.fresh "call_ret").1] ++ List.replicate codes.length (.inst (.pop .raddr))),
        (ids.fresh "call_ret").2) := by
  simp [callCode]

end

namespace Scope

variable {scope : Scope} {name : String} {offset : Option Nat}

theorem arity_eq_ok {n : Nat} : scope.arity name offset = .ok n ↔ scope.get? name = some (.function n) := by
  simp only [arity, binding, bind_eq_ok]
  cases scope.get? name with
  | none => simp
  | some b => cases b <;> simp [pure, Except.pure, throw, throwThe, MonadExceptOf.throw]

theorem cell_eq_ok {cell : Cell} : scope.cell name offset = .ok cell ↔
    (∃ off, scope.get? name = some (.slot off) ∧ cell = .frame off) ∨
      (∃ label, scope.get? name = some (.global label) ∧ cell = .record label) := by
  simp only [Scope.cell, binding, bind_eq_ok]
  cases scope.get? name with
  | none => simp
  | some b => cases b <;> simp [pure, Except.pure, throw, throwThe, MonadExceptOf.throw, eq_comm]

end Scope

section
variable {function : String} {scope scope' : Scope} {st st' : BodyState} {code : Program}

private theorem bodyExpr_eq_ok {e : Expr} :
    st.expr scope e = .ok (code, st') ↔
      ∃ ids, compileExpr scope e st.ids = .ok (code, ids) ∧ st' = { st with ids } := by
  simp only [BodyState.expr, bind_eq_ok, pure, Except.pure, Except.ok.injEq, Prod.mk.injEq, Prod.exists]
  constructor
  · rintro ⟨c, ids, h, rfl, rfl⟩
    exact ⟨ids, h, rfl⟩
  · rintro ⟨ids, h, rfl⟩
    exact ⟨code, ids, h, rfl, rfl⟩

/-- A new local variable takes the next slot, if a signed byte reaches it. -/
theorem addLocal_eq_ok {name : String} {off : Int8} :
    st.addLocal function name = .ok (off, st') ↔
      frameOffset? st.slots.next = some off ∧
        st' = { st with slots := ⟨st.slots.next + 2⟩, locals := st.locals ++ [⟨name, off⟩] } := by
  simp only [BodyState.addLocal, SlotSupply.allocate]
  cases frameOffset? st.slots.next with
  | none => simp
  | some o =>
    constructor
    · rintro ⟨⟩
      exact ⟨rfl, rfl⟩
    · rintro ⟨⟨⟩, rfl⟩
      rfl

theorem compileStmt_scope {body : List Stmt} :
    compileStmt function (.scope body) scope st = .ok (code, scope', st') ↔
      compileStmts function [] body scope st = .ok (code, st') ∧ scope' = scope := by
  simp only [compileStmt, bind_eq_ok, pure, Except.pure, Except.ok.injEq, Prod.mk.injEq, Prod.exists]
  constructor
  · rintro ⟨c, s, h, rfl, rfl, rfl⟩
    exact ⟨h, rfl⟩
  · rintro ⟨h, rfl⟩
    exact ⟨code, st', h, rfl, rfl, rfl⟩

theorem compileStmt_var_none {name : String} {offset : Nat} :
    compileStmt function (.var name none offset) scope st = .ok (code, scope', st') ↔
      ∃ off, st.addLocal function name = .ok (off, st') ∧ code = [] ∧ scope' = scope.insert name (.slot off) := by
  simp only [compileStmt, bind_eq_ok, pure, Except.pure, Except.ok.injEq, Prod.mk.injEq, Prod.exists]
  constructor
  · rintro ⟨off, s, h, rfl, rfl, rfl⟩
    exact ⟨off, h, rfl, rfl⟩
  · rintro ⟨off, h, rfl, rfl⟩
    exact ⟨off, st', h, rfl, rfl, rfl⟩

theorem compileStmt_var_some {name : String} {value : Expr} {offset : Nat} :
    compileStmt function (.var name (some value) offset) scope st = .ok (code, scope', st') ↔
      ∃ off mid c ids, st.addLocal function name = .ok (off, mid) ∧ scope' = scope.insert name (.slot off) ∧
        compileExpr scope' value mid.ids = .ok (c, ids) ∧ code = c ++ (Cell.frame off).store ∧
          st' = { mid with ids } := by
  simp only [compileStmt, bind_eq_ok, bodyExpr_eq_ok, pure, Except.pure, Except.ok.injEq, Prod.mk.injEq, Prod.exists]
  constructor
  · rintro ⟨off, mid, h, c, _, ⟨ids, hc, rfl⟩, rfl, rfl, rfl⟩
    exact ⟨off, mid, c, ids, h, rfl, hc, rfl, rfl⟩
  · rintro ⟨off, mid, c, ids, h, rfl, hc, rfl, rfl⟩
    exact ⟨off, mid, h, c, _, ⟨ids, hc, rfl⟩, rfl, rfl, rfl⟩

theorem compileStmt_assign {name : String} {value : Expr} {offset : Nat} :
    compileStmt function (.assign name value offset) scope st = .ok (code, scope', st') ↔
      ∃ cell c ids, scope.cell name (some offset) = .ok cell ∧ compileExpr scope value st.ids = .ok (c, ids) ∧
        code = c ++ cell.store ∧ scope' = scope ∧ st' = { st with ids } := by
  simp only [compileStmt, bind_eq_ok, bodyExpr_eq_ok, pure, Except.pure, Except.ok.injEq, Prod.mk.injEq, Prod.exists]
  constructor
  · rintro ⟨cell, hcell, c, _, ⟨ids, hc, rfl⟩, rfl, rfl, rfl⟩
    exact ⟨cell, c, ids, hcell, hc, rfl, rfl, rfl⟩
  · rintro ⟨cell, c, ids, hcell, hc, rfl, rfl, rfl⟩
    exact ⟨cell, hcell, c, _, ⟨ids, hc, rfl⟩, rfl, rfl, rfl⟩

theorem compileStmt_write {addr value : Expr} :
    compileStmt function (.write addr value) scope st = .ok (code, scope', st') ↔
      ∃ a mid v ids, compileExpr scope addr st.ids = .ok (a, mid) ∧ compileExpr scope value mid = .ok (v, ids) ∧
        code = writeCode a v ∧ scope' = scope ∧ st' = { st with ids } := by
  simp only [compileStmt, bind_eq_ok, bodyExpr_eq_ok, pure, Except.pure, Except.ok.injEq, Prod.mk.injEq, Prod.exists]
  constructor
  · rintro ⟨a, _, ⟨mid, ha, rfl⟩, v, _, ⟨ids, hv, rfl⟩, rfl, rfl, rfl⟩
    exact ⟨a, mid, v, ids, ha, hv, rfl, rfl, rfl⟩
  · rintro ⟨a, mid, v, ids, ha, hv, rfl, rfl, rfl⟩
    exact ⟨a, _, ⟨mid, ha, rfl⟩, v, _, ⟨ids, hv, rfl⟩, rfl, rfl, rfl⟩

theorem compileStmt_ret_none :
    compileStmt function (.ret none) scope st = .ok (code, scope', st') ↔
      code = [.inst (.jmp (returnLabel function))] ∧ scope' = scope ∧ st' = st := by
  simp [compileStmt, eq_comm]

theorem compileStmt_ret_some {value : Expr} :
    compileStmt function (.ret (some value)) scope st = .ok (code, scope', st') ↔
      ∃ c ids, compileExpr scope value st.ids = .ok (c, ids) ∧
        code = c ++ [.inst (.jmp (returnLabel function))] ∧ scope' = scope ∧ st' = { st with ids } := by
  simp only [compileStmt, bind_eq_ok, bodyExpr_eq_ok, pure, Except.pure, Except.ok.injEq, Prod.mk.injEq, Prod.exists]
  constructor
  · rintro ⟨c, _, ⟨ids, hc, rfl⟩, rfl, rfl, rfl⟩
    exact ⟨c, ids, hc, rfl, rfl, rfl⟩
  · rintro ⟨c, ids, hc, rfl, rfl, rfl⟩
    exact ⟨c, _, ⟨ids, hc, rfl⟩, rfl, rfl, rfl⟩

theorem compileStmt_expr {value : Expr} :
    compileStmt function (.expr value) scope st = .ok (code, scope', st') ↔
      ∃ ids, compileExpr scope value st.ids = .ok (code, ids) ∧ scope' = scope ∧ st' = { st with ids } := by
  simp only [compileStmt, bind_eq_ok, bodyExpr_eq_ok, pure, Except.pure, Except.ok.injEq, Prod.mk.injEq, Prod.exists]
  constructor
  · rintro ⟨c, _, ⟨ids, hc, rfl⟩, rfl, rfl, rfl⟩
    exact ⟨ids, hc, rfl, rfl⟩
  · rintro ⟨ids, hc, rfl, rfl⟩
    exact ⟨code, _, ⟨ids, hc, rfl⟩, rfl, rfl, rfl⟩

theorem compileStmt_cond {test : Expr} {body : Stmt} :
    compileStmt function (.cond test body) scope st = .ok (code, scope', st') ↔
      ∃ t ids b, compileExpr scope test st.ids = .ok (t, ids) ∧
        compileStmt function body scope { st with ids := ⟨ids.next + 2⟩ } = .ok (b, scope', st') ∧
          code = condCode (ids.fresh "if_begin").1 ((⟨ids.next + 1⟩ : LabelSupply).fresh "if_end").1 t b := by
  simp only [compileStmt, bind_eq_ok, bodyExpr_eq_ok, pure, Except.pure, Except.ok.injEq, Prod.mk.injEq, Prod.exists]
  constructor
  · rintro ⟨t, _, ⟨ids, ht, rfl⟩, b, _, _, hb, rfl, rfl, rfl⟩
    exact ⟨t, ids, b, ht, hb, rfl⟩
  · rintro ⟨t, ids, b, ht, hb, rfl⟩
    exact ⟨t, _, ⟨ids, ht, rfl⟩, b, _, _, hb, rfl, rfl, rfl⟩

theorem compileStmt_loop {test : Expr} {body : Stmt} :
    compileStmt function (.loop test body) scope st = .ok (code, scope', st') ↔
      ∃ t ids b, compileExpr scope test ⟨st.ids.next + 1⟩ = .ok (t, ids) ∧
        compileStmt function body scope { st with ids := ⟨ids.next + 2⟩ } = .ok (b, scope', st') ∧
          code = loopCode (st.ids.fresh "while_head").1 (ids.fresh "while_body").1
            ((⟨ids.next + 1⟩ : LabelSupply).fresh "while_end").1 t b := by
  simp only [compileStmt, bind_eq_ok, bodyExpr_eq_ok, pure, Except.pure, Except.ok.injEq, Prod.mk.injEq, Prod.exists]
  constructor
  · rintro ⟨t, _, ⟨ids, ht, rfl⟩, b, _, _, hb, rfl, rfl, rfl⟩
    exact ⟨t, ids, b, ht, hb, rfl⟩
  · rintro ⟨t, ids, b, ht, hb, rfl⟩
    exact ⟨t, _, ⟨ids, ht, rfl⟩, b, _, _, hb, rfl, rfl, rfl⟩

private theorem compileStmts_done (done : List Line) (body : List Stmt) (scope : Scope) (st : BodyState) :
    compileStmts function done body scope st =
      (compileStmts function [] body scope st).map fun (code, st) => (done.reverse ++ code, st) := by
  induction body generalizing done scope st with
  | nil => simp [compileStmts, Except.map]
  | cons s rest ih =>
    simp only [compileStmts]
    cases compileStmt function s scope st with
    | error e => rfl
    | ok result =>
      obtain ⟨c, sc, mid⟩ := result
      simp only [bind, Except.bind]
      rw [ih (c.reverse ++ done), ih (c.reverse ++ [])]
      cases compileStmts function [] rest sc mid <;> simp [Except.map]

theorem compileStmts_nil :
    compileStmts function [] [] scope st = .ok (code, st') ↔ code = [] ∧ st' = st := by
  simp [compileStmts, eq_comm]

theorem compileStmts_cons {s : Stmt} {rest : List Stmt} :
    compileStmts function [] (s :: rest) scope st = .ok (code, st') ↔
      ∃ c sc mid cs, compileStmt function s scope st = .ok (c, sc, mid) ∧
        compileStmts function [] rest sc mid = .ok (cs, st') ∧ code = c ++ cs := by
  simp only [compileStmts, bind_eq_ok, Prod.exists]
  constructor
  · rintro ⟨c, sc, mid, hs, h⟩
    rw [compileStmts_done] at h
    cases hr : compileStmts function [] rest sc mid with
    | error e => simp [hr, Except.map] at h
    | ok result =>
      obtain ⟨cs, last⟩ := result
      simp only [hr, Except.map, Except.ok.injEq, Prod.mk.injEq] at h
      obtain ⟨rfl, rfl⟩ := h
      exact ⟨c, sc, mid, cs, hs, hr, by simp⟩
  · rintro ⟨c, sc, mid, cs, hs, hr, rfl⟩
    refine ⟨c, sc, mid, hs, ?_⟩
    rw [compileStmts_done, hr]
    simp [Except.map]

end

private theorem paramOffset_eq_ok {function : String} {left : Nat} {off : Int8} :
    paramOffset function left = .ok off ↔ frameOffset? (-4 - 2 * left) = some off := by
  unfold paramOffset
  cases frameOffset? (-4 - 2 * left) <;> simp

theorem bindParams_nil {function : String} {scope scope' : Scope} {slots : List FrameSlot} :
    bindParams function scope [] = .ok (slots, scope') ↔ slots = [] ∧ scope' = scope := by
  simp [bindParams, eq_comm]

theorem bindParams_cons {function name : String} {scope scope' : Scope} {rest : List String} {slots : List FrameSlot} :
    bindParams function scope (name :: rest) = .ok (slots, scope') ↔
      ∃ off others, frameOffset? (-4 - 2 * (rest.length + 1 : Nat)) = some off ∧
        bindParams function (scope.insert name (.slot off)) rest = .ok (others, scope') ∧
          slots = ⟨name, off⟩ :: others := by
  simp only [bindParams, bind_eq_ok, paramOffset_eq_ok, pure, Except.pure, Except.ok.injEq, Prod.mk.injEq, Prod.exists]
  constructor
  · rintro ⟨off, ho, others, sc, hr, rfl, rfl⟩
    exact ⟨off, others, ho, hr, rfl⟩
  · rintro ⟨off, others, ho, hr, rfl⟩
    exact ⟨off, ho, others, scope', hr, rfl, rfl⟩

theorem compileFunction_eq_ok {name : String} {params : List String} {body : List Stmt} {scope : Scope}
    {ids ids' : LabelSupply} {code : Program} {frame : Frame} :
    compileFunction name params body scope ids = .ok (code, frame, ids') ↔
      ∃ args inner c st, bindParams name scope params = .ok (args, inner) ∧
        compileStmts name [] body inner ⟨ids, {}, []⟩ = .ok (c, st) ∧
          code = prologue name st.slots.size ++ (c ++ epilogue name) ∧ frame = ⟨st.slots.size, args, st.locals⟩ ∧
            ids' = st.ids := by
  simp only [compileFunction, bind_eq_ok, pure, Except.pure, Except.ok.injEq, Prod.mk.injEq, Prod.exists]
  constructor
  · rintro ⟨args, inner, hp, c, st, hb, rfl, rfl, rfl⟩
    exact ⟨args, inner, c, st, hp, hb, rfl, rfl, rfl⟩
  · rintro ⟨args, inner, c, st, hp, hb, rfl, rfl, rfl⟩
    exact ⟨args, inner, hp, c, st, hb, rfl, rfl, rfl⟩

theorem declare_func_eq_ok {st st' : UnitState} {name : String} {params : List String} {body : List Stmt}
    {offset : Nat} :
    st.declare (.func name params body offset) = .ok st' ↔
      ∃ code frame ids, compileFunction name params body (st.scope.insert name (.function params.length)) st.ids =
          .ok (code, frame, ids) ∧
        st' = { ids, scope := st.scope.insert name (.function params.length), frames := st.frames.insert name frame,
                code := code.reverse ++ st.code, entry := if name = "main" then some offset else st.entry } := by
  simp only [UnitState.declare, bind_eq_ok, pure, Except.pure, Except.ok.injEq, Prod.exists]
  constructor
  · rintro ⟨code, frame, ids, h, rfl⟩
    exact ⟨code, frame, ids, h, rfl⟩
  · rintro ⟨code, frame, ids, h, rfl⟩
    exact ⟨code, frame, ids, h, rfl⟩

theorem declareAll_cons {st st' : UnitState} {decl : Decl} {rest : List Decl} :
    st.declareAll (decl :: rest) = .ok st' ↔ ∃ mid, st.declare decl = .ok mid ∧ mid.declareAll rest = .ok st' := by
  simp only [UnitState.declareAll, bind_eq_ok]

theorem generate_eq_ok {tree : Tree} {g : Generated} :
    generate tree = .ok g ↔
      ∃ st, UnitState.declareAll {} tree = .ok st ∧ st.scope.get? "main" = some (.function 0) ∧
        g = ⟨(callCode "main" [] st.ids).1 ++ .inst .halt :: st.code.reverse, st.frames⟩ := by
  simp only [generate, bind_eq_ok, Scope.arity_eq_ok]
  constructor
  · rintro ⟨st, hst, arity, ha, h⟩
    split at h
    · rename_i hz
      cases h
      exact ⟨st, hst, hz ▸ ha, rfl⟩
    · cases h
  · rintro ⟨st, hst, ha, rfl⟩
    exact ⟨st, hst, 0, ha, by rw [if_pos rfl]; rfl⟩

end StackToolchain
