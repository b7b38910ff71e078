import StackToolchain.Proofs.Compiler.Resolution

/-! Scoping is lexical.
A source is compiled exactly if every use of a name means, by the text alone, a declaration that serves it, and
frames have room for parameters and variables. The code of a function then reads and sets every variable at the place
of the declaration that its name means. -/
namespace StackToolchain

open Source

inductive ReadCode : Cell → Program → Prop
  | frame {off} : ReadCode (.frame off) [.inst (.memr .rsb off .rret)]
  | record {label} : ReadCode (.record label) [.inst (.immLabel .raddr label), .inst (.memr .raddr 2 .rret)]

inductive SetCode : Cell → Program → Prop
  | frame {off} : SetCode (.frame off) [.inst (.memw .rsb .rret off)]
  | record {label} : SetCode (.record label) [.inst (.immLabel .raddr label), .inst (.memw .raddr .rret 2)]

mutual

/-- Code for an expression after a text of a function: variables are read where the declarations that they mean are
kept, and functions are called with the arguments that their declarations ask for. -/
inductive ExprCode (site : Site) : List Mark → Expr → Program → Prop
  | int {before n} : ExprCode site before (.int n) [.inst (.imm .rret n)]
  | var {before name offset d cell code} : site.Sees before name d → site.Keeps d cell → ReadCode cell code →
      ExprCode site before (.var name offset) code
  | paren {before inner code} : ExprCode site before inner code → ExprCode site before (.paren inner) code
  | binary {before left op right l r} : ExprCode site before left l → ExprCode site (before ++ left.marks) right r →
      ExprCode site before (.binary left op right)
        (l ++ (Line.inst (.mov .rret .rexpr) :: Line.inst (.push .rexpr) ::
          (r ++ [Line.inst (.pop .rexpr), Line.inst (.alu op .rexpr .rret .rret)])))
  | call {before name args offset d codes} {id : Nat} : site.Sees before name d → d.IsFunction site.tree args.length →
      ArgsCode site (before ++ [.uses name (.call args.length)]) args codes →
        ExprCode site before (.call name args offset)
          (codes.flatMap (· ++ [Line.inst (.push .rret)]) ++
            [Line.inst (.immLabel .raddr ("call_ret_" ++ toString id)), Line.inst (.push .raddr),
              Line.inst (.jmp ("func_" ++ name)), Line.label ("call_ret_" ++ toString id)] ++
            List.replicate args.length (Line.inst (.pop .raddr)))

inductive ArgsCode (site : Site) : List Mark → List Expr → List Program → Prop
  | nil {before} : ArgsCode site before [] []
  | cons {before arg rest code codes} : ExprCode site before arg code →
      ArgsCode site (before ++ arg.marks) rest codes → ArgsCode site before (arg :: rest) (code :: codes)

end

mutual

/-- Code for a statement after a text of a function. A variable with a first value has its place by the number of
declarations before it, and its name already means it in the value. -/
inductive StmtCode (site : Site) (function : String) : List Mark → Stmt → Program → Prop
  | scope {before body code} : StmtsCode site function (before ++ [.opening]) body code →
      StmtCode site function before (.scope body) code
  | var {before name offset} : StmtCode site function before (.var name none offset) []
  | init {before name value offset cell code sets} : site.Keeps (.var (varCount before)) cell → SetCode cell sets →
      ExprCode site (before ++ [.declares name]) value code →
        StmtCode site function before (.var name (some value) offset) (code ++ sets)
  | assign {before name value offset d cell code sets} : site.Sees before name d → site.Keeps d cell →
      SetCode cell sets → ExprCode site (before ++ [.uses name .assign]) value code →
        StmtCode site function before (.assign name value offset) (code ++ sets)
  | write {before addr value a v} : ExprCode site before addr a → ExprCode site (before ++ addr.marks) value v →
      StmtCode site function before (.write addr value)
        (a ++ (Line.inst (.push .rret) :: (v ++ [Line.inst (.pop .rexpr), Line.inst (.memw .rexpr .rret 0)])))
  | ret {before} : StmtCode site function before (.ret none) [Line.inst (.jmp ("return_" ++ function))]
  | retValue {before value code} : ExprCode site before value code →
      StmtCode site function before (.ret (some value)) (code ++ [Line.inst (.jmp ("return_" ++ function))])
  | cond {before test body yes done t b} : ExprCode site before test t →
      StmtCode site function (before ++ test.marks) body b →
        StmtCode site function before (.cond test body)
          (t ++ (Line.inst (.jmpif .rret yes) :: Line.inst (.jmp done) :: Line.label yes :: (b ++ [Line.label done])))
  | loop {before test body head yes done t b} : ExprCode site before test t →
      StmtCode site function (before ++ test.marks) body b →
        StmtCode site function before (.loop test body)
          (Line.label head :: (t ++ (Line.inst (.jmpif .rret yes) :: Line.inst (.jmp done) :: Line.label yes ::
            (b ++ [Line.inst (.jmp head), Line.label done]))))
  | expr {before value code} : ExprCode site before value code → StmtCode site function before (.expr value) code

inductive StmtsCode (site : Site) (function : String) : List Mark → List Stmt → Program → Prop
  | nil {before} : StmtsCode site function before [] []
  | cons {before s rest code codes} : StmtCode site function before s code →
      StmtsCode site function (before ++ s.marks) rest codes →
        StmtsCode site function before (s :: rest) (code ++ codes)

end

/-- The code of a function that makes room for some variables, runs the code of its body and goes back. -/
def framedCode (name : String) (vars : Nat) (body : Program) : Program :=
  [Line.label ("func_" ++ name), Line.inst (.push .rsb), Line.inst (.mov .rsp .rsb),
    Line.inst (.imm .r2 (2 * vars).toUInt16), Line.inst (.alu .add .rsb .r2 .rsp)] ++
  (body ++ [Line.label ("return_" ++ name), Line.inst (.mov .rsb .rsp), Line.inst (.pop .rsb),
    Line.inst (.pop .raddr), Line.inst (.jmpr .raddr)])

private theorem readCode_load (cell : Cell) : ReadCode cell cell.load := by
  cases cell with
  | frame offset => exact .frame
  | record label => exact .record

private theorem setCode_store (cell : Cell) : SetCode cell cell.store := by
  cases cell with
  | frame offset => exact .frame
  | record label => exact .record

section
variable {site : Site} {function : String}

private theorem ArgsCode.length_eq : {es : List Expr} → ∀ {before : List Mark} {codes : List Program},
    ArgsCode site before es codes → codes.length = es.length
  | [], before, codes, h => by
    cases h
    rfl
  | e :: rest, before, codes, h => by
    cases h with
    | cons he hrest => rw [List.length_cons, List.length_cons, hrest.length_eq]

mutual

private theorem ExprCode.eachUse : {e : Expr} → ∀ {before : List Mark} {code : Program}, ExprCode site before e code →
    EachUse site.Serves before e.marks
  | .int n, before, code, h => eachUse_nil
  | .var name offset, before, code, h => by
    cases h with
    | var hs hk hr => exact eachUse_uses.mpr ⟨⟨_, hs, Declaration.isVariable_of_keeps hk⟩, eachUse_nil⟩
  | .paren inner, before, code, h => by
    cases h with
    | paren hinner => exact hinner.eachUse
  | .binary left op right, before, code, h => by
    cases h with
    | binary hl hr => exact eachUse_append.mpr ⟨hl.eachUse, hr.eachUse⟩
  | .call name args offset, before, code, h => by
    cases h with
    | call hs hf hargs => exact eachUse_uses.mpr ⟨⟨_, hs, hf⟩, hargs.eachUse⟩

private theorem ArgsCode.eachUse : {es : List Expr} → ∀ {before : List Mark} {codes : List Program},
    ArgsCode site before es codes → EachUse site.Serves before (Expr.allMarks es)
  | [], before, codes, h => eachUse_nil
  | e :: rest, before, codes, h => by
    cases h with
    | cons he hrest => exact eachUse_append.mpr ⟨he.eachUse, hrest.eachUse⟩

end

mutual

private theorem StmtCode.eachUse : {s : Stmt} → ∀ {before : List Mark} {code : Program},
    StmtCode site function before s code → EachUse site.Serves before s.marks
  | .scope body, before, code, h => by
    cases h with
    | scope hbody =>
      exact (eachUse_cons rfl).mpr (eachUse_append.mpr ⟨hbody.eachUse, (eachUse_cons rfl).mpr eachUse_nil⟩)
  | .var name none offset, before, code, h => (eachUse_cons rfl).mpr eachUse_nil
  | .var name (some value) offset, before, code, h => by
    cases h with
    | init hk hset hv => exact (eachUse_cons rfl).mpr hv.eachUse
  | .assign name value offset, before, code, h => by
    cases h with
    | assign hs hk hset hv => exact eachUse_uses.mpr ⟨⟨_, hs, Declaration.isVariable_of_keeps hk⟩, hv.eachUse⟩
  | .write addr value, before, code, h => by
    cases h with
    | write ha hv => exact eachUse_append.mpr ⟨ha.eachUse, hv.eachUse⟩
  | .ret none, before, code, h => eachUse_nil
  | .ret (some value), before, code, h => by
    cases h with
    | retValue hv => exact hv.eachUse
  | .cond test body, before, code, h => by
    cases h with
    | cond ht hb => exact eachUse_append.mpr ⟨ht.eachUse, hb.eachUse⟩
  | .loop test body, before, code, h => by
    cases h with
    | loop ht hb => exact eachUse_append.mpr ⟨ht.eachUse, hb.eachUse⟩
  | .expr value, before, code, h => by
    cases h with
    | expr hv => exact hv.eachUse

private theorem StmtsCode.eachUse : {body : List Stmt} → ∀ {before : List Mark} {code : Program},
    StmtsCode site function before body code → EachUse site.Serves before (Stmt.allMarks body)
  | [], before, code, h => eachUse_nil
  | s :: rest, before, code, h => by
    cases h with
    | cons hs hrest => exact eachUse_append.mpr ⟨hs.eachUse, hrest.eachUse⟩

end

variable {names : Names} {scope : Scope}

mutual

private theorem compileExpr_code : (e : Expr) → ∀ {before : List Mark} {ids ids' : LabelSupply} {code : Program},
    Resolves site before names scope → compileExpr scope e ids = .ok (code, ids') → ExprCode site before e code
  | .int n, before, ids, ids', code, hres, h => by
    obtain ⟨rfl, -⟩ := compileExpr_int.mp h
    exact .int
  | .var name offset, before, ids, ids', code, hres, h => by
    obtain ⟨cell, hc, rfl, -⟩ := compileExpr_var.mp h
    obtain ⟨d, hs, hk⟩ := hres.sees_of_cell hc
    exact .var hs hk (readCode_load cell)
  | .paren inner, before, ids, ids', code, hres, h => .paren (compileExpr_code inner hres (compileExpr_paren.mp h))
  | .binary left op right, before, ids, ids', code, hres, h => by
    obtain ⟨l, mid, r, hl, hr, rfl⟩ := compileExpr_binary.mp h
    exact .binary (compileExpr_code left hres hl) (compileExpr_code right (hres.uses left.isUse_marks) hr)
  | .call name args offset, before, ids, ids', code, hres, h => by
    obtain ⟨codes, mid, ha, hargs, hcode⟩ := compileExpr_call.mp h
    obtain ⟨d, hs, hf⟩ := hres.arity_iff.mp ha
    have hcodes : ArgsCode site (before ++ [.uses name (.call args.length)]) args codes :=
      compileArgs_code args (hres.uses (by simp [Mark.isUse])) hargs
    rw [show code = (callCode name codes mid).1 from congrArg Prod.fst hcode, callCode, hcodes.length_eq]
    exact .call hs hf hcodes

private theorem compileArgs_code : (es : List Expr) →
    ∀ {before : List Mark} {ids ids' : LabelSupply} {codes : List Program}, Resolves site before names scope →
      compileArgs scope es ids = .ok (codes, ids') → ArgsCode site before es codes
  | [], before, ids, ids', codes, hres, h => by
    obtain ⟨rfl, -⟩ := compileArgs_nil.mp h
    exact .nil
  | e :: rest, before, ids, ids', codes, hres, h => by
    obtain ⟨c, mid, cs, he, hrest, rfl⟩ := compileArgs_cons.mp h
    exact .cons (compileExpr_code e hres he) (compileArgs_code rest (hres.uses e.isUse_marks) hrest)

end

mutual

private theorem compileStmt_code : (s : Stmt) →
    ∀ {before : List Mark} {names : Names} {scope scope' : Scope} {st st' : BodyState} {code : Program},
    Resolves site before names scope → st.Counts names → compileStmt function s scope st = .ok (code, scope', st') →
      StmtCode site function before s code
  | .scope body, before, names, scope, scope', st, st', code, hres, hc, h => by
    obtain ⟨hb, -⟩ := compileStmt_scope.mp h
    exact .scope (compileStmts_code body hres.opening hc hb)
  | .var name none offset, before, names, scope, scope', st, st', code, hres, hc, h => by
    obtain ⟨off, -, rfl, -⟩ := compileStmt_var_none.mp h
    exact .var
  | .var name (some value) offset, before, names, scope, scope', st, st', code, hres, hc, h => by
    obtain ⟨off, mid, c, ids, hl, rfl, hv, rfl, -⟩ := compileStmt_var_some.mp h
    obtain ⟨hres', hk⟩ := hres.declares hc hl
    exact .init hk (setCode_store _) (compileExpr_code value hres' hv)
  | .assign name value offset, before, names, scope, scope', st, st', code, hres, hc, h => by
    obtain ⟨cell, c, ids, hcell, hv, rfl, -, -⟩ := compileStmt_assign.mp h
    obtain ⟨d, hs, hk⟩ := hres.sees_of_cell hcell
    exact .assign hs hk (setCode_store cell) (compileExpr_code value (hres.uses (by simp [Mark.isUse])) hv)
  | .write addr value, before, names, scope, scope', st, st', code, hres, hc, h => by
    obtain ⟨a, mid, v, ids, ha, hv, rfl, -, -⟩ := compileStmt_write.mp h
    exact .write (compileExpr_code addr hres ha) (compileExpr_code value (hres.uses addr.isUse_marks) hv)
  | .ret none, before, names, scope, scope', st, st', code, hres, hc, h => by
    obtain ⟨rfl, -, -⟩ := compileStmt_ret_none.mp h
    exact .ret
  | .ret (some value), before, names, scope, scope', st, st', code, hres, hc, h => by
    obtain ⟨c, ids, hv, rfl, -, -⟩ := compileStmt_ret_some.mp h
    exact .retValue (compileExpr_code value hres hv)
  | .cond test body, before, names, scope, scope', st, st', code, hres, hc, h => by
    obtain ⟨t, ids, b, ht, hb, rfl⟩ := compileStmt_cond.mp h
    exact .cond (compileExpr_code test hres ht) (compileStmt_code body (hres.uses test.isUse_marks) (hc.withIds _) hb)
  | .loop test body, before, names, scope, scope', st, st', code, hres, hc, h => by
    obtain ⟨t, ids, b, ht, hb, rfl⟩ := compileStmt_loop.mp h
    exact .loop (compileExpr_code test hres ht) (compileStmt_code body (hres.uses test.isUse_marks) (hc.withIds _) hb)
  | .expr value, before, names, scope, scope', st, st', code, hres, hc, h => by
    obtain ⟨ids, hv, -, -⟩ := compileStmt_expr.mp h
    exact .expr (compileExpr_code value hres hv)

private theorem compileStmts_code : (body : List Stmt) →
    ∀ {before : List Mark} {names : Names} {scope : Scope} {st st' : BodyState} {code : Program},
    Resolves site before names scope → st.Counts names → compileStmts function [] body scope st = .ok (code, st') →
      StmtsCode site function before body code
  | [], before, names, scope, st, st', code, hres, hc, h => by
    obtain ⟨rfl, -⟩ := compileStmts_nil.mp h
    exact .nil
  | s :: rest, before, names, scope, st, st', code, hres, hc, h => by
    obtain ⟨c, sc, mid, cs, hs, hr, rfl⟩ := compileStmts_cons.mp h
    obtain ⟨hres', hc'⟩ := hres.after hc hs
    exact .cons (compileStmt_code s hres hc hs) (compileStmts_code rest hres' hc' hr)

end

mutual

private theorem exists_compileExpr : (e : Expr) → ∀ {before : List Mark} {ids : LabelSupply},
    Resolves site before names scope → EachUse site.Serves before e.marks →
      ∃ code ids', compileExpr scope e ids = .ok (code, ids')
  | .int n, before, ids, hres, hu => ⟨_, _, compileExpr_int.mpr ⟨rfl, rfl⟩⟩
  | .var name offset, before, ids, hres, hu => by
    obtain ⟨⟨d, hs, hd⟩, -⟩ := eachUse_uses.mp hu
    obtain ⟨cell, hc⟩ := hres.cell_of_sees hs hd
    exact ⟨_, _, compileExpr_var.mpr ⟨cell, hc, rfl, rfl⟩⟩
  | .paren inner, before, ids, hres, hu => by
    obtain ⟨code, ids', h⟩ := exists_compileExpr inner hres hu
    exact ⟨code, ids', compileExpr_paren.mpr h⟩
  | .binary left op right, before, ids, hres, hu => by
    obtain ⟨hleft, hright⟩ := eachUse_append.mp hu
    obtain ⟨l, mid, hl⟩ := exists_compileExpr left hres hleft
    obtain ⟨r, ids', hr⟩ := exists_compileExpr right (hres.uses left.isUse_marks) hright
    exact ⟨_, _, compileExpr_binary.mpr ⟨l, mid, r, hl, hr, rfl⟩⟩
  | .call name args offset, before, ids, hres, hu => by
    obtain ⟨hf, hargs⟩ := eachUse_uses.mp hu
    obtain ⟨codes, mid, hc⟩ := exists_compileArgs args (hres.uses (by simp [Mark.isUse])) hargs
    exact ⟨_, _, compileExpr_call.mpr ⟨codes, mid, hres.arity_iff.mpr hf, hc, rfl⟩⟩

private theorem exists_compileArgs : (es : List Expr) → ∀ {before : List Mark} {ids : LabelSupply},
    Resolves site before names scope → EachUse site.Serves before (Expr.allMarks es) →
      ∃ codes ids', compileArgs scope es ids = .ok (codes, ids')
  | [], before, ids, hres, hu => ⟨_, _, compileArgs_nil.mpr ⟨rfl, rfl⟩⟩
  | e :: rest, before, ids, hres, hu => by
    obtain ⟨he, hrest⟩ := eachUse_append.mp hu
    obtain ⟨c, mid, hc⟩ := exists_compileExpr e hres he
    obtain ⟨cs, ids', hcs⟩ := exists_compileArgs rest (hres.uses e.isUse_marks) hrest
    exact ⟨_, _, compileArgs_cons.mpr ⟨c, mid, cs, hc, hcs, rfl⟩⟩

end

/-- There is a slot for each of 64 variables. -/
theorem exists_addLocal {st : BodyState} (hc : st.Counts names) (hroom : names.vars + 1 ≤ 64) (name : String) :
    ∃ off st', st.addLocal function name = .ok (off, st') := by
  have hreach : -128 ≤ ((st.slots.next : Nat) : Int) ∧ ((st.slots.next : Nat) : Int) ≤ 127 := by
    have := hc.1
    omega
  exact ⟨_, _, addLocal_eq_ok.mpr ⟨frameOffset?_eq_some.mpr ⟨hreach, rfl⟩, rfl⟩⟩

mutual

private theorem exists_compileStmt : (s : Stmt) →
    ∀ {before : List Mark} {names : Names} {scope : Scope} {st : BodyState}, Resolves site before names scope →
      st.Counts names → EachUse site.Serves before s.marks → names.vars + varCount s.marks ≤ 64 →
        ∃ code scope' st', compileStmt function s scope st = .ok (code, scope', st')
  | .scope body, before, names, scope, st, hres, hc, hu, hroom => by
    obtain ⟨hbody, -⟩ := eachUse_append.mp ((eachUse_cons rfl).mp hu)
    rw [Stmt.marks, ← List.singleton_append, varCount_append, varCount_append] at hroom
    obtain ⟨code, st', hb⟩ := exists_compileStmts body hres.opening hc hbody (by omega)
    exact ⟨_, _, _, compileStmt_scope.mpr ⟨hb, rfl⟩⟩
  | .var name none offset, before, names, scope, st, hres, hc, hu, hroom => by
    obtain ⟨off, st', hl⟩ := exists_addLocal hc hroom name
    exact ⟨_, _, _, compileStmt_var_none.mpr ⟨off, hl, rfl, rfl⟩⟩
  | .var name (some value) offset, before, names, scope, st, hres, hc, hu, hroom => by
    rw [← names.vars_after (.var name (some value) offset)] at hroom
    obtain ⟨off, mid, hl⟩ := exists_addLocal hc hroom name
    obtain ⟨c, ids, hv⟩ := exists_compileExpr value (hres.declares hc hl).1 ((eachUse_cons rfl).mp hu)
    exact ⟨_, _, _, compileStmt_var_some.mpr ⟨off, mid, c, ids, hl, rfl, hv, rfl, rfl⟩⟩
  | .assign name value offset, before, names, scope, st, hres, hc, hu, hroom => by
    obtain ⟨⟨d, hs, hd⟩, hvalue⟩ := eachUse_uses.mp hu
    obtain ⟨cell, hcell⟩ := hres.cell_of_sees hs hd
    obtain ⟨c, ids, hv⟩ := exists_compileExpr value (hres.uses (by simp [Mark.isUse])) hvalue
    exact ⟨_, _, _, compileStmt_assign.mpr ⟨cell, c, ids, hcell, hv, rfl, rfl, rfl⟩⟩
  | .write addr value, before, names, scope, st, hres, hc, hu, hroom => by
    obtain ⟨haddr, hvalue⟩ := eachUse_append.mp hu
    obtain ⟨a, mid, ha⟩ := exists_compileExpr addr hres haddr
    obtain ⟨v, ids, hv⟩ := exists_compileExpr value (hres.uses addr.isUse_marks) hvalue
    exact ⟨_, _, _, compileStmt_write.mpr ⟨a, mid, v, ids, ha, hv, rfl, rfl, rfl⟩⟩
  | .ret none, before, names, scope, st, hres, hc, hu, hroom =>
    ⟨_, _, _, compileStmt_ret_none.mpr ⟨rfl, rfl, rfl⟩⟩
  | .ret (some value), before, names, scope, st, hres, hc, hu, hroom => by
    obtain ⟨c, ids, hv⟩ := exists_compileExpr value hres hu
    exact ⟨_, _, _, compileStmt_ret_some.mpr ⟨c, ids, hv, rfl, rfl, rfl⟩⟩
  | .cond test body, before, names, scope, st, hres, hc, hu, hroom => by
    obtain ⟨htest, hbody⟩ := eachUse_append.mp hu
    rw [Stmt.marks, varCount_append] at hroom
    obtain ⟨t, ids, ht⟩ := exists_compileExpr test hres htest
    obtain ⟨b, scope', st', hb⟩ :=
      exists_compileStmt body (hres.uses test.isUse_marks) (hc.withIds _) hbody (by omega)
    exact ⟨_, _, _, compileStmt_cond.mpr ⟨t, ids, b, ht, hb, rfl⟩⟩
  | .loop test body, before, names, scope, st, hres, hc, hu, hroom => by
    obtain ⟨htest, hbody⟩ := eachUse_append.mp hu
    rw [Stmt.marks, varCount_append] at hroom
    obtain ⟨t, ids, ht⟩ := exists_compileExpr test hres htest
    obtain ⟨b, scope', st', hb⟩ :=
      exists_compileStmt body (hres.uses test.isUse_marks) (hc.withIds _) hbody (by omega)
    exact ⟨_, _, _, compileStmt_loop.mpr ⟨t, ids, b, ht, hb, rfl⟩⟩
  | .expr value, before, names, scope, st, hres, hc, hu, hroom => by
    obtain ⟨c, ids, hv⟩ := exists_compileExpr value hres hu
    exact ⟨_, _, _, compileStmt_expr.mpr ⟨ids, hv, rfl, rfl⟩⟩

private theorem exists_compileStmts : (body : List Stmt) →
    ∀ {before : List Mark} {names : Names} {scope : Scope} {st : BodyState}, Resolves site before names scope →
      st.Counts names → EachUse site.Serves before (Stmt.allMarks body) →
        names.vars + varCount (Stmt.allMarks body) ≤ 64 →
          ∃ code st', compileStmts function [] body scope st = .ok (code, st')
  | [], before, names, scope, st, hres, hc, hu, hroom => ⟨_, _, compileStmts_nil.mpr ⟨rfl, rfl⟩⟩
  | s :: rest, before, names, scope, st, hres, hc, hu, hroom => by
    obtain ⟨hfirst, hrest⟩ := eachUse_append.mp hu
    rw [Stmt.allMarks, varCount_append] at hroom
    obtain ⟨c, sc, mid, hs⟩ := exists_compileStmt s hres hc hfirst (by omega)
    obtain ⟨hres', hc'⟩ := hres.after hc hs
    have hvars := names.vars_after s
    obtain ⟨cs, st', hr⟩ := exists_compileStmts rest hres' hc' hrest (by omega)
    exact ⟨_, _, compileStmts_cons.mpr ⟨c, sc, mid, cs, hs, hr, rfl⟩⟩

end

end

structure Source.Site.Scoped (site : Site) (body : List Stmt) : Prop where
  params : site.params.length ≤ 62
  vars : varCount (Stmt.allMarks body) ≤ 64
  uses : EachUse site.Serves [] (Stmt.allMarks body)

/-- Every function of a source keeps to the rules of scoping, and the last declaration of `main` is that of a function
without parameters. -/
structure Source.WellScoped (tree : Tree) : Prop where
  functions : ∀ {index name params body o}, tree[index]? = some (.func name params body o) →
    Site.Scoped ⟨tree, index, params⟩ body
  main : ∃ index body o, IsGreatest {j | DeclaresAt tree "main" j} index ∧
    tree[index]? = some (.func "main" [] body o)

private theorem exists_bindParams {function : String} {params : List String} (h : params.length ≤ 62) (scope : Scope) :
    ∃ slots inner, bindParams function scope params = .ok (slots, inner) := by
  induction params generalizing scope with
  | nil => exact ⟨_, _, bindParams_nil.mpr ⟨rfl, rfl⟩⟩
  | cons name rest ih =>
    rw [List.length_cons] at h
    have hreach : -128 ≤ -4 - 2 * ((rest.length + 1 : Nat) : Int) ∧ -4 - 2 * ((rest.length + 1 : Nat) : Int) ≤ 127 := by
      omega
    obtain ⟨others, inner, hr⟩ := ih (by omega) (scope.insert name (.slot _))
    exact ⟨_, _, bindParams_cons.mpr ⟨_, others, frameOffset?_eq_some.mpr ⟨hreach, rfl⟩, hr, rfl⟩⟩

section
variable {tree : Tree}

/-- Names resolve by the text from the beginning of a body on. -/
theorem Resolves.enter {site : Site} {scope : Scope}
    (h : Agrees site.tree site.params.length (.enter site.tree site.index site.params) scope) :
    Resolves site [] site.enter scope :=
  ⟨.start _, h⟩

private theorem UnitState.Lays.exists_declare {k : Nat} {st : UnitState} (hs : UnitState.Lays tree k st) {name : String}
    {params : List String} {body : List Stmt} {o : Nat} (hk : tree[k]? = some (.func name params body o))
    (hscoped : Site.Scoped ⟨tree, k, params⟩ body) : ∃ st', st.declare (.func name params body o) = .ok st' := by
  obtain ⟨slots, inner, hp⟩ :=
    exists_bindParams hscoped.params (st.scope.insert name (.function params.length))
  have hres : Resolves ⟨tree, k, params⟩ [] (Site.enter ⟨tree, k, params⟩) inner :=
    .enter (bindParams_agrees (agrees_declared (hs.scope_func hk) _) (Nat.zero_add _) hp)
  have hstart : BodyState.Counts ⟨st.ids, {}, []⟩ (Site.enter ⟨tree, k, params⟩) := ⟨rfl, Nat.zero_le _⟩
  obtain ⟨c, last, hb⟩ := exists_compileStmts body hres hstart hscoped.uses (by simpa using hscoped.vars)
  exact ⟨_, declare_func_eq_ok.mpr
    ⟨_, _, _, compileFunction_eq_ok.mpr ⟨slots, inner, c, last, hp, hb, rfl, rfl, rfl⟩, rfl⟩⟩

/-- One declaration after the other is compiled. -/
theorem Source.WellScoped.exists_lays (h : WellScoped tree) {k : Nat} (hk : k ≤ tree.length) :
    ∃ st, UnitState.Lays tree k st := by
  induction k with
  | zero => exact ⟨{}, .empty tree⟩
  | succ k ih =>
    obtain ⟨st, hs⟩ := ih (by omega)
    have hat : tree[k]? = some tree[k] := List.getElem?_eq_getElem hk
    cases hdecl : tree[k] with
    | func name params body o =>
      rw [hdecl] at hat
      obtain ⟨st', hd⟩ := hs.exists_declare hat (h.functions hat)
      exact ⟨st', hs.func hat hd⟩
    | global name =>
      rw [hdecl] at hat
      exact ⟨_, hs.global hat rfl⟩

private theorem Source.WellScoped.exists_generate (h : WellScoped tree) : ∃ g, generate tree = .ok g := by
  obtain ⟨st, hs⟩ := h.exists_lays le_rfl
  obtain ⟨index, body, o, hlast, hat⟩ := h.main
  have hreached := hs.reached
  rw [List.take_length] at hreached
  have hmain : st.scope.get? "main" = some (.function 0) := by
    rw [hs.scope, declared_eq_function_iff.mpr ⟨hlast, _, _, _, _, hat⟩]
    simp [Referent.binding, arity, hat]
  exact ⟨_, generate_eq_ok.mpr ⟨st, hreached, hmain, rfl⟩⟩

section
variable {code c : Program} {index a : Nat} {name : String} {params : List String} {body : List Stmt} {scope : Scope}
  {ids : LabelSupply} {last : BodyState}

private theorem FunctionCode.stmtsCode (h : FunctionCode tree code index name params body a scope ids c last) :
    StmtsCode ⟨tree, index, params⟩ name [] body c :=
  compileStmts_code body (.enter h.agrees) ⟨rfl, Nat.zero_le _⟩ h.compiled

private theorem FunctionCode.varCount_eq (h : FunctionCode tree code index name params body a scope ids c last) :
    last.slots.next = 2 * varCount (Stmt.allMarks body) ∧ varCount (Stmt.allMarks body) ≤ 64 := by
  have hvars : ((Names.enter tree index params).afterAll body).vars = varCount (Stmt.allMarks body) := by
    rw [Names.vars_afterAll]
    exact Nat.zero_add _
  have hcounts := h.counts
  rwa [BodyState.Counts, hvars] at hcounts

end

private theorem wellScoped_of_generate {g : Generated} (h : generate tree = .ok g) : WellScoped tree := by
  refine ⟨fun {index name params body o} hat => ?_, ?_⟩
  · obtain ⟨a, scope, ids, c, last, hf⟩ := generate_function h hat
    exact ⟨hf.reach, hf.varCount_eq.2, hf.stmtsCode.eachUse⟩
  · obtain ⟨st, i, body, o, -, hmain, hat, -⟩ := generate_lays h
    exact ⟨i, body, o, (declared_eq_function_iff.mp hmain).1, hat⟩

end

/-- A source is compiled exactly if it is well scoped. The marks by which this is said are the names and braces of the
text, in order. In the code of a function, every variable is read and set at the place of the declaration that its name
means there. -/
theorem scoping_is_lexical (tree : Tree) :
    ((∃ g, generate tree = .ok g) ↔ WellScoped tree) ∧
      ∀ g, generate tree = .ok g → ∀ index name params body o, tree[index]? = some (.func name params body o) →
        (Stmt.allMarks body).map Mark.token = (Stmt.unparseAll body).filter TokenKind.isMark ∧
          ∃ a c, g.code.Placed a (framedCode name (varCount (Stmt.allMarks body)) c) ∧
            StmtsCode ⟨tree, index, params⟩ name [] body c := by
  refine ⟨⟨fun ⟨g, hg⟩ => wellScoped_of_generate hg, WellScoped.exists_generate⟩, ?_⟩
  intro g hg index name params body o hat
  obtain ⟨a, scope, ids, c, last, hf⟩ := generate_function hg hat
  refine ⟨Stmt.map_token_allMarks body, a, c, ?_, hf.stmtsCode⟩
  rw [framedCode, ← hf.varCount_eq.1]
  exact hf.placed

def shadowingBody : List Stmt :=
  [.var "x" (some (.var "a" 24)) 22, .scope [.var "x" (some (.var "x" 33)) 31, .assign "x" (.int 1) 35],
    .cond (.var "x" 43) (.var "y" (some (.call "f" [.var "y" 53, .var "a" 55] 51)) 49), .assign "y" (.var "x" 60) 58,
    .ret (some (.var "y" 69))]

def shadowingTree : Tree :=
  [.global "x", .func "f" ["a", "a"] shadowingBody 11,
    .func "main" [] [.assign "x" (.call "f" [.var "x" 88, .int 2] 86) 84] 77]

theorem scoping_is_lexical_of_shadowing : ∃ g, generate shadowingTree = .ok g ∧ WellScoped shadowingTree ∧
    (Stmt.allMarks shadowingBody).map Mark.token = (Stmt.unparseAll shadowingBody).filter TokenKind.isMark ∧
      ∃ a c, g.code.Placed a (framedCode "f" 3 c) ∧
        StmtsCode ⟨shadowingTree, 1, ["a", "a"]⟩ "f" [] shadowingBody c := by
  obtain ⟨g, hg⟩ : ∃ g, generate shadowingTree = .ok g := ⟨_, rfl⟩
  obtain ⟨hscoped, hcode⟩ := scoping_is_lexical shadowingTree
  exact ⟨g, hg, hscoped.mp ⟨g, hg⟩, hcode g hg 1 "f" ["a", "a"] shadowingBody 11 rfl⟩

end StackToolchain
