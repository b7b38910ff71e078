import StackToolchain.Proofs.Compiler.Assembling
import StackToolchain.Proofs.Compiler.StatementRuns
import StackToolchain.Proofs.Machine.Sketches
import StackToolchain.Proofs.Source.Lexing

/-! Compiled programs run safely.
With a budget, the code of every expression, statement and function can be run. The proof is by induction on the
budget, which calls and rounds of loops make smaller, and on the source. It follows that a run never leaves the
code and never changes it, whatever the source does. -/
namespace StackToolchain

open Source Machine Linked

structure Built (tree : Tree) (L : Linked) : Prop where
  function : ∀ {i name ps body o}, tree[i]? = some (.func name ps body o) →
    ∃ a scope ids c last, FunctionCode tree L.code i name ps body a scope ids c last
  global : ∀ {g}, .global g ∈ tree → ∃ a, L.Record g a
  declares : ∀ {g a}, L.Record g a → .global g ∈ tree
  entry : ∃ ids i body o, declared tree tree.length "main" = some (.function i) ∧
    tree[i]? = some (.func "main" [] body o) ∧ L.code.Placed 0 ((callCode "main" [] ids).1 ++ [.inst .halt])

/-- A source that compiles to a small image gives a linked program. -/
theorem exists_built {source : String} {out : Compiled} {bytes : List UInt8} (h : compile .binary source = .ok out)
    (hbin : out.artifact = .binary bytes) (hsmall : bytes.length ≤ 0x8000) :
    ∃ tree g L, parseSource .standard source = .ok tree ∧ generate tree = .ok g ∧ Built tree L ∧ L.code = g.code ∧
      L.bytes = bytes ∧ L.labels = out.symbols.labels := by
  obtain ⟨g, hg, hfin⟩ := bind_eq_ok.mp h
  obtain ⟨tree, ht, hg⟩ := bind_eq_ok.mp hg
  cases hc : Labels.collect g.code with
  | error e => simp [Generated.finish, hc, Except.mapError, bind, Except.bind] at hfin
  | ok labels =>
    obtain ⟨image, he⟩ := generate_encode hg hc
    simp only [Generated.finish, hc, he, Except.mapError, bind, Except.bind, pure, Except.pure, Except.ok.injEq] at hfin
    subst hfin
    cases hbin
    refine ⟨tree, g, ⟨g.code, labels, bytes, hc, he, generate_wellFormed hg, hsmall⟩, ht, hg, ?_, rfl, rfl, rfl⟩
    refine ⟨fun hi => generate_function hg hi, fun hm => generate_global hg hm,
      fun hr => generate_global_of_label hg hr.mem, ?_⟩
    obtain ⟨st, i, body, o, -, hd, hi, hcode⟩ := generate_lays hg
    exact ⟨st.ids, i, body, o, hd, hi, [], st.code.reverse, by simpa using hcode, rfl⟩

section
variable {L : Linked} {params vars ret n : Nat} {locals locals' ls ls' : Activation} {κ κ' s s' : Store}
  {flow f : Flow} {c : Program}

/-- With a budget it does not matter what an evaluation is said to come to. -/
theorem ExprRuns.any (h : ExprRuns L (some n) params vars locals c κ κ') :
    ExprRuns L (some n) params vars locals c κ s' := by
  intro lo hi a rest Q m hat hk next
  exact h hat hk fun m' hat' hkept _ => next m' hat' hkept nofun

private theorem StmtRuns.any (h : StmtRuns L (some n) params vars ret c locals κ flow locals' κ') :
    StmtRuns L (some n) params vars ret c locals κ f ls' s' := by
  intro lo hi a rest Q m hat hin hk next leave
  exact h hat hin hk (fun _ m' hat' hfr _ => next nofun m' hat' hfr nofun)
    (fun _ m' hpc hr hfr _ => leave nofun m' hpc hr hfr nofun)

/-- Nor does it matter what it is said to come from. -/
theorem StmtRuns.anyStart (h : StmtRuns L (some n) params vars ret c locals κ flow locals' κ') :
    StmtRuns L (some n) params vars ret c ls s flow locals' κ' :=
  fun _ _ _ _ _ _ hat hin _ next leave => h hat hin nofun next leave

end

def FunctionsRun (tree : Tree) (L : Linked) (n : Nat) : Prop :=
  ∀ ⦃i name ps body o a scope ids c last⦄, tree[i]? = some (.func name ps body o) →
    FunctionCode tree L.code i name ps body a scope ids c last →
      ∀ values κ κ', FunctionRuns L (some n) a ps.length values κ κ'

section
variable {tree : Tree} {L : Linked} {params vars N : Nat}

mutual

/-- The code of an expression can be run for as long as functions can, and one step more. -/
theorem compileExpr_safe (hB : Built tree L) (hf : ∀ n < N, FunctionsRun tree L n) :
    (e : Expr) → ∀ {names : Names} {scope : Scope} {ids ids' : LabelSupply} {code : Program} {n : Nat},
      Agrees tree params names scope → compileExpr scope e ids = .ok (code, ids') → n ≤ N →
        ExprRuns L (some n) params vars (fun _ => none) code .initial .initial
  | .int k, names, scope, ids, ids', code, n, ha, h, hn => by
    obtain ⟨rfl, -⟩ := compileExpr_int.mp h
    exact (imm_runs k).any
  | .var x o, names, scope, ids, ids', code, n, ha, h, hn => by
    obtain ⟨cell, hc, rfl, -⟩ := compileExpr_var.mp h
    rcases ha.of_cell hc with ⟨v, -, -, rfl⟩ | ⟨g, -, hg, rfl⟩
    · exact (load_frame_runs (b := some n) (w := 0) nofun).any
    · obtain ⟨t, ht⟩ := hB.global hg
      exact (load_record_runs ht).any
  | .paren inner, names, scope, ids, ids', code, n, ha, h, hn =>
    compileExpr_safe hB hf inner ha (compileExpr_paren.mp h) hn
  | .binary left op right, names, scope, ids, ids', code, n, ha, h, hn => by
    obtain ⟨l, mid, r, hl, hr, rfl⟩ := compileExpr_binary.mp h
    exact (binaryCode_runs (v := 0) (compileExpr_safe hB hf left ha hl hn) (compileExpr_safe hB hf right ha hr hn)
      nofun).any
  | .call x args o, names, scope, ids, ids', code, n, ha, h, hn => by
    obtain ⟨codes, mid, harity, hc, he⟩ := compileExpr_call.mp h
    obtain ⟨i, ps, body, o', -, hi, hps⟩ := ha.of_arity harity
    obtain ⟨a, sc, ids₀, c, last, hcode⟩ := hB.function hi
    obtain ⟨hlen, hargs⟩ := compileArgs_safe hB hf args ha hc hn
    rw [show code = (callCode x codes mid).1 from congrArg Prod.fst he]
    refine callCode_runs hcode.placed hargs nofun fun hb => ?_
    obtain ⟨k, rfl⟩ := Nat.exists_eq_succ_of_ne_zero (fun h0 => hb (congrArg some h0))
    rw [hlen, ← hps]
    exact hf k (by omega) hi hcode _ _ _

/-- So can the code of arguments. -/
theorem compileArgs_safe (hB : Built tree L) (hf : ∀ n < N, FunctionsRun tree L n) :
    (args : List Expr) → ∀ {names : Names} {scope : Scope} {ids ids' : LabelSupply} {codes : List Program} {n : Nat},
      Agrees tree params names scope → compileArgs scope args ids = .ok (codes, ids') → n ≤ N →
        codes.length = args.length ∧ ArgsRuns L (some n) params vars (fun _ => none) codes .initial [] .initial
  | [], names, scope, ids, ids', codes, n, ha, h, hn => by
    obtain ⟨rfl, -⟩ := compileArgs_nil.mp h
    exact ⟨rfl, argsCode_nil_runs⟩
  | arg :: rest, names, scope, ids, ids', codes, n, ha, h, hn => by
    obtain ⟨c, mid, cs, hc, hr, rfl⟩ := compileArgs_cons.mp h
    obtain ⟨hlen, hcs⟩ := compileArgs_safe hB hf rest ha hr hn
    refine ⟨by simp [hlen], ?_⟩
    intro lo hi a tail Q m hat _ next
    exact argsCode_cons_runs (compileExpr_safe hB hf arg ha hc hn) hcs hat nofun
      fun m' hat' hsp hrsb hstack _ => next m' hat' hsp hrsb hstack nofun

end

end

section
variable {tree : Tree} {L : Linked} {function : String} {params vars ret N : Nat} {tail : Program}

theorem initial_returnLabel_ne (function : String) : initial (returnLabel function) ≠ some 'f' := by simp

theorem initial_fresh_ne {stem : String} (hs : stem ∈ stems) (ids : LabelSupply) :
    initial (ids.fresh stem).1 ≠ some 'f' := by
  intro h
  have := initial_numberedLabel hs ids.next
  rw [show numberedLabel stem ids.next = (ids.fresh stem).1 from rfl, h] at this
  simp at this

mutual

/-- The code of a statement can be run for as long as functions can, and one step more. -/
theorem compileStmt_safe (hB : Built tree L) (hf : ∀ n < N, FunctionsRun tree L n)
    (hret : L.code.Placed ret (.label (returnLabel function) :: tail)) :
    (s : Stmt) → ∀ {names : Names} {scope scope' : Scope} {st st' : BodyState} {code : Program} {n : Nat},
      Agrees tree params names scope → st.Counts names → compileStmt function s scope st = .ok (code, scope', st') →
        (names.after s).vars ≤ vars → n ≤ N →
          StmtRuns L (some n) params vars ret code (fun _ => none) .initial .next (fun _ => none) .initial
  | .scope body, names, scope, scope', st, st', code, n, ha, hc, h, hv, hn => by
    obtain ⟨hb, -⟩ := compileStmt_scope.mp h
    exact compileStmts_safe hB hf hret body ha hc hb hv hn
  | .var x none o, names, scope, scope', st, st', code, n, ha, hc, h, hv, hn => by
    obtain ⟨off, -, rfl, -⟩ := compileStmt_var_none.mp h
    exact nil_runs
  | .var x (some value) o, names, scope, scope', st, st', code, n, ha, hc, h, hv, hn => by
    obtain ⟨off, mid, c, ids, hl, rfl, hcode, rfl, -⟩ := compileStmt_var_some.mp h
    obtain ⟨rfl, hw, ha', -⟩ := addLocal_agrees ha hc hl
    refine append_runs (compileExpr_safe hB hf value ha' hcode hn).stmt (fun _ => ?_) nofun
    exact (store_frame_runs (hw.mono hv)).any
  | .assign x value o, names, scope, scope', st, st', code, n, ha, hc, h, hv, hn => by
    obtain ⟨cell, c, ids, hcell, hcode, rfl, -, -⟩ := compileStmt_assign.mp h
    refine append_runs (compileExpr_safe hB hf value ha hcode hn).stmt (fun _ => ?_) nofun
    rcases ha.of_cell hcell with ⟨v, -, hw, rfl⟩ | ⟨g, -, hg, rfl⟩
    · exact (store_frame_runs (hw.mono hv)).any
    · obtain ⟨t, ht⟩ := hB.global hg
      exact (store_record_runs ht).any
  | .write x value, names, scope, scope', st, st', code, n, ha, hc, h, hv, hn => by
    obtain ⟨a, mid, v, ids, hx, hval, rfl, -, -⟩ := compileStmt_write.mp h
    exact (writeCode_runs (compileExpr_safe hB hf x ha hx hn) (compileExpr_safe hB hf value ha hval hn)
      nofun).any
  | .ret none, names, scope, scope', st, st', code, n, ha, hc, h, hv, hn => by
    obtain ⟨rfl, -, -⟩ := compileStmt_ret_none.mp h
    exact (ret_runs (initial_returnLabel_ne function) hret).any
  | .ret (some value), names, scope, scope', st, st', code, n, ha, hc, h, hv, hn => by
    obtain ⟨c, ids, hcode, rfl, -, -⟩ := compileStmt_ret_some.mp h
    refine append_runs (compileExpr_safe hB hf value ha hcode hn).stmt (fun _ => ?_) nofun
    exact (ret_runs (initial_returnLabel_ne function) hret).any
  | .cond test body, names, scope, scope', st, st', code, n, ha, hc, h, hv, hn => by
    obtain ⟨t, ids, c, ht, hb, rfl⟩ := compileStmt_cond.mp h
    exact condCode_runs (initial_fresh_ne (by simp [stems]) _) (compileExpr_safe hB hf test ha ht hn)
      (fun _ => compileStmt_safe hB hf hret body ha (hc.withIds _) hb hv hn) nofun
  | .loop test body, names, scope, scope', st, st', code, n, ha, hc, h, hv, hn => by
    obtain ⟨t, ids, c, ht, hb, rfl⟩ := compileStmt_loop.mp h
    have htest : ∀ k ≤ N, ExprRuns L (some k) params vars (fun _ => none) t .initial .initial :=
      fun k hk => compileExpr_safe hB hf test ha ht hk
    have hbody : ∀ k ≤ N,
        StmtRuns L (some k) params vars ret c (fun _ => none) .initial .next (fun _ => none) .initial :=
      fun k hk => compileStmt_safe hB hf hret body ha (hc.withIds _) hb hv hk
    -- every round takes a step from the budget
    induction n with
    | zero =>
      exact loopCode_runs (initial_fresh_ne (by simp [stems]) _) (initial_fresh_ne (by simp [stems]) _) (htest 0 hn)
        (fun _ => hbody 0 hn) (fun hb => absurd rfl hb) nofun nofun
    | succ n ih =>
      exact loopCode_runs (initial_fresh_ne (by simp [stems]) _) (initial_fresh_ne (by simp [stems]) _) (htest _ hn)
        (fun _ => hbody _ hn) (fun _ _ => ih (by omega)) nofun nofun
  | .expr value, names, scope, scope', st, st', code, n, ha, hc, h, hv, hn => by
    obtain ⟨ids, hcode, -, -⟩ := compileStmt_expr.mp h
    exact (compileExpr_safe hB hf value ha hcode hn).stmt

/-- So can the code of the statements of a scope. -/
theorem compileStmts_safe (hB : Built tree L) (hf : ∀ n < N, FunctionsRun tree L n)
    (hret : L.code.Placed ret (.label (returnLabel function) :: tail)) :
    (body : List Stmt) → ∀ {names : Names} {scope : Scope} {st st' : BodyState} {code : Program} {n : Nat},
      Agrees tree params names scope → st.Counts names → compileStmts function [] body scope st = .ok (code, st') →
        (names.afterAll body).vars ≤ vars → n ≤ N →
          StmtRuns L (some n) params vars ret code (fun _ => none) .initial .next (fun _ => none) .initial
  | [], names, scope, st, st', code, n, ha, hc, h, hv, hn => by
    obtain ⟨rfl, -⟩ := compileStmts_nil.mp h
    exact nil_runs
  | s :: rest, names, scope, st, st', code, n, ha, hc, h, hv, hn => by
    obtain ⟨c, sc, mid, cs, hs, hr, rfl⟩ := compileStmts_cons.mp h
    obtain ⟨ha', hc', -⟩ := compileStmt_agrees s ha hc hs
    obtain ⟨-, hle⟩ := compileStmts_counts rest ha' hc' hr
    exact append_runs (compileStmt_safe hB hf hret s ha hc hs (hle.trans hv) hn)
      (fun _ => compileStmts_safe hB hf hret rest ha' hc' hr hv hn) nofun

end

/-- The size of the frame is that of the variables of the body. -/
theorem FunctionCode.size_eq {i a : Nat} {name : String} {ps : List String} {body : List Stmt} {code c : Program}
    {scope : Scope} {ids : LabelSupply} {last : BodyState}
    (h : FunctionCode tree code i name ps body a scope ids c last) :
    last.slots.size.toNat = 2 * ((Names.enter tree i ps).afterAll body).vars ∧
      ((Names.enter tree i ps).afterAll body).vars ≤ 64 := by
  obtain ⟨hcount, hle⟩ := h.counts
  refine ⟨?_, hle⟩
  rw [SlotSupply.size, toNat_toUInt16 (by omega), hcount]

/-- Functions can be run for any number of steps. -/
theorem functionsRun (hB : Built tree L) (n : Nat) : FunctionsRun tree L n := by
  induction n using Nat.strong_induction_on with
  | _ n ih =>
    intro i name ps body o a scope ids c last hi hcode values κ κ'
    obtain ⟨hsize, hvars⟩ := hcode.size_eq
    have hret : L.code.Placed (a + 16 + Program.size c) (epilogue name) := hcode.placed.right.right
    have hstart : BodyState.Counts ⟨ids, {}, []⟩ (.enter tree i ps) := ⟨rfl, Nat.zero_le _⟩
    have hbody := compileStmts_safe hB ih hret body hcode.agrees hstart hcode.compiled le_rfl (le_refl n)
    have hany : StmtRuns L (some n) ps.length _ _ c (.ofArgs values) κ .next (fun _ => none) κ' := hbody.anyStart.any
    exact function_runs hsize hvars hcode.reach hcode.placed hany

end

section
variable {tree : Tree} {L : Linked} {b : Budget} {κ κ' : Store} {m m₀ : Machine} {n : Nat}

private theorem Linked.Fresh.ready (hm : L.Fresh m) : L.Ready m :=
  ⟨hm.intact, by rw [sp, hm.rsp]; decide, by rw [sp, hm.rsp]; decide⟩

/-- The run of a program comes to the stop at the end of its first call, with an empty stack. -/
theorem Built.leads (hB : Built tree L) (hm : L.Fresh m)
    (hf : b ≠ some 0 → ∀ {i body o a scope ids c last}, declared tree tree.length "main" = some (.function i) →
      tree[i]? = some (.func "main" [] body o) → FunctionCode tree L.code i "main" [] body a scope ids c last →
        FunctionRuns L b.spend a 0 [] κ κ') (hk : b = none → Holds L κ m) :
    Leads L 0 (Program.size L.code) (fun m' => L.At 0 (Program.size L.code) 12 [.inst .halt] m' ∧ m'.reg .rsp = 0x8000 ∧
      m'.reg .rsb = 0x8000 ∧ (b = none → Holds L κ' m')) b 0 m := by
  obtain ⟨ids, i, body, o, hd, hi, hplaced⟩ := hB.entry
  obtain ⟨a, scope, ids', c, last, hcode⟩ := hB.function hi
  have hat : L.At 0 (Program.size L.code) 0 ((callCode "main" [] ids).1 ++ [.inst .halt]) m :=
    ⟨by rw [hm.pc]; rfl, hplaced, hm.ready, le_rfl, hplaced.add_size_le⟩
  have hsp : m.sp = 0x8000 := congrArg UInt16.toNat hm.rsp
  refine Leads.callFunction (n := 0) hat hcode.placed (by omega) (fun hb => hf hb hd hi hcode)
    (fun hb => ⟨hk hb, rfl, nofun⟩) fun m' hat' hsp' hrsb _ hstore => ?_
  exact .done ⟨hat', UInt16.toNat_inj.mp (hsp'.trans hsp), hrsb.trans hm.rsb, hstore⟩

theorem Linked.At.fetch_halt {lo hi a : Nat} {rest : Program} (h : L.At lo hi a (.inst .halt :: rest) m) :
    m.fetch = .ok .halt := by
  have hi : L.code.instAt m.pc.toNat = some .halt := h.pc ▸ h.placed.instAt_eq
  exact h.ready.intact.fetch hi (by decide)

private theorem Linked.At.after_halt {lo hi a : Nat} {rest : Program} (h : L.At lo hi a (.inst .halt :: rest) m₀)
    (hrun : m₀.after n = some m) : L.At lo hi a (.inst .halt :: rest) m := by
  obtain rfl | rfl := Machine.after_halt h.fetch_halt hrun
  · exact h
  · exact ⟨h.pc, h.placed, h.ready.of_mem_eq rfl rfl, h.lo_le, h.le_hi⟩

/-- Every state of a run has the code intact and stands at an instruction of it. -/
theorem Built.reachable (hB : Built tree L) (hm : L.Fresh m₀) (hrun : m₀.after n = some m)
    (hb : m₀.Behaves L.bytes.length n) : L.Ready m ∧ ∃ i, L.code.instAt m.pc.toNat = some i ∧ i.op ≠ .word := by
  have hleads := hB.leads (b := some n) hm
    (fun _ _ _ _ _ _ _ _ _ _ hi hcode => functionsRun hB n.pred hi hcode [] .initial .initial) nofun
  rcases hleads.reach hrun hb with ⟨j, hj, x, hx, ⟨hat, -⟩, -⟩ | ⟨k, hp, -⟩
  · obtain ⟨t, rfl⟩ := Nat.exists_eq_add_of_le hj
    rw [after_add hx] at hrun
    have hat' := hat.after_halt hrun
    exact ⟨hat'.ready, .halt, hat'.pc ▸ hat'.placed.instAt_eq, nofun⟩
  · obtain ⟨i, hi, hop, -⟩ := hp.inst
    exact ⟨hp.ready, i, hi, hop⟩

end

/-- A source compiles if every stage does. -/
theorem compile_binary_eq_ok {source : String} {text : List Char} {tokens : List Token} {tree : Tree} {g : Generated}
    {labels : Labels} {bytes : List UInt8} (htext : blankComments source.toList = .ok text)
    (htokens : lex text = .ok tokens) (htree : Grammar.standard.parse tokens = .ok tree)
    (hg : generate tree = .ok g) (hl : Labels.collect g.code = .ok labels) (hb : g.code.encode labels = .ok bytes) :
    parseSource .standard source = .ok tree ∧
      compile .binary source = .ok ⟨.binary bytes, ⟨labels, g.frames⟩⟩ := by
  have hparse : parseSource .standard source = .ok tree := by
    simp [parseSource, tokenize, stripped, lexed, parseTokens, htext, htokens, htree, Except.mapError, bind,
      Except.bind]
  refine ⟨hparse, ?_⟩
  simp [compile, compileWith, generateSource, Generated.finish, hparse, hg, hl, hb, Except.mapError, bind, Except.bind,
    pure, Except.pure]

/-- A function gives a global variable the value of its argument, and the caller writes it to memory. -/
def sampleSource : String :=
  "var a;func f(x)\x7ba=x;\x7dfunc main()\x7bf(7);write 4096 a;return a;\x7d"

def sampleTree : Tree :=
  [.global "a", .func "f" ["x"] [.assign "a" (.var "x" 18) 16] 11,
    .func "main" [] [.expr (.call "f" [.int 7] 33), .write (.int 4096) (.var "a" 49), .ret (some (.var "a" 58))] 26]

def sampleImage : List UInt8 :=
  [18, 1, 12, 0, 21, 0, 1, 0, 23, 62, 0, 0, 0, 0, 26, 0, 0, 0, 21, 0, 6, 0, 17, 7, 0, 6, 18, 2, 0, 0, 1, 6, 2, 7,
    19, 6, 250, 0, 18, 1, 14, 0, 20, 1, 0, 2, 17, 6, 0, 7, 22, 0, 0, 6, 22, 0, 0, 1, 25, 1, 0, 0, 21, 0, 6, 0, 17,
    7, 0, 6, 18, 2, 0, 0, 1, 6, 2, 7, 18, 0, 7, 0, 21, 0, 0, 0, 18, 1, 98, 0, 21, 0, 1, 0, 23, 18, 0, 0, 22, 0, 0,
    1, 18, 0, 0, 16, 21, 0, 0, 0, 18, 1, 14, 0, 19, 1, 2, 0, 22, 0, 0, 5, 20, 5, 0, 0, 18, 1, 14, 0, 19, 1, 2, 0,
    23, 138, 0, 0, 17, 6, 0, 7, 22, 0, 0, 6, 22, 0, 0, 1, 25, 1, 0, 0]

def sampleProgram : Generated :=
  match generate sampleTree with
  | .ok g => g
  | .error _ => ⟨[], .empty⟩

def sampleLabels : Labels :=
  match Labels.collect sampleProgram.code with
  | .ok labels => labels
  | .error _ => .empty

theorem generate_sample : generate sampleTree = .ok sampleProgram := rfl

set_option maxRecDepth 2000 in
private theorem encode_sample : sampleProgram.code.encode sampleLabels = .ok sampleImage := by
  rfl

theorem compile_sample : parseSource .standard sampleSource = .ok sampleTree ∧
    compile .binary sampleSource = .ok ⟨.binary sampleImage, ⟨sampleLabels, sampleProgram.frames⟩⟩ := by
  have hstages : ∃ text tokens, blankComments sampleSource.toList = .ok text ∧ lex text = .ok tokens ∧
      Grammar.standard.parse tokens = .ok sampleTree := by
    simp only [sampleSource, String.reduceToList]
    refine ⟨_, [⟨.keyword .var, 0⟩, ⟨.ident "a", 4⟩, ⟨.punct .semicolon, 5⟩, ⟨.keyword .func, 6⟩, ⟨.ident "f", 11⟩,
      ⟨.punct .lparen, 12⟩, ⟨.ident "x", 13⟩, ⟨.punct .rparen, 14⟩, ⟨.punct .lbrace, 15⟩, ⟨.ident "a", 16⟩,
      ⟨.punct .assign, 17⟩, ⟨.ident "x", 18⟩, ⟨.punct .semicolon, 19⟩, ⟨.punct .rbrace, 20⟩, ⟨.keyword .func, 21⟩,
      ⟨.ident "main", 26⟩, ⟨.punct .lparen, 30⟩, ⟨.punct .rparen, 31⟩, ⟨.punct .lbrace, 32⟩, ⟨.ident "f", 33⟩,
      ⟨.punct .lparen, 34⟩, ⟨.number 7, 35⟩, ⟨.punct .rparen, 36⟩, ⟨.punct .semicolon, 37⟩, ⟨.keyword .write, 38⟩,
      ⟨.number 4096, 44⟩, ⟨.ident "a", 49⟩, ⟨.punct .semicolon, 50⟩, ⟨.keyword .ret, 51⟩, ⟨.ident "a", 58⟩,
      ⟨.punct .semicolon, 59⟩, ⟨.punct .rbrace, 60⟩, ⟨.endOfInput, 61⟩], rfl, ?_, rfl⟩
    rw [← lexWithin_eq_lex]
    rfl
  obtain ⟨text, tokens, htext, htokens, htree⟩ := hstages
  exact compile_binary_eq_ok htext htokens htree generate_sample rfl encode_sample

theorem length_sampleImage : sampleImage.length = 154 := by
  decide +kernel

def sampleStart : Machine :=
  .start (.ofImage sampleImage (by rw [length_sampleImage]; omega))

theorem load_sample : Machine.load sampleImage = .ok sampleStart := by
  rw [Machine.load, dif_pos]
  rfl

def sampleTrace : List UInt16 :=
  [0, 4, 8, 62, 66, 70, 74, 78, 82, 86, 90, 94, 18, 22, 26, 30, 34, 38, 42, 46, 50, 54, 58, 98, 102, 106, 110, 114, 118,
    122, 126, 130, 134, 138, 142, 146, 150, 12]

private def sampleSketch : Sketch :=
  ⟨(Machine.start .zero).regs, sampleImage, [], 0⟩

private theorem shows_sampleStart : sampleSketch.Shows sampleStart :=
  .start _

-- the only write comes in step 29
private theorem sample_trace : ∀ k ≤ 37, ((sampleSketch.after? k).any fun s => s.pc == sampleTrace.getD k 0 &&
    decide (0x8000 ≤ (s.processor.reg .rsp).toNat) &&
      (k == 29 || !(s.fetch.toOption == some (.memw .rexpr .rret 0)))) = true := by
  decide +kernel

theorem sample_after {k : Nat} (hk : k ≤ 37) : ∃ x, sampleStart.after k = some x ∧ x.pc = sampleTrace.getD k 0 ∧
    0x8000 ≤ x.sp ∧ (x.fetch = .ok (.memw .rexpr .rret 0) → k = 29) := by
  obtain ⟨s, x, hx, hshows, h⟩ := shows_sampleStart.checked (sample_trace k hk)
  simp only [Bool.and_eq_true, beq_iff_eq, decide_eq_true_eq, ← hshows.reg, ← hshows.pc, ← hshows.fetch] at h
  refine ⟨x, hx, h.1.1, h.1.2, fun hf => ?_⟩
  simpa [hf, Except.toOption] using h.2

theorem sample_halts : ∃ x, sampleStart.after 37 = some x ∧ x.fetch = .ok .halt := by
  have hlast : ((sampleSketch.after? 37).any fun s => s.fetch.toOption == some .halt) = true := by decide +kernel
  obtain ⟨s, x, hx, hshows, h⟩ := shows_sampleStart.checked hlast
  refine ⟨x, hx, hshows.fetch.trans ?_⟩
  cases hf : s.fetch with
  | error e => simp [hf, Except.toOption] at h
  | ok i => simpa [hf, Except.toOption] using h

theorem sample_behaves {n : Nat} (hn : n ≤ 29) : sampleStart.Behaves sampleImage.length n := by
  refine ⟨fun k hk x hx => ?_, fun k hk x hx hw => ?_⟩
  · obtain ⟨y, hy, -, hsp, -⟩ := sample_after (show k ≤ 37 by omega)
    cases hy.symm.trans hx
    exact hsp
  · obtain ⟨y, hy, -, -, hwrite⟩ := sample_after (show k ≤ 37 by omega)
    cases hy.symm.trans hx
    have := hwrite hw
    omega

/-- A byte of the word in the record of a global variable, by the labels and the listing of an image. -/
def GlobalCell (tree : Tree) (labels : Labels) (listing : List (UInt16 × Instruction)) (k : Nat) : Prop :=
  ∃ name a v, .global name ∈ tree ∧ labels.get? (globalLabel name) = some a ∧ (a, .word v) ∈ listing ∧
    (k = a.toNat + 2 ∨ k = a.toNat + 3)

/-- As long as the stack does not wrap and the program writes memory only between itself and the stack, a run of
a compiled program goes through its instructions and never through its data. It changes nothing of the image but
the words of global variables, and only a division by zero ends it with a fault. -/
theorem compiled_program_runs_safely {source : String} {out : Compiled} {bytes : List UInt8}
    (h : compile .binary source = .ok out) (hbin : out.artifact = .binary bytes) (hsmall : bytes.length ≤ 0x8000) :
    ∃ tree listing m₀, parseSource .standard source = .ok tree ∧ disassemble bytes = .ok listing ∧
      Machine.load bytes = .ok m₀ ∧ ∀ n m, m₀.after n = some m → m₀.Behaves bytes.length n →
        (∃ i, (m.pc, i) ∈ listing ∧ i.op ≠ .word ∧
          ((∃ m', m.exec = (.ok i, m')) ∨ m.exec = (.error (.divisionByZero m.pc), m))) ∧
        ∀ k (hk : k < bytes.length), ¬ GlobalCell tree out.symbols.labels listing k →
          m.mem.byte k.toUInt16 = bytes[k] := by
  obtain ⟨tree, g, L, hparse, -, hB, -, rfl, hlabels⟩ := exists_built h hbin hsmall
  obtain ⟨m₀, hload, hfresh⟩ := L.exists_load
  have hlist := Program.disassemble_encode L.wellFormed L.encoded
  have hmem : ∀ {a i}, L.code.instAt a = some i →
      (a.toUInt16, i.resolve L.labels.get?) ∈ L.code.resolvedFrom L.labels 0 := by
    intro a i hi
    simpa using (Program.placed_of_instAt hi).mem_resolvedFrom 0
  refine ⟨tree, _, m₀, hparse, hlist, hload, fun n m hrun hb => ?_⟩
  obtain ⟨hready, i, hi, hop⟩ := hB.reachable hfresh hrun hb
  refine ⟨⟨i.resolve L.labels.get?, ?_, hop, hready.intact.exec hi hop⟩, fun k hk hcell => ?_⟩
  · simpa using hmem hi
  · refine hready.intact k hk fun ⟨name, a, hr, hka⟩ => hcell ?_
    obtain ⟨haddr, ha⟩ := address_of_placed hr
    exact ⟨name, a.toUInt16, 0, hB.declares hr, hlabels ▸ haddr, hmem hr.instAt, by rwa [ha]⟩

theorem compiled_program_runs_safely_sample :
    ∃ listing m, disassemble sampleImage = .ok listing ∧ sampleStart.after 22 = some m ∧
      sampleStart.Behaves sampleImage.length 22 ∧
        (∃ i, (m.pc, i) ∈ listing ∧ i.op ≠ .word ∧
          ((∃ m', m.exec = (.ok i, m')) ∨ m.exec = (.error (.divisionByZero m.pc), m))) ∧
        ∀ k (hk : k < sampleImage.length), ¬ GlobalCell sampleTree sampleLabels listing k →
          m.mem.byte k.toUInt16 = sampleImage[k] := by
  obtain ⟨hparse, hcompile⟩ := compile_sample
  obtain ⟨tree, listing, m₀, hparse', hlist, hload, hsafe⟩ :=
    compiled_program_runs_safely hcompile rfl (by rw [length_sampleImage]; omega)
  cases hparse.symm.trans hparse'
  cases load_sample.symm.trans hload
  obtain ⟨m, hrun, -⟩ := sample_after (show 22 ≤ 37 by decide)
  have hbehaves := sample_behaves (show 22 ≤ 29 by decide)
  exact ⟨listing, m, hlist, hrun, hbehaves, hsafe 22 m hrun hbehaves⟩

end StackToolchain
