import StackToolchain.Proofs.Compiler.Safety

/-! Compiled programs compute what their sources mean.
Without a budget, the code of whatever can be evaluated runs to its end and leaves the machine with the state of
the evaluation. The proof is by induction on the fuel of the evaluation, with one lemma for each kind of piece. -/
namespace StackToolchain

open Source Machine Linked

/-- What was written lies between the program and the stack. -/
def Source.Store.Free (low : Nat) (κ : Store) : Prop :=
  ∀ w ∈ κ.writes, low ≤ w.1.toNat ∧ w.1.toNat ≤ 0x7FFE

/-- Expressions that are evaluated with an amount of fuel have code that computes them. -/
private def ExprsSound (tree : Tree) (L : Linked) (fuel : Nat) : Prop :=
  ∀ ⦃names locals κ e κ' params vars scope ids ids' code⦄, evalExpr tree fuel names locals κ e = some κ' →
    κ'.Free L.bytes.length → Agrees tree params names scope → compileExpr scope e ids = .ok (code, ids') →
      κ.Free L.bytes.length ∧ ExprRuns L none params vars locals code κ κ'

private def ArgsSound (tree : Tree) (L : Linked) (fuel : Nat) : Prop :=
  ∀ ⦃names locals κ args values κ' params vars scope ids ids' codes⦄,
    evalArgs tree fuel names locals κ args = some (values, κ') → κ'.Free L.bytes.length →
      Agrees tree params names scope → compileArgs scope args ids = .ok (codes, ids') →
        κ.Free L.bytes.length ∧ values.length = args.length ∧ codes.length = args.length ∧
          ArgsRuns L none params vars locals codes κ values κ'

def CallsSound (tree : Tree) (L : Linked) (fuel : Nat) : Prop :=
  ∀ ⦃i values κ κ' name ps body o a scope ids c last⦄, evalCall tree fuel i values κ = some κ' →
    κ'.Free L.bytes.length → tree[i]? = some (.func name ps body o) →
      FunctionCode tree L.code i name ps body a scope ids c last →
        κ.Free L.bytes.length ∧ FunctionRuns L none a ps.length values κ κ'

private def StmtsSound (tree : Tree) (L : Linked) (fuel : Nat) : Prop :=
  ∀ ⦃names locals κ s flow locals' κ' params vars ret function scope scope' st st' code tail⦄,
    evalStmt tree fuel names locals κ s = some (flow, locals', κ') → κ'.Free L.bytes.length →
      Agrees tree params names scope → st.Counts names → compileStmt function s scope st = .ok (code, scope', st') →
        (names.after s).vars ≤ vars → L.code.Placed ret (.label (returnLabel function) :: tail) →
          κ.Free L.bytes.length ∧ StmtRuns L none params vars ret code locals κ flow locals' κ'

private def BodiesSound (tree : Tree) (L : Linked) (fuel : Nat) : Prop :=
  ∀ ⦃names locals κ body flow locals' κ' params vars ret function scope st st' code tail⦄,
    evalStmts tree fuel names locals κ body = some (flow, locals', κ') → κ'.Free L.bytes.length →
      Agrees tree params names scope → st.Counts names → compileStmts function [] body scope st = .ok (code, st') →
        (names.afterAll body).vars ≤ vars → L.code.Placed ret (.label (returnLabel function) :: tail) →
          κ.Free L.bytes.length ∧ StmtRuns L none params vars ret code locals κ flow locals' κ'

section
variable {tree : Tree} {L : Linked} {fuel : Nat}

private theorem exprsSound_succ (hB : Built tree L) (hexpr : ExprsSound tree L fuel) (hargs : ArgsSound tree L fuel)
    (hcall : CallsSound tree L fuel) : ExprsSound tree L (fuel + 1) := by
  intro names locals κ e κ' params vars scope ids ids' code h hfree ha hc
  cases e with
  | int k =>
    obtain ⟨rfl, -⟩ := compileExpr_int.mp hc
    simp only [evalExpr, Option.some.injEq] at h
    subst h
    exact ⟨hfree, imm_runs k⟩
  | var x o =>
    obtain ⟨cell, hcell, rfl, -⟩ := compileExpr_var.mp hc
    rcases ha.of_cell hcell with ⟨v, hx, -, rfl⟩ | ⟨g, hx, hg, rfl⟩
    · simp only [evalExpr, hx, Option.map_eq_some_iff] at h
      obtain ⟨w, hw, rfl⟩ := h
      exact ⟨hfree, load_frame_runs fun _ => hw⟩
    · simp only [evalExpr, hx, Option.some.injEq] at h
      subst h
      obtain ⟨t, ht⟩ := hB.global hg
      exact ⟨hfree, load_record_runs ht⟩
  | paren inner =>
    simp only [evalExpr] at h
    exact hexpr h hfree ha (compileExpr_paren.mp hc)
  | binary left op right =>
    obtain ⟨l, mid, r, hl, hr, rfl⟩ := compileExpr_binary.mp hc
    simp only [evalExpr, Option.bind_eq_bind, Option.bind_eq_some_iff, Option.some.injEq] at h
    obtain ⟨κ₁, h₁, κ₂, h₂, v, hv, rfl⟩ := h
    obtain ⟨hfree₁, hright⟩ := hexpr h₂ hfree ha hr
    obtain ⟨hfree₀, hleft⟩ := hexpr h₁ hfree₁ ha hl
    exact ⟨hfree₀, binaryCode_runs hleft hright fun _ => hv⟩
  | call x args o =>
    obtain ⟨codes, mid, harity, hcodes, he⟩ := compileExpr_call.mp hc
    obtain ⟨i, ps, body, o', hx, hi, hps⟩ := ha.of_arity harity
    obtain ⟨a, sc, ids₀, c, last, hcode⟩ := hB.function hi
    simp only [evalExpr, hx, Option.bind_eq_bind, Option.bind_eq_some_iff, Prod.exists] at h
    obtain ⟨values, κ₁, h₁, h₂⟩ := h
    obtain ⟨hfree₁, hrun⟩ := hcall h₂ hfree hi hcode
    obtain ⟨hfree₀, hvalues, hlen, hruns⟩ := hargs h₁ hfree₁ ha hcodes
    rw [show code = (callCode x codes mid).1 from congrArg Prod.fst he]
    refine ⟨hfree₀, callCode_runs hcode.placed hruns (fun _ => hvalues.trans hlen.symm) fun _ => ?_⟩
    rwa [hlen, ← hps]

private theorem argsSound_succ (hexpr : ExprsSound tree L fuel) (hargs : ArgsSound tree L fuel) :
    ArgsSound tree L (fuel + 1) := by
  intro names locals κ args values κ' params vars scope ids ids' codes h hfree ha hc
  cases args with
  | nil =>
    obtain ⟨rfl, -⟩ := compileArgs_nil.mp hc
    simp only [evalArgs, Option.some.injEq, Prod.mk.injEq] at h
    obtain ⟨rfl, rfl⟩ := h
    exact ⟨hfree, rfl, rfl, argsCode_nil_runs⟩
  | cons arg rest =>
    obtain ⟨c, mid, cs, harg, hrest, rfl⟩ := compileArgs_cons.mp hc
    simp only [evalArgs, Option.bind_eq_bind, Option.bind_eq_some_iff, Prod.exists, Option.some.injEq,
      Prod.mk.injEq] at h
    obtain ⟨κ₁, h₁, vs, κ₂, h₂, rfl, rfl⟩ := h
    obtain ⟨hfree₁, hvalues, hlen, hruns⟩ := hargs h₂ hfree ha hrest
    obtain ⟨hfree₀, hfirst⟩ := hexpr h₁ hfree₁ ha harg
    exact ⟨hfree₀, by simp [hvalues], by simp [hlen], argsCode_cons_runs hfirst hruns⟩

private theorem callsSound_succ (hbody : BodiesSound tree L fuel) : CallsSound tree L (fuel + 1) := by
  intro i values κ κ' name ps body o a scope ids c last h hfree hi hcode
  simp only [evalCall, hi, Option.bind_eq_bind] at h
  split at h
  · simp only [Option.bind_eq_some_iff, Prod.exists, Option.some.injEq] at h
    obtain ⟨flow, locals', κ₁, h, rfl⟩ := h
    obtain ⟨hsize, hvars⟩ := hcode.size_eq
    have hret : L.code.Placed (a + 16 + Program.size c) (epilogue name) := hcode.placed.right.right
    have hstart : BodyState.Counts ⟨ids, {}, []⟩ (.enter tree i ps) := ⟨rfl, Nat.zero_le _⟩
    obtain ⟨hfree₀, hruns⟩ := hbody h hfree hcode.agrees hstart hcode.compiled le_rfl hret
    exact ⟨hfree₀, function_runs hsize hvars hcode.reach hcode.placed hruns⟩
  · cases h

private theorem stmtsSound_succ (hB : Built tree L) (hexpr : ExprsSound tree L fuel) (hstmt : StmtsSound tree L fuel)
    (hbody : BodiesSound tree L fuel) : StmtsSound tree L (fuel + 1) := by
  intro names locals κ s flow locals' κ' params vars ret function scope scope' st st' code tail h hfree ha hn hc hv hret
  cases s with
  | scope body =>
    simp only [evalStmt] at h
    exact hbody h hfree ha hn (compileStmt_scope.mp hc).1 hv hret
  | var x init o =>
    cases init with
    | none =>
      obtain ⟨off, -, rfl, -⟩ := compileStmt_var_none.mp hc
      simp only [evalStmt, Option.some.injEq, Prod.mk.injEq] at h
      obtain ⟨rfl, rfl, rfl⟩ := h
      exact ⟨hfree, nil_runs⟩
    | some value =>
      obtain ⟨off, mid, c, ids, hl, rfl, hval, rfl, -⟩ := compileStmt_var_some.mp hc
      obtain ⟨rfl, hw, ha', -⟩ := addLocal_agrees ha hn hl
      simp only [evalStmt, Option.bind_eq_bind, Option.bind_eq_some_iff, Option.some.injEq, Prod.mk.injEq] at h
      obtain ⟨κ₁, h₁, rfl, rfl, rfl⟩ := h
      obtain ⟨hfree₀, hvalue⟩ := hexpr h₁ hfree ha' hval
      exact ⟨hfree₀, append_runs hvalue.stmt (fun _ => store_frame_runs (hw.mono hv)) nofun⟩
  | assign x value o =>
    obtain ⟨cell, c, ids, hcell, hval, rfl, -, -⟩ := compileStmt_assign.mp hc
    simp only [evalStmt, Option.bind_eq_bind, Option.bind_eq_some_iff] at h
    obtain ⟨κ₁, h₁, h₂⟩ := h
    rcases ha.of_cell hcell with ⟨v, hx, hw, rfl⟩ | ⟨g, hx, hg, rfl⟩
    · simp only [hx, Option.some.injEq, Prod.mk.injEq] at h₂
      obtain ⟨rfl, rfl, rfl⟩ := h₂
      obtain ⟨hfree₀, hvalue⟩ := hexpr h₁ hfree ha hval
      exact ⟨hfree₀, append_runs hvalue.stmt (fun _ => store_frame_runs (hw.mono hv)) nofun⟩
    · simp only [hx, Option.some.injEq, Prod.mk.injEq] at h₂
      obtain ⟨rfl, rfl, rfl⟩ := h₂
      obtain ⟨t, ht⟩ := hB.global hg
      obtain ⟨hfree₀, hvalue⟩ := hexpr h₁ hfree ha hval
      exact ⟨hfree₀, append_runs hvalue.stmt (fun _ => store_record_runs ht) nofun⟩
  | write x value =>
    obtain ⟨a, mid, v, ids, hx, hval, rfl, -, -⟩ := compileStmt_write.mp hc
    simp only [evalStmt, Option.bind_eq_bind, Option.bind_eq_some_iff, Option.some.injEq, Prod.mk.injEq] at h
    obtain ⟨κ₁, h₁, κ₂, h₂, rfl, rfl, rfl⟩ := h
    -- the new write is the first of those that lie where they should
    obtain ⟨hwrite, hfree₂⟩ := List.forall_mem_cons.mp hfree
    obtain ⟨hfree₁, hvalue⟩ := hexpr h₂ hfree₂ ha hval
    obtain ⟨hfree₀, haddr⟩ := hexpr h₁ hfree₁ ha hx
    exact ⟨hfree₀, writeCode_runs haddr hvalue fun _ => hwrite⟩
  | ret value =>
    cases value with
    | none =>
      obtain ⟨rfl, -, -⟩ := compileStmt_ret_none.mp hc
      simp only [evalStmt, Option.some.injEq, Prod.mk.injEq] at h
      obtain ⟨rfl, rfl, rfl⟩ := h
      exact ⟨hfree, ret_runs (initial_returnLabel_ne function) hret⟩
    | some value =>
      obtain ⟨c, ids, hval, rfl, -, -⟩ := compileStmt_ret_some.mp hc
      simp only [evalStmt, Option.bind_eq_bind, Option.bind_eq_some_iff, Option.some.injEq, Prod.mk.injEq] at h
      obtain ⟨κ₁, h₁, rfl, rfl, rfl⟩ := h
      obtain ⟨hfree₀, hvalue⟩ := hexpr h₁ hfree ha hval
      exact ⟨hfree₀, append_runs hvalue.stmt (fun _ => ret_runs (initial_returnLabel_ne function) hret) nofun⟩
  | cond test body =>
    obtain ⟨t, ids, c, ht, hb, rfl⟩ := compileStmt_cond.mp hc
    have hn' : BodyState.Counts { st with ids := ⟨ids.next + 2⟩ } names := hn
    have hdone : initial ((⟨ids.next + 1⟩ : LabelSupply).fresh "if_end").1 ≠ some 'f' :=
      initial_fresh_ne (by simp [stems]) _
    simp only [evalStmt, Option.bind_eq_bind, Option.bind_eq_some_iff] at h
    obtain ⟨κ₁, h₁, h₂⟩ := h
    split at h₂
    · rename_i hz
      simp only [Option.some.injEq, Prod.mk.injEq] at h₂
      obtain ⟨rfl, rfl, rfl⟩ := h₂
      obtain ⟨hfree₀, htest⟩ := hexpr h₁ hfree ha ht
      exact ⟨hfree₀, condCode_runs hdone htest (fun hnz => absurd hz (hnz rfl)) fun _ _ => ⟨rfl, rfl, rfl⟩⟩
    · rename_i hnz
      obtain ⟨hfree₁, hbody⟩ := hstmt h₂ hfree ha hn' hb hv hret
      obtain ⟨hfree₀, htest⟩ := hexpr h₁ hfree₁ ha ht
      exact ⟨hfree₀, condCode_runs hdone htest (fun _ => hbody) fun _ hz => absurd hz hnz⟩
  | loop test body =>
    have hcode := hc
    obtain ⟨t, ids, c, ht, hb, rfl⟩ := compileStmt_loop.mp hc
    have hn' : BodyState.Counts { st with ids := ⟨ids.next + 2⟩ } names := hn
    have hhead : initial (st.ids.fresh "while_head").1 ≠ some 'f' := initial_fresh_ne (by simp [stems]) _
    have hdone : initial ((⟨ids.next + 1⟩ : LabelSupply).fresh "while_end").1 ≠ some 'f' :=
      initial_fresh_ne (by simp [stems]) _
    simp only [evalStmt, Option.bind_eq_bind, Option.bind_eq_some_iff] at h
    obtain ⟨κ₁, h₁, h₂⟩ := h
    split at h₂
    · rename_i hz
      simp only [Option.some.injEq, Prod.mk.injEq] at h₂
      obtain ⟨rfl, rfl, rfl⟩ := h₂
      obtain ⟨hfree₀, htest⟩ := hexpr h₁ hfree ha ht
      have hno : ((none : Budget) = none → κ₁.last ≠ 0) →
          StmtRuns L none params vars ret c locals κ₁ .next locals κ₁ := fun hnz => absurd hz (hnz rfl)
      exact ⟨hfree₀, loopCode_runs hhead hdone htest hno (fun _ hf => absurd hz (hf rfl).1)
        (fun _ hnz => absurd hz hnz) fun _ _ => ⟨rfl, rfl, rfl⟩⟩
    · rename_i hnz
      simp only [Option.bind_eq_some_iff, Prod.exists] at h₂
      obtain ⟨flow₁, locals₁, κ₂, h₂, h₃⟩ := h₂
      cases flow₁ with
      | next =>
        -- the loop is evaluated again, and its code is run again
        obtain ⟨hfree₂, hagain⟩ := hstmt h₃ hfree ha hn hcode hv hret
        obtain ⟨hfree₁, hbody⟩ := hstmt h₂ hfree₂ ha hn' hb hv hret
        obtain ⟨hfree₀, htest⟩ := hexpr h₁ hfree₁ ha ht
        exact ⟨hfree₀, loopCode_runs hhead hdone htest (fun _ => hbody) (fun _ _ => hagain) nofun
          fun _ hz => absurd hz hnz⟩
      | leave =>
        simp only [Option.some.injEq, Prod.mk.injEq] at h₃
        obtain ⟨rfl, rfl, rfl⟩ := h₃
        obtain ⟨hfree₁, hbody⟩ := hstmt h₂ hfree ha hn' hb hv hret
        obtain ⟨hfree₀, htest⟩ := hexpr h₁ hfree₁ ha ht
        exact ⟨hfree₀, loopCode_runs hhead hdone htest (fun _ => hbody) (fun _ hf => nomatch (hf rfl).2)
          (fun _ _ _ => ⟨rfl, rfl, rfl⟩) fun _ hz => absurd hz hnz⟩
  | expr value =>
    obtain ⟨ids, hval, -, -⟩ := compileStmt_expr.mp hc
    simp only [evalStmt, Option.bind_eq_bind, Option.bind_eq_some_iff, Option.some.injEq, Prod.mk.injEq] at h
    obtain ⟨κ₁, h₁, rfl, rfl, rfl⟩ := h
    obtain ⟨hfree₀, hvalue⟩ := hexpr h₁ hfree ha hval
    exact ⟨hfree₀, hvalue.stmt⟩

private theorem bodiesSound_succ (hstmt : StmtsSound tree L fuel) (hbody : BodiesSound tree L fuel) :
    BodiesSound tree L (fuel + 1) := by
  intro names locals κ body flow locals' κ' params vars ret function scope st st' code tail h hfree ha hn hc hv hret
  cases body with
  | nil =>
    obtain ⟨rfl, -⟩ := compileStmts_nil.mp hc
    simp only [evalStmts, Option.some.injEq, Prod.mk.injEq] at h
    obtain ⟨rfl, rfl, rfl⟩ := h
    exact ⟨hfree, nil_runs⟩
  | cons s rest =>
    obtain ⟨c, sc, mid, cs, hs, hr, rfl⟩ := compileStmts_cons.mp hc
    obtain ⟨ha', hn', -⟩ := compileStmt_agrees s ha hn hs
    obtain ⟨-, hle⟩ := compileStmts_counts rest ha' hn' hr
    simp only [evalStmts, Option.bind_eq_bind, Option.bind_eq_some_iff, Prod.exists] at h
    obtain ⟨flow₁, locals₁, κ₁, h₁, h₂⟩ := h
    cases flow₁ with
    | next =>
      obtain ⟨hfree₁, hrest⟩ := hbody h₂ hfree ha' hn' hr hv hret
      obtain ⟨hfree₀, hfirst⟩ := hstmt h₁ hfree₁ ha hn hs (hle.trans hv) hret
      exact ⟨hfree₀, append_runs hfirst (fun _ => hrest) nofun⟩
    | leave =>
      simp only [Option.some.injEq, Prod.mk.injEq] at h₂
      obtain ⟨rfl, rfl, rfl⟩ := h₂
      obtain ⟨hfree₀, hfirst⟩ := hstmt h₁ hfree ha hn hs (hle.trans hv) hret
      exact ⟨hfree₀, append_runs hfirst (fun hf => nomatch hf rfl) fun _ _ => ⟨rfl, rfl, rfl⟩⟩

/-- What can be evaluated has code that computes it. -/
theorem callsSound (hB : Built tree L) (fuel : Nat) : CallsSound tree L fuel := by
  have hall : ExprsSound tree L fuel ∧ ArgsSound tree L fuel ∧ CallsSound tree L fuel ∧ StmtsSound tree L fuel ∧
      BodiesSound tree L fuel := by
    induction fuel with
    | zero => refine ⟨?_, ?_, ?_, ?_, ?_⟩ <;> nofun
    | succ fuel ih =>
      obtain ⟨hexpr, hargs, hcall, hstmt, hbody⟩ := ih
      exact ⟨exprsSound_succ hB hexpr hargs hcall, argsSound_succ hexpr hargs, callsSound_succ hbody,
        stmtsSound_succ hB hexpr hstmt hbody, bodiesSound_succ hstmt hbody⟩
  exact hall.2.2.1

/-- The word of a record is zero in the image. -/
theorem Linked.Record.getD_bytes {g : String} {a : Nat} (h : L.Record g a) :
    L.bytes.getD (a + 2) 0 = 0 ∧ L.bytes.getD (a + 3) 0 = 0 := by
  obtain ⟨before, image, after, hbytes, rfl, himage⟩ :=
    (show L.code.Placed a [.inst (.word 0)] from h.tail).image_at L.encoded
  obtain rfl : [26, 0, 0, 0] = image := Except.ok.inj himage
  simp [hbytes]

/-- A machine before its first step holds the state at the beginning. -/
theorem Linked.Fresh.holds {m : Machine} (hm : L.Fresh m) : Holds L .initial m where
  globals g a hg := by
    have hle := hg.add_four_le
    have hsmall := L.small
    obtain ⟨hlow, hhigh⟩ := hg.getD_bytes
    have hnext : ((a + 2).toUInt16 + 1).toNat = a + 3 := by
      rw [toNat_add_one (by rw [hg.toNat]; omega), hg.toNat]
    rw [Memory.load, hm.bytes, hm.bytes, hg.toNat, hnext, hlow, hhigh]
    rfl
  heap x hlo _ := by
    rw [hm.bytes, List.getD_eq_default _ _ hlo]
    exact (Memory.byte_zero x).symm
  last := hm.rret

end

/-- The stack of the sample program does not wrap in any step. -/
theorem sample_above {k : Nat} {x : Machine} (hx : sampleStart.after k = some x) : 0x8000 ≤ x.sp := by
  rcases Nat.le_total k 37 with hk | hk
  · obtain ⟨y, hy, -, hsp, -⟩ := sample_after hk
    cases hy.symm.trans hx
    exact hsp
  · obtain ⟨y, hy, hhalt⟩ := sample_halts
    obtain ⟨z, hz, -, hsp, -⟩ := sample_after (le_refl 37)
    cases hz.symm.trans hy
    obtain ⟨t, rfl⟩ := Nat.exists_eq_add_of_le hk
    rw [after_add hy] at hx
    obtain rfl | rfl := after_halt hhalt hx
    · exact hsp
    · exact hsp

/-- When the evaluation of a source comes to an end, and what it writes lies between the program and the stack,
then the compiled program stops with the value in its register and an empty stack, unless the stack wraps. The
global variables have their values in their records, and memory holds what was written. -/
theorem compiled_program_computes {source : String} {out : Compiled} {bytes : List UInt8} {tree : Tree} {fuel : Nat}
    {κ : Store} (h : compile .binary source = .ok out) (hbin : out.artifact = .binary bytes)
    (hsmall : bytes.length ≤ 0x8000) (hparse : parseSource .standard source = .ok tree)
    (heval : evalMain tree fuel = some κ) (hfree : κ.Free bytes.length) :
    ∃ m₀ n, Machine.load bytes = .ok m₀ ∧
      ((∃ k ≤ n, ∃ x, m₀.after k = some x ∧ (x.reg .rsp).toNat < 0x8000) ∨
        ∃ m, m₀.run n = (.ok .halted, m) ∧ m.reg .rret = κ.last ∧ m.reg .rsp = 0x8000 ∧ m.reg .rsb = 0x8000 ∧
          (∀ g, .global g ∈ tree → ∃ a, out.symbols.labels.get? (globalLabel g) = some a ∧
            m.mem.load (a + 2) = κ.globals g) ∧
          ∀ x : UInt16, bytes.length ≤ x.toNat → x.toNat < 0x8000 → m.mem.byte x = κ.heap.byte x) := by
  obtain ⟨tree', g', L, hparse', -, hB, -, rfl, hlabels⟩ := exists_built h hbin hsmall
  cases hparse'.symm.trans hparse
  obtain ⟨m₀, hload, hfresh⟩ := L.exists_load
  have hleads := hB.leads (b := none) hfresh (fun _ i _ _ _ _ _ _ _ hd hi hcode => by
    rw [evalMain, hd] at heval
    exact (callsSound hB fuel heval hfree hi hcode).2) fun _ => hfresh.holds
  obtain ⟨n, ⟨k, hk, x, hx, hw⟩ | ⟨x, hx, ⟨hat, hrsp, hrsb, hstore⟩, hrunning, hrun⟩⟩ := hleads.arrive hfresh.running
  · exact ⟨m₀, n, hload, .inl ⟨k, hk, x, hx, hw⟩⟩
  · refine ⟨m₀, n + 1, hload, .inr ⟨{ x with halted := true }, ?_, (hstore rfl).last, hrsp, hrsb, fun g hg => ?_,
      (hstore rfl).heap⟩⟩
    · rw [hrun, run_succ (exec_halt hat.fetch_halt) hrunning]
      rfl
    · obtain ⟨a, ha⟩ := hB.global hg
      refine ⟨a.toUInt16, hlabels ▸ (address_of_placed ha).1, ?_⟩
      have hcell : a.toUInt16 + 2 = (a + 2).toUInt16 := ha.cellOffset
      rw [hcell]
      exact (hstore rfl).globals g a ha

theorem compiled_program_computes_sample :
    ∃ n m, sampleStart.run n = (.ok .halted, m) ∧ m.reg .rret = 7 ∧ m.reg .rsp = 0x8000 ∧ m.reg .rsb = 0x8000 ∧
      (∃ a, sampleLabels.get? (globalLabel "a") = some a ∧ m.mem.load (a + 2) = 7) ∧ m.mem.byte 4096 = 7 := by
  obtain ⟨hparse, hcompile⟩ := compile_sample
  obtain ⟨κ, heval, hlast, hglobal, hwrites⟩ : ∃ κ, evalMain sampleTree 9 = some κ ∧ κ.last = 7 ∧
      κ.globals "a" = 7 ∧ κ.writes = [(4096, 7)] := ⟨_, rfl, rfl, rfl, rfl⟩
  have hfree : κ.Free sampleImage.length := by
    rw [Store.Free, hwrites, length_sampleImage]
    simp
  obtain ⟨m₀, n, hload, hresult⟩ :=
    compiled_program_computes hcompile rfl (by rw [length_sampleImage]; omega) hparse heval hfree
  cases load_sample.symm.trans hload
  rcases hresult with ⟨k, -, x, hx, hwraps⟩ | ⟨m, hrun, hret, hrsp, hrsb, hglobals, hheap⟩
  · exact absurd hwraps (Nat.not_lt.mpr (sample_above hx))
  · obtain ⟨a, ha, hcell⟩ := hglobals "a" (by simp [sampleTree])
    refine ⟨n, m, hrun, hret.trans hlast, hrsp, hrsb, ⟨a, ha, hcell.trans hglobal⟩, ?_⟩
    rw [hheap 4096 (by rw [length_sampleImage]; decide) (by decide), Store.heap, hwrites]
    simp [Memory.byte_store]

end StackToolchain
