import StackToolchain.Proofs.Compiler.Safety

/-! Calls are balanced.
Every piece of a source that is compiled has a place in the program. From the first instruction of a call to its
end, once as many returns as calls have been done, the stack and the frame are as they were. -/
namespace StackToolchain

open Source Machine Linked

/-- A piece of source with what its code depends on: the scope, and the supplies of labels and slots. -/
inductive Piece where
  | expr (scope : Scope) (e : Expr) (ids : LabelSupply)
  | args (scope : Scope) (es : List Expr) (ids : LabelSupply)
  | stmt (function : String) (scope : Scope) (s : Stmt) (st : BodyState)
  | stmts (function : String) (scope : Scope) (body : List Stmt) (st : BodyState)

namespace Piece

inductive Part : Piece → Nat → Piece → Prop
  | inner {scope e ids} : Part (.expr scope (.paren e) ids) 0 (.expr scope e ids)
  | left {scope l op r ids} : Part (.expr scope (.binary l op r) ids) 0 (.expr scope l ids)
  | right {scope l op r ids c mid} : compileExpr scope l ids = .ok (c, mid) →
      Part (.expr scope (.binary l op r) ids) (Program.size c + 8) (.expr scope r mid)
  | arguments {scope name es o ids} : Part (.expr scope (.call name es o) ids) 0 (.args scope es ids)
  | firstArg {scope e es ids} : Part (.args scope (e :: es) ids) 0 (.expr scope e ids)
  | otherArgs {scope e es ids c mid} : compileExpr scope e ids = .ok (c, mid) →
      Part (.args scope (e :: es) ids) (Program.size c + 4) (.args scope es mid)
  | block {function scope body st} : Part (.stmt function scope (.scope body) st) 0 (.stmts function scope body st)
  | init {function scope x e o st off st'} : st.addLocal function x = .ok (off, st') →
      Part (.stmt function scope (.var x (some e) o) st) 0 (.expr (scope.insert x (.slot off)) e st'.ids)
  | assigned {function scope x e o st} : Part (.stmt function scope (.assign x e o) st) 0 (.expr scope e st.ids)
  | address {function scope e value st} : Part (.stmt function scope (.write e value) st) 0 (.expr scope e st.ids)
  | written {function scope e value st c mid} : compileExpr scope e st.ids = .ok (c, mid) →
      Part (.stmt function scope (.write e value) st) (Program.size c + 4) (.expr scope value mid)
  | returned {function scope e st} : Part (.stmt function scope (.ret (some e)) st) 0 (.expr scope e st.ids)
  | condTest {function scope test body st} :
      Part (.stmt function scope (.cond test body) st) 0 (.expr scope test st.ids)
  | condBody {function scope test body st c mid} : compileExpr scope test st.ids = .ok (c, mid) →
      Part (.stmt function scope (.cond test body) st) (Program.size c + 8)
        (.stmt function scope body { st with ids := ⟨mid.next + 2⟩ })
  | loopTest {function scope test body st} :
      Part (.stmt function scope (.loop test body) st) 0 (.expr scope test ⟨st.ids.next + 1⟩)
  | loopBody {function scope test body st c mid} : compileExpr scope test ⟨st.ids.next + 1⟩ = .ok (c, mid) →
      Part (.stmt function scope (.loop test body) st) (Program.size c + 8)
        (.stmt function scope body { st with ids := ⟨mid.next + 2⟩ })
  | evaluated {function scope e st} : Part (.stmt function scope (.expr e) st) 0 (.expr scope e st.ids)
  | firstStmt {function scope s rest st} :
      Part (.stmts function scope (s :: rest) st) 0 (.stmt function scope s st)
  | otherStmts {function scope s rest st c scope' st'} : compileStmt function s scope st = .ok (c, scope', st') →
      Part (.stmts function scope (s :: rest) st) (Program.size c) (.stmts function scope' rest st')

def Gives : Piece → Program → Prop
  | .expr scope e ids, c => ∃ ids', compileExpr scope e ids = .ok (c, ids')
  | .args scope es ids, c => ∃ codes ids', compileArgs scope es ids = .ok (codes, ids') ∧ c = argsCode codes
  | .stmt function scope s st, c => ∃ scope' st', compileStmt function s scope st = .ok (c, scope', st')
  | .stmts function scope body st, c => ∃ st', compileStmts function [] body scope st = .ok (c, st')

def Fits (tree : Tree) (params : Nat) : Piece → Prop
  | .expr scope _ _ | .args scope _ _ => ∃ names, Agrees tree params names scope
  | .stmt _ scope _ st | .stmts _ scope _ st => ∃ names, Agrees tree params names scope ∧ st.Counts names

/-- The body of a conditional stands after the test and two jumps. -/
theorem condCode_placed (yes done : String) (t b : Program) :
    (condCode yes done t b).Placed (Program.size t + 8) b :=
  ⟨t ++ [.inst (.jmpif .rret yes), .inst (.jmp done), .label yes], [.label done], by simp [condCode],
    Program.size_append ..⟩

/-- So does the body of a loop. -/
theorem loopCode_placed (head yes done : String) (t b : Program) :
    (loopCode head yes done t b).Placed (Program.size t + 8) b :=
  ⟨.label head :: (t ++ [.inst (.jmpif .rret yes), .inst (.jmp done), .label yes]),
    [.inst (.jmp head), .label done], by simp [loopCode], by simp [Line.size]; rfl⟩

/-- The code of a part stands in that of the whole. -/
theorem Part.gives {tree : Tree} {params d : Nat} {p q : Piece} {c : Program} (h : Part p d q)
    (hp : p.Fits tree params) (hc : p.Gives c) : ∃ c', q.Fits tree params ∧ q.Gives c' ∧ c.Placed d c' := by
  cases h with
  | inner =>
    obtain ⟨ids', hc⟩ := hc
    exact ⟨c, hp, ⟨ids', compileExpr_paren.mp hc⟩, [], [], by simp, rfl⟩
  | left =>
    obtain ⟨ids', hc⟩ := hc
    obtain ⟨l, mid, r, hl, -, rfl⟩ := compileExpr_binary.mp hc
    exact ⟨l, hp, ⟨mid, hl⟩, [], _, rfl, rfl⟩
  | @right _ _ _ _ _ c _ hl =>
    obtain ⟨ids', hc⟩ := hc
    obtain ⟨l, mid, r, hl', hr, rfl⟩ := compileExpr_binary.mp hc
    cases hl'.symm.trans hl
    exact ⟨r, hp, ⟨ids', hr⟩, c ++ [.inst (.mov .rret .rexpr), .inst (.push .rexpr)], _, by simp [binaryCode]; rfl,
      Program.size_append ..⟩
  | arguments =>
    obtain ⟨ids', hc⟩ := hc
    obtain ⟨codes, mid, -, hargs, he⟩ := compileExpr_call.mp hc
    rw [callCode_eq, Prod.mk.injEq] at he
    exact ⟨argsCode codes, hp, ⟨codes, mid, hargs, rfl⟩, [], _, he.1, rfl⟩
  | firstArg =>
    obtain ⟨codes, ids', hc, rfl⟩ := hc
    obtain ⟨c, mid, cs, he, -, rfl⟩ := compileArgs_cons.mp hc
    exact ⟨c, hp, ⟨mid, he⟩, [], _, by simp [argsCode]; rfl, rfl⟩
  | @otherArgs _ _ _ _ c _ he =>
    obtain ⟨codes, ids', hc, rfl⟩ := hc
    obtain ⟨_, mid, cs, he', hr, rfl⟩ := compileArgs_cons.mp hc
    cases he'.symm.trans he
    exact ⟨argsCode cs, hp, ⟨cs, ids', hr, rfl⟩, c ++ [.inst (.push .rret)], [], by simp [argsCode],
      Program.size_append ..⟩
  | block =>
    obtain ⟨sc, st', hc⟩ := hc
    exact ⟨c, hp, ⟨st', (compileStmt_scope.mp hc).1⟩, [], [], by simp, rfl⟩
  | init hl =>
    obtain ⟨names, ha, hn⟩ := hp
    obtain ⟨sc, st', hc⟩ := hc
    obtain ⟨off, mid, c, ids, hl', rfl, he, rfl, -⟩ := compileStmt_var_some.mp hc
    cases hl'.symm.trans hl
    obtain ⟨-, -, ha', -⟩ := addLocal_agrees ha hn hl
    exact ⟨c, ⟨_, ha'⟩, ⟨ids, he⟩, [], _, rfl, rfl⟩
  | assigned =>
    obtain ⟨names, ha, -⟩ := hp
    obtain ⟨sc, st', hc⟩ := hc
    obtain ⟨cell, c, ids, -, he, rfl, -, -⟩ := compileStmt_assign.mp hc
    exact ⟨c, ⟨names, ha⟩, ⟨ids, he⟩, [], _, rfl, rfl⟩
  | address =>
    obtain ⟨names, ha, -⟩ := hp
    obtain ⟨sc, st', hc⟩ := hc
    obtain ⟨a, mid, v, ids, he, -, rfl, -, -⟩ := compileStmt_write.mp hc
    exact ⟨a, ⟨names, ha⟩, ⟨mid, he⟩, [], _, rfl, rfl⟩
  | @written _ _ _ _ _ c _ he =>
    obtain ⟨names, ha, -⟩ := hp
    obtain ⟨sc, st', hc⟩ := hc
    obtain ⟨a, mid, v, ids, he', hv, rfl, -, -⟩ := compileStmt_write.mp hc
    cases he'.symm.trans he
    exact ⟨v, ⟨names, ha⟩, ⟨ids, hv⟩, c ++ [.inst (.push .rret)], _, by simp [writeCode]; rfl,
      Program.size_append ..⟩
  | returned =>
    obtain ⟨names, ha, -⟩ := hp
    obtain ⟨sc, st', hc⟩ := hc
    obtain ⟨c, ids, he, rfl, -, -⟩ := compileStmt_ret_some.mp hc
    exact ⟨c, ⟨names, ha⟩, ⟨ids, he⟩, [], _, rfl, rfl⟩
  | condTest =>
    obtain ⟨names, ha, -⟩ := hp
    obtain ⟨sc, st', hc⟩ := hc
    obtain ⟨t, ids, b, ht, -, rfl⟩ := compileStmt_cond.mp hc
    exact ⟨t, ⟨names, ha⟩, ⟨ids, ht⟩, [], _, rfl, rfl⟩
  | condBody ht =>
    obtain ⟨sc, st', hc⟩ := hc
    obtain ⟨t, ids, b, ht', hb, rfl⟩ := compileStmt_cond.mp hc
    cases ht'.symm.trans ht
    exact ⟨b, hp, ⟨sc, st', hb⟩, condCode_placed ..⟩
  | loopTest =>
    obtain ⟨names, ha, -⟩ := hp
    obtain ⟨sc, st', hc⟩ := hc
    obtain ⟨t, ids, b, ht, -, rfl⟩ := compileStmt_loop.mp hc
    exact ⟨t, ⟨names, ha⟩, ⟨ids, ht⟩, [.label _], _, rfl, rfl⟩
  | loopBody ht =>
    obtain ⟨sc, st', hc⟩ := hc
    obtain ⟨t, ids, b, ht', hb, rfl⟩ := compileStmt_loop.mp hc
    cases ht'.symm.trans ht
    exact ⟨b, hp, ⟨sc, st', hb⟩, loopCode_placed ..⟩
  | evaluated =>
    obtain ⟨names, ha, -⟩ := hp
    obtain ⟨sc, st', hc⟩ := hc
    obtain ⟨ids, he, -, -⟩ := compileStmt_expr.mp hc
    exact ⟨c, ⟨names, ha⟩, ⟨ids, he⟩, [], [], by simp, rfl⟩
  | firstStmt =>
    obtain ⟨st', hc⟩ := hc
    obtain ⟨c, sc, mid, cs, hs, -, rfl⟩ := compileStmts_cons.mp hc
    exact ⟨c, hp, ⟨sc, mid, hs⟩, [], _, rfl, rfl⟩
  | @otherStmts _ _ _ _ _ c _ _ hs =>
    obtain ⟨names, ha, hn⟩ := hp
    obtain ⟨st', hc⟩ := hc
    obtain ⟨c, sc, mid, cs, hs', hr, rfl⟩ := compileStmts_cons.mp hc
    cases hs'.symm.trans hs
    obtain ⟨ha', hn', -⟩ := compileStmt_agrees _ ha hn hs
    exact ⟨cs, ⟨_, ha', hn'⟩, ⟨st', hr⟩, Program.placed_suffix c cs⟩

end Piece

/-- The code of a piece of a source begins at an address: the bodies of functions are compiled, and the parts of
what is compiled. -/
inductive CompiledAt (tree : Tree) (labels : Labels) : Nat → Piece → Prop
  | body {i name params body o scope ids entry} : tree[i]? = some (.func name params body o) →
      EntersBody tree i name params scope ids → labels.get? (functionLabel name) = some entry →
        CompiledAt tree labels (entry.toNat + 16) (.stmts name scope body ⟨ids, {}, []⟩)
  | part {a d p q} : CompiledAt tree labels a p → p.Part d q → CompiledAt tree labels (a + d) q

section
variable {tree : Tree} {L : Linked}

/-- A body is entered in one state only. -/
theorem EntersBody.unique {i : Nat} {name : String} {params : List String} {scope scope' : Scope}
    {ids ids' : LabelSupply} (h : EntersBody tree i name params scope ids)
    (h' : EntersBody tree i name params scope' ids') : scope = scope' ∧ ids = ids' := by
  obtain ⟨st, args, hd, rfl, hp⟩ := h
  obtain ⟨st', args', hd', rfl, hp'⟩ := h'
  cases hd.symm.trans hd'
  cases hp.symm.trans hp'
  exact ⟨rfl, rfl⟩

/-- What is compiled stands in the program. -/
theorem CompiledAt.placed (hB : Built tree L) {a : Nat} {p : Piece} (h : CompiledAt tree L.labels a p) :
    ∃ params c, p.Fits tree params ∧ p.Gives c ∧ L.code.Placed a c := by
  induction h with
  | @body i name params body o scope ids entry hi henters hentry =>
    obtain ⟨a, scope', ids', c, last, hcode⟩ := hB.function hi
    obtain ⟨rfl, rfl⟩ := hcode.enters.unique henters
    obtain ⟨haddr, ha⟩ := address_of_placed hcode.placed
    obtain rfl : a.toUInt16 = entry := Option.some.inj (haddr.symm.trans hentry)
    refine ⟨params.length, c, ⟨_, hcode.agrees, rfl, Nat.zero_le _⟩, ⟨last, hcode.compiled⟩, ?_⟩
    rw [ha]
    exact hcode.placed.right.left
  | part _ hpart ih =>
    obtain ⟨params, c, hfits, hgives, hplaced⟩ := ih
    obtain ⟨c', hfits', hgives', hplaced'⟩ := hpart.gives hfits hgives
    exact ⟨params, c', hfits', hgives', hplaced.trans hplaced'⟩

end

private theorem sample_count (kind : Instruction → Bool) {n : Nat} (hn : n ≤ 37) :
    sampleStart.count (fun x => (sampleProgram.code.instAt x.pc.toNat).any kind) n =
      (sampleTrace.take n).countP fun pc => (sampleProgram.code.instAt pc.toNat).any kind := by
  induction n with
  | zero => rfl
  | succ n ih =>
    obtain ⟨x, hx, hpc, -⟩ := sample_after (show n ≤ 37 by omega)
    have hlt : n < sampleTrace.length := Nat.lt_of_lt_of_le hn (by decide)
    rw [List.getD_eq_getElem _ _ hlt] at hpc
    rw [count_add hx, ih (by omega), List.take_succ_eq_append_getElem hlt, List.countP_append, List.countP_singleton,
      ← hpc]
    simp only [count, Bool.toNat, Nat.add_zero]
    cases (sampleProgram.code.instAt x.pc.toNat).any kind <;> rfl

private theorem sample_pending {n : Nat} (hn : n ≤ 37)
    (h : (sampleTrace.take n).countP (fun pc => (sampleProgram.code.instAt pc.toNat).any Instruction.isCall) =
      (sampleTrace.take n).countP (fun pc => (sampleProgram.code.instAt pc.toNat).any Instruction.isReturn) + 1) :
    sampleStart.count sampleProgram.code.calling n = sampleStart.count sampleProgram.code.returning n + 1 :=
  (sample_count _ hn).trans (h.trans (congrArg (· + 1) (sample_count _ hn).symm))

/-- From the first instruction of a call expression to the end of its code, where for the first time as many
returns as calls have been done, a run leaves the stack pointer, the frame base and the stack below as they
were. -/
theorem calls_preserve_frames {source : String} {out : Compiled} {bytes : List UInt8} {tree : Tree} {g : Generated}
    {m₀ s s' : Machine} {scope : Scope} {name : String} {args : List Expr} {o addr n k : Nat} {ids ids' : LabelSupply}
    {code : Program} (h : compile .binary source = .ok out) (hbin : out.artifact = .binary bytes)
    (hsmall : bytes.length ≤ 0x8000) (hparse : parseSource .standard source = .ok tree) (hgen : generate tree = .ok g)
    (hcall : CompiledAt tree out.symbols.labels addr (.expr scope (.call name args o) ids))
    (hcode : compileExpr scope (.call name args o) ids = .ok (code, ids')) (hload : Machine.load bytes = .ok m₀)
    (hbehaves : m₀.Behaves bytes.length (n + k)) (hs : m₀.after n = some s) (hstart : s.pc.toNat = addr)
    (hs' : s.after k = some s') (hend : s'.pc.toNat = addr + Program.size code)
    (hbalance : s.count g.code.calling k = s.count g.code.returning k)
    (hfirst : ∀ j < k, ∀ x, s.after j = some x → x.pc.toNat = addr + Program.size code →
      s.count g.code.calling j ≠ s.count g.code.returning j) :
    s'.reg .rsp = s.reg .rsp ∧ s'.reg .rsb = s.reg .rsb ∧
      ∀ a : UInt16, 0x8000 ≤ a → a < s.reg .rsp → s'.mem.byte a = s.mem.byte a := by
  obtain ⟨tree', g', L, hparse', hgen', hB, hL, rfl, hlabels⟩ := exists_built h hbin hsmall
  cases hparse'.symm.trans hparse
  cases hgen'.symm.trans hgen
  obtain ⟨m, hload', hfresh⟩ := L.exists_load
  cases hload'.symm.trans hload
  obtain ⟨params, c, ⟨names, hagrees⟩, ⟨_, hc⟩, hplaced⟩ := CompiledAt.placed hB (hlabels ▸ hcall)
  cases hc.symm.trans hcode
  obtain ⟨hready, -⟩ := hB.reachable hfresh hs (hbehaves.mono (Nat.le_add_right n k))
  -- the code of the call, run for as many steps
  have hruns : ExprRuns L (some k) params 0 (fun _ => none) code .initial .initial :=
    compileExpr_safe hB (fun n _ => functionsRun hB n) _ hagrees hcode le_rfl
  have hat : L.At addr (addr + Program.size code) addr (code ++ []) s :=
    ⟨hstart, by rwa [List.append_nil], hready, le_rfl, by rw [List.append_nil]⟩
  have hleads : Leads L addr (addr + Program.size code)
      (fun x => x.pc.toNat = addr + Program.size code ∧ s.Kept x) (some k) 0 s :=
    hruns hat (by simp) fun m' hat' hkept _ => .done ⟨hat'.pc, hkept⟩
  rw [← hL] at hbalance hfirst
  rcases hleads.reach hs' (hbehaves.after hs) with ⟨j, hj, x, hx, ⟨hpc, hkept⟩, hcount⟩ | ⟨k', hp, hcount⟩
  · rcases Nat.lt_or_eq_of_le hj with hlt | rfl
    · exact absurd (by omega) (hfirst j hlt x hx hpc)
    · cases hx.symm.trans hs'
      refine ⟨UInt16.toNat_inj.mp hkept.sp, hkept.rsb, fun a hlo hhi => hkept.stack a ?_ ?_⟩
      · exact UInt16.le_iff_toNat_le.mp hlo
      · exact UInt16.lt_iff_toNat_lt.mp hhi
  · -- without pending calls the run would still be inside the code
    have := hp.within
    omega

theorem calls_preserve_frames_sample :
    ∃ s s', sampleStart.after 7 = some s ∧ s.after 17 = some s' ∧ s.pc = 78 ∧ s'.pc = 102 ∧
      sampleStart.Behaves sampleImage.length 24 ∧ s'.reg .rsp = s.reg .rsp ∧ s'.reg .rsb = s.reg .rsb ∧
        ∀ a : UInt16, 0x8000 ≤ a → a < s.reg .rsp → s'.mem.byte a = s.mem.byte a := by
  obtain ⟨s, hs, hpc, -⟩ := sample_after (show 7 ≤ 37 by decide)
  obtain ⟨s', h₂₄, hpc', -⟩ := sample_after (show 24 ≤ 37 by decide)
  have hs' : s.after 17 = some s' := (after_add hs 17).symm.trans h₂₄
  have hbehaves := sample_behaves (show 24 ≤ 29 by decide)
  -- one call and one return since the first instruction
  have hcalls : s.count sampleProgram.code.calling 17 = s.count sampleProgram.code.returning 17 := by
    have hcalling : sampleStart.count sampleProgram.code.calling 24 = _ := count_add hs 17
    have hreturning : sampleStart.count sampleProgram.code.returning 24 = _ := count_add hs 17
    have hbefore := sample_pending (n := 7) (by decide) (by decide +kernel)
    have hafter := sample_pending (n := 24) (by decide) (by decide +kernel)
    omega
  have htrace : ∀ k ≤ 23, (sampleTrace.getD k 0).toNat ≠ 102 := by decide
  have hfirst : ∀ j < 17, ∀ x, s.after j = some x → x.pc.toNat ≠ 102 := by
    intro j hj x hx
    rw [← after_add hs] at hx
    obtain ⟨y, hy, hpc, -⟩ := sample_after (show 7 + j ≤ 37 by omega)
    cases hy.symm.trans hx
    rw [hpc]
    exact htrace _ (by omega)
  obtain ⟨scope, ids, code, ids', henters, hcode, hsize⟩ : ∃ scope ids code ids',
      EntersBody sampleTree 2 "main" [] scope ids ∧
        compileExpr scope (.call "f" [.int 7] 33) ids = .ok (code, ids') ∧ Program.size code = 24 :=
    ⟨_, _, _, _, ⟨_, _, rfl, rfl, rfl⟩, rfl, rfl⟩
  have hcall : CompiledAt sampleTree sampleLabels 78 (.expr scope (.call "f" [.int 7] 33) ids) :=
    ((@CompiledAt.body _ _ 2 _ _ _ _ _ _ 62 rfl henters rfl).part .firstStmt).part .evaluated
  obtain ⟨hparse, hcompile⟩ := compile_sample
  have := calls_preserve_frames hcompile rfl (by rw [length_sampleImage]; omega) hparse generate_sample hcall hcode
    load_sample hbehaves hs (by rw [hpc]; rfl) hs' (by rw [hpc', hsize]; rfl) hcalls
    (fun j hj x hx hend => absurd (by rwa [hsize] at hend) (hfirst j hj x hx))
  exact ⟨s, s', hs, hs', hpc, hpc', hbehaves, this⟩

end StackToolchain
