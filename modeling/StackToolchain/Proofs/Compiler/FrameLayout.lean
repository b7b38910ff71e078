import StackToolchain.Proofs.Compiler.Assembling
import StackToolchain.Proofs.Compiler.Declarations

/-! The layout of frames.
While a body is compiled, the variables that it declares get the slots 0, 2, 4 and so on in the order of the text, and
every name of the scope stands for one of these slots or for a parameter. So code reaches into its frame at the listed
places only. The saved base and the return address, which stand between the parameters and the variables, are none of
them. -/
namespace StackToolchain

open Source

namespace Source

mutual

def Stmt.locals : Stmt → List String
  | .scope body => allLocals body
  | .var name _ _ => [name]
  | .cond _ body => body.locals
  | .loop _ body => body.locals
  | .assign _ _ _ | .write _ _ | .ret _ | .expr _ => []

def Stmt.allLocals : List Stmt → List String
  | [] => []
  | s :: rest => s.locals ++ allLocals rest

end

end Source

def Instruction.frameAccess? : Instruction → Option Int8
  | ⟨.memr, [.reg .rsb, .imm8 offset, .reg _]⟩ => some offset
  | ⟨.memw, [.reg .rsb, .reg _, .imm8 offset]⟩ => some offset
  | _ => none

/-- Code reads and writes memory from the frame base at some offsets only. -/
def Program.Touches (code : Program) (offsets : List Int8) : Prop :=
  ∀ i, .inst i ∈ code → ∀ off, i.frameAccess? = some off → off ∈ offsets

namespace Program

variable {code rest : Program} {offsets offsets' : List Int8}

@[simp] theorem touches_nil : Program.Touches [] offsets := by
  simp [Touches]

@[simp] theorem touches_label {label : String} :
    Program.Touches (.label label :: rest) offsets ↔ rest.Touches offsets := by
  simp [Touches]

@[simp] theorem touches_inst {i : Instruction} :
    Program.Touches (.inst i :: rest) offsets ↔
      (∀ off, i.frameAccess? = some off → off ∈ offsets) ∧ rest.Touches offsets := by
  simp [Touches, or_imp, forall_and]

@[simp] theorem touches_append :
    Program.Touches (code ++ rest) offsets ↔ code.Touches offsets ∧ rest.Touches offsets := by
  simp [Touches, or_imp, forall_and]

private theorem Touches.mono (h : code.Touches offsets) (hsub : offsets ⊆ offsets') : code.Touches offsets' :=
  fun i hi off ho => hsub (h i hi off ho)

end Program

def Scope.SlotsIn (scope : Scope) (offsets : List Int8) : Prop :=
  ∀ name off, scope.get? name = some (.slot off) → off ∈ offsets

namespace Scope.SlotsIn

variable {scope : Scope} {offsets offsets' : List Int8}

private theorem mono (h : scope.SlotsIn offsets) (hsub : offsets ⊆ offsets') : scope.SlotsIn offsets' :=
  fun name off hb => hsub (h name off hb)

private theorem insert (h : scope.SlotsIn offsets) (name : String) {off : Int8} (hoff : off ∈ offsets) :
    Scope.SlotsIn (scope.insert name (.slot off)) offsets := by
  intro other off' hb
  rw [Table.get?_insert] at hb
  split at hb
  · cases hb
    exact hoff
  · exact h other off' hb

private theorem touches_load (h : scope.SlotsIn offsets) {name : String} {offset : Option Nat} {cell : Cell}
    (hc : scope.cell name offset = .ok cell) : cell.load.Touches offsets := by
  rcases Scope.cell_eq_ok.mp hc with ⟨off, hb, rfl⟩ | ⟨label, -, rfl⟩
  · simpa [Cell.load, Instruction.memr, Instruction.frameAccess?] using h name off hb
  · simp [Cell.load, Instruction.memr, Instruction.immLabel, Instruction.frameAccess?]

private theorem touches_store (h : scope.SlotsIn offsets) {name : String} {offset : Option Nat} {cell : Cell}
    (hc : scope.cell name offset = .ok cell) : cell.store.Touches offsets := by
  rcases Scope.cell_eq_ok.mp hc with ⟨off, hb, rfl⟩ | ⟨label, -, rfl⟩
  · simpa [Cell.store, Instruction.memw, Instruction.frameAccess?] using h name off hb
  · simp [Cell.store, Instruction.memw, Instruction.immLabel, Instruction.frameAccess?]

end Scope.SlotsIn

private theorem touches_binaryCode {op : AluOp} {left right : Program} {offsets : List Int8} (hl : left.Touches offsets)
    (hr : right.Touches offsets) : (binaryCode op left right).Touches offsets := by
  simp [binaryCode, hl, hr, Instruction.mov, Instruction.push, Instruction.pop, Instruction.alu,
    Instruction.frameAccess?]

private theorem touches_callCode {name : String} {codes : List Program} {ids : LabelSupply} {offsets : List Int8}
    (h : ∀ code ∈ codes, code.Touches offsets) : (callCode name codes ids).1.Touches offsets := by
  have hargs : Program.Touches (codes.flatMap (· ++ [.inst (.push .rret)])) offsets := by
    induction codes with
    | nil => simp
    | cons code rest ih =>
      obtain ⟨hcode, hrest⟩ := List.forall_mem_cons.mp h
      simp only [List.flatMap_cons, Program.touches_append]
      exact ⟨⟨hcode, by simp [Instruction.push, Instruction.frameAccess?]⟩, ih hrest⟩
  have hpops : Program.Touches (List.replicate codes.length (.inst (.pop .raddr))) offsets := by
    intro i hi off ho
    obtain rfl : i = .pop .raddr := by simpa using (List.mem_replicate.mp hi).2
    cases ho
  rw [callCode_eq]
  refine Program.touches_append.mpr ⟨hargs, Program.touches_append.mpr ⟨?_, hpops⟩⟩
  simp [Instruction.immLabel, Instruction.push, Instruction.jmp, Instruction.frameAccess?]

section
variable {scope : Scope} {offsets : List Int8}

mutual

/-- The code of an expression reaches only the slots of its scope. -/
theorem compileExpr_touches (hs : scope.SlotsIn offsets) : (e : Expr) → ∀ {ids ids' : LabelSupply} {code : Program},
    compileExpr scope e ids = .ok (code, ids') → code.Touches offsets
  | .int n, ids, ids', code, h => by
    obtain ⟨rfl, -⟩ := compileExpr_int.mp h
    simp [Instruction.imm, Instruction.frameAccess?]
  | .var name offset, ids, ids', code, h => by
    obtain ⟨cell, hc, rfl, -⟩ := compileExpr_var.mp h
    exact hs.touches_load hc
  | .paren inner, ids, ids', code, h => compileExpr_touches hs inner (compileExpr_paren.mp h)
  | .binary left op right, ids, ids', code, h => by
    obtain ⟨l, mid, r, hl, hr, rfl⟩ := compileExpr_binary.mp h
    exact touches_binaryCode (compileExpr_touches hs left hl) (compileExpr_touches hs right hr)
  | .call name args offset, ids, ids', code, h => by
    obtain ⟨codes, mid, -, hargs, hcall⟩ := compileExpr_call.mp h
    rw [show code = (callCode name codes mid).1 from congrArg Prod.fst hcall]
    exact touches_callCode (compileArgs_touches hs args hargs)

theorem compileArgs_touches (hs : scope.SlotsIn offsets) :
    (es : List Expr) → ∀ {ids ids' : LabelSupply} {codes : List Program},
    compileArgs scope es ids = .ok (codes, ids') → ∀ code ∈ codes, code.Touches offsets
  | [], ids, ids', codes, h => by
    obtain ⟨rfl, -⟩ := compileArgs_nil.mp h
    simp
  | e :: rest, ids, ids', codes, h => by
    obtain ⟨c, mid, cs, hc, hcs, rfl⟩ := compileArgs_cons.mp h
    exact List.forall_mem_cons.mpr ⟨compileExpr_touches hs e hc, compileArgs_touches hs rest hcs⟩

end

end

def Frame.offsets (frame : Frame) : List Int8 :=
  (frame.args ++ frame.locals).map FrameSlot.offset

def BodyState.frame (st : BodyState) (args : List FrameSlot) : Frame :=
  ⟨st.slots.size, args, st.locals⟩

/-- Some variables have been declared: they have the first slots, in order, and the names of the scope stand for places
of the frame. -/
structure BodyState.Laid (args : List FrameSlot) (vars : List String) (scope : Scope) (st : BodyState) : Prop where
  next : st.slots.next = 2 * vars.length
  few : vars.length ≤ 64
  locals : st.locals = vars.mapIdx fun k name => ⟨name, Int8.ofInt (2 * k)⟩
  slots : scope.SlotsIn (st.frame args).offsets

namespace BodyState.Laid

variable {args : List FrameSlot} {vars more : List String} {scope scope' : Scope} {st st' : BodyState}

private theorem withIds (h : Laid args vars scope st) (ids : LabelSupply) : Laid args vars scope { st with ids } :=
  ⟨h.next, h.few, h.locals, h.slots⟩

private theorem offsets_subset (h : Laid args vars scope st) (h' : Laid args (vars ++ more) scope' st') :
    (st.frame args).offsets ⊆ (st'.frame args).offsets := by
  refine List.map_subset _ ?_
  simp only [BodyState.frame, h.locals, h'.locals, List.mapIdx_append]
  rw [← List.append_assoc]
  exact List.subset_append_left _ _

/-- The bindings of a block end with it, its variables keep their slots. -/
theorem leave (h : Laid args vars scope st) (h' : Laid args (vars ++ more) scope' st') :
    Laid args (vars ++ more) scope st' :=
  ⟨h'.next, h'.few, h'.locals, h.slots.mono (h.offsets_subset h')⟩

/-- A new variable has the next slot. -/
theorem addLocal {function name : String} {off : Int8} (h : Laid args vars scope st)
    (ha : st.addLocal function name = .ok (off, st')) :
    Laid args (vars ++ [name]) (scope.insert name (.slot off)) st' ∧ off ∈ (st'.frame args).offsets := by
  obtain ⟨ho, rfl⟩ := addLocal_eq_ok.mp ha
  obtain ⟨hrange, rfl⟩ := frameOffset?_eq_some.mp ho
  have hnext := h.next
  have hmem : Int8.ofInt st.slots.next ∈ (st.frame args).offsets ++ [Int8.ofInt st.slots.next] := by simp
  have hoffsets : (BodyState.frame ⟨st.ids, ⟨st.slots.next + 2⟩, st.locals ++ [⟨name, Int8.ofInt st.slots.next⟩]⟩
      args).offsets = (st.frame args).offsets ++ [Int8.ofInt st.slots.next] := by
    simp [BodyState.frame, Frame.offsets]
  rw [hoffsets]
  refine ⟨⟨?_, ?_, ?_, ?_⟩, hmem⟩
  · simp only [List.length_append, List.length_singleton]
    omega
  · simp only [List.length_append, List.length_singleton]
    omega
  · simp [h.locals, h.next]
  · rw [hoffsets]
    exact (h.slots.mono (List.subset_append_left _ _)).insert name hmem

end BodyState.Laid

private theorem touches_writeCode {addr value : Program} {offsets : List Int8} (ha : addr.Touches offsets)
    (hv : value.Touches offsets) : (writeCode addr value).Touches offsets := by
  simp [writeCode, ha, hv, Instruction.push, Instruction.pop, Instruction.memw, Instruction.frameAccess?]

private theorem touches_condCode {yes done : String} {test body : Program} {offsets : List Int8}
    (ht : test.Touches offsets) (hb : body.Touches offsets) : (condCode yes done test body).Touches offsets := by
  simp [condCode, ht, hb, Instruction.jmpif, Instruction.jmp, Instruction.frameAccess?]

private theorem touches_loopCode {head yes done : String} {test body : Program} {offsets : List Int8}
    (ht : test.Touches offsets) (hb : body.Touches offsets) :
    (loopCode head yes done test body).Touches offsets := by
  simp [loopCode, ht, hb, Instruction.jmpif, Instruction.jmp, Instruction.frameAccess?]

section
variable {function : String} {args : List FrameSlot}

mutual

/-- A statement gives its variables the next slots, and its code reaches only slots that are given by then. -/
theorem compileStmt_laid : (s : Stmt) →
    ∀ {vars : List String} {scope scope' : Scope} {st st' : BodyState} {code : Program},
    st.Laid args vars scope → compileStmt function s scope st = .ok (code, scope', st') →
      st'.Laid args (vars ++ s.locals) scope' ∧ code.Touches (st'.frame args).offsets
  | .scope body, vars, scope, scope', st, st', code, hl, h => by
    obtain ⟨hb, rfl⟩ := compileStmt_scope.mp h
    exact compileStmts_laid body hl hb
  | .var name none offset, vars, scope, scope', st, st', code, hl, h => by
    obtain ⟨off, ha, rfl, rfl⟩ := compileStmt_var_none.mp h
    exact ⟨(hl.addLocal ha).1, by simp⟩
  | .var name (some value) offset, vars, scope, scope', st, st', code, hl, h => by
    obtain ⟨off, mid, c, ids, ha, rfl, hc, rfl, rfl⟩ := compileStmt_var_some.mp h
    obtain ⟨hl', hoff⟩ := hl.addLocal ha
    refine ⟨hl'.withIds ids, Program.touches_append.mpr ⟨compileExpr_touches hl'.slots value hc, ?_⟩⟩
    rw [Cell.store, Program.touches_inst]
    exact ⟨fun off' ho => Option.some.inj ho ▸ hoff, Program.touches_nil⟩
  | .assign name value offset, vars, scope, scope', st, st', code, hl, h => by
    obtain ⟨cell, c, ids, hcell, hc, rfl, rfl, rfl⟩ := compileStmt_assign.mp h
    rw [Stmt.locals, List.append_nil]
    exact ⟨hl.withIds ids,
      Program.touches_append.mpr ⟨compileExpr_touches hl.slots value hc, hl.slots.touches_store hcell⟩⟩
  | .write addr value, vars, scope, scope', st, st', code, hl, h => by
    obtain ⟨a, mid, v, ids, ha, hv, rfl, rfl, rfl⟩ := compileStmt_write.mp h
    rw [Stmt.locals, List.append_nil]
    exact ⟨hl.withIds ids,
      touches_writeCode (compileExpr_touches hl.slots addr ha) (compileExpr_touches hl.slots value hv)⟩
  | .ret none, vars, scope, scope', st, st', code, hl, h => by
    obtain ⟨rfl, rfl, rfl⟩ := compileStmt_ret_none.mp h
    rw [Stmt.locals, List.append_nil]
    exact ⟨hl, by simp [Instruction.jmp, Instruction.frameAccess?]⟩
  | .ret (some value), vars, scope, scope', st, st', code, hl, h => by
    obtain ⟨c, ids, hc, rfl, rfl, rfl⟩ := compileStmt_ret_some.mp h
    rw [Stmt.locals, List.append_nil]
    refine ⟨hl.withIds ids, Program.touches_append.mpr ⟨compileExpr_touches hl.slots value hc, ?_⟩⟩
    simp [Instruction.jmp, Instruction.frameAccess?]
  | .cond test body, vars, scope, scope', st, st', code, hl, h => by
    obtain ⟨t, ids, b, ht, hb, rfl⟩ := compileStmt_cond.mp h
    obtain ⟨hl', hbody⟩ := compileStmt_laid body (hl.withIds _) hb
    exact ⟨hl', touches_condCode ((compileExpr_touches hl.slots test ht).mono (hl.offsets_subset hl')) hbody⟩
  | .loop test body, vars, scope, scope', st, st', code, hl, h => by
    obtain ⟨t, ids, b, ht, hb, rfl⟩ := compileStmt_loop.mp h
    obtain ⟨hl', hbody⟩ := compileStmt_laid body (hl.withIds _) hb
    exact ⟨hl', touches_loopCode ((compileExpr_touches hl.slots test ht).mono (hl.offsets_subset hl')) hbody⟩
  | .expr value, vars, scope, scope', st, st', code, hl, h => by
    obtain ⟨ids, hc, rfl, rfl⟩ := compileStmt_expr.mp h
    rw [Stmt.locals, List.append_nil]
    exact ⟨hl.withIds ids, compileExpr_touches hl.slots value hc⟩

theorem compileStmts_laid : (body : List Stmt) →
    ∀ {vars : List String} {scope : Scope} {st st' : BodyState} {code : Program},
    st.Laid args vars scope → compileStmts function [] body scope st = .ok (code, st') →
      st'.Laid args (vars ++ Stmt.allLocals body) scope ∧ code.Touches (st'.frame args).offsets
  | [], vars, scope, st, st', code, hl, h => by
    obtain ⟨rfl, rfl⟩ := compileStmts_nil.mp h
    rw [Stmt.allLocals, List.append_nil]
    exact ⟨hl, Program.touches_nil⟩
  | s :: rest, vars, scope, st, st', code, hl, h => by
    obtain ⟨c, sc, mid, cs, hs, hrest, rfl⟩ := compileStmts_cons.mp h
    obtain ⟨hmid, hc⟩ := compileStmt_laid s hl hs
    obtain ⟨hlast, hcs⟩ := compileStmts_laid rest hmid hrest
    have hc' := hc.mono (hmid.offsets_subset hlast)
    rw [List.append_assoc] at hlast
    exact ⟨hl.leave hlast, Program.touches_append.mpr ⟨hc', hcs⟩⟩

end

end

/-- The parameters stand below the return address, the last one on top. -/
theorem bindParams_slots {function : String} {params : List String} {scope inner : Scope} {args : List FrameSlot}
    (h : bindParams function scope params = .ok (args, inner)) :
    args = params.mapIdx fun i name => ⟨name, Int8.ofInt (LocalVar.offset params.length (.param i))⟩ := by
  induction params generalizing scope args with
  | nil =>
    obtain ⟨rfl, -⟩ := bindParams_nil.mp h
    rfl
  | cons name rest ih =>
    obtain ⟨off, others, ho, hr, rfl⟩ := bindParams_cons.mp h
    obtain ⟨-, rfl⟩ := frameOffset?_eq_some.mp ho
    rw [ih hr, List.mapIdx_cons]
    simp [LocalVar.offset]

def FrameSlot.place (slot : FrameSlot) : String × Int :=
  (slot.name, slot.offset.toInt)

/-- A frame holds parameters below its base and variables from its base up, a word each. -/
structure Frame.LaidOut (frame : Frame) (params vars : List String) : Prop where
  args : frame.args.map FrameSlot.place = params.mapIdx fun i name => (name, -4 - 2 * ((params.length : Int) - i))
  locals : frame.locals.map FrameSlot.place = vars.mapIdx fun k name => (name, 2 * (k : Int))
  size : frame.size.toNat = 2 * vars.length
  params_le : params.length ≤ 62
  vars_le : vars.length ≤ 64

/-- The saved base and the return address are not among the places of a frame. -/
theorem Frame.LaidOut.apart {frame : Frame} {params vars : List String} (h : frame.LaidOut params vars) {off : Int8}
    (hoff : off ∈ frame.offsets) : off.toInt ≤ -6 ∨ 0 ≤ off.toInt := by
  obtain ⟨slot, hslot, rfl⟩ := List.mem_map.mp hoff
  have hplace : slot.place ∈ (frame.args ++ frame.locals).map FrameSlot.place := List.mem_map_of_mem hslot
  rw [List.map_append, h.args, h.locals, List.mem_append, List.mem_mapIdx, List.mem_mapIdx] at hplace
  rcases hplace with ⟨i, hi, he⟩ | ⟨k, hk, he⟩
  · have hoffset : -4 - 2 * ((params.length : Int) - i) = slot.offset.toInt := congrArg Prod.snd he
    omega
  · have hoffset : 2 * (k : Int) = slot.offset.toInt := congrArg Prod.snd he
    omega

/-- The frame of a body that is compiled has its parameters and all its variables. -/
theorem BodyState.Laid.laidOut {function : String} {params vars : List String} {scope outer inner : Scope}
    {args : List FrameSlot} {st : BodyState} (h : st.Laid args vars scope)
    (hp : bindParams function outer params = .ok (args, inner)) : (st.frame args).LaidOut params vars := by
  have hparams := bindParams_length hp
  have hvars := h.few
  refine ⟨?_, ?_, ?_, hparams, hvars⟩
  · rw [BodyState.frame, bindParams_slots hp]
    refine List.ext_getElem (by simp) fun i _ hi => ?_
    rw [List.length_mapIdx] at hi
    simp only [List.getElem_map, List.getElem_mapIdx, FrameSlot.place, LocalVar.offset, Prod.mk.injEq, true_and]
    rw [Int8.toInt_ofInt_of_le (by omega) (by omega)]
    omega
  · rw [BodyState.frame, h.locals]
    refine List.ext_getElem (by simp) fun k _ hk => ?_
    rw [List.length_mapIdx] at hk
    simp only [List.getElem_map, List.getElem_mapIdx, FrameSlot.place, Prod.mk.injEq, true_and]
    exact Int8.toInt_ofInt_of_le (by omega) (by omega)
  · rw [BodyState.frame, SlotSupply.size, h.next, Nat.toUInt16, UInt16.toNat_ofNat']
    exact Nat.mod_eq_of_lt (by omega)

/-- At the beginning of a body the names stand for places of parameters. -/
theorem Agrees.laid {tree : Tree} {index : Nat} {function : String} {params : List String} {outer inner : Scope}
    {args : List FrameSlot} (h : Agrees tree params.length (.enter tree index params) inner)
    (hp : bindParams function outer params = .ok (args, inner)) (ids : LabelSupply) :
    BodyState.Laid args [] inner ⟨ids, {}, []⟩ := by
  refine ⟨rfl, Nat.zero_le _, rfl, fun name off hb => ?_⟩
  rw [h.binding, Option.map_eq_some_iff] at hb
  obtain ⟨r, hr, hb⟩ := hb
  cases r <;> cases hb
  rename_i v
  cases v with
  | param i =>
    have hi : i < params.length := (h.own name _ hr).1
    refine List.mem_map.mpr ⟨⟨params.get ⟨i, hi⟩, _⟩, ?_, rfl⟩
    simp only [BodyState.frame, List.append_nil, bindParams_slots hp]
    exact List.mem_mapIdx.mpr ⟨i, hi, rfl⟩
  | var k => exact absurd (h.own name _ hr).1 (Nat.not_lt_zero k)

private theorem touches_prologue (name : String) (size : UInt16) (offsets : List Int8) :
    (prologue name size).Touches offsets := by
  simp [prologue, Instruction.push, Instruction.mov, Instruction.imm, Instruction.alu, Instruction.frameAccess?]

private theorem touches_epilogue (name : String) (offsets : List Int8) : (epilogue name).Touches offsets := by
  simp [epilogue, Instruction.mov, Instruction.pop, Instruction.jmpr, Instruction.frameAccess?]

/-- A name that is not entered is entered at the end. -/
theorem Table.entries_insert {α : Type} {t : Table α} {name : String} (h : name ∉ t.entries.map Prod.fst) (a : α) :
    (t.insert name a).entries = t.entries ++ [(name, a)] := by
  obtain ⟨entries⟩ := t
  simp only [Table.insert]
  induction entries with
  | nil => rfl
  | cons entry rest ih =>
    simp only [List.map_cons, List.mem_cons, not_or] at h
    rw [Table.setEntry, if_neg (Ne.symm h.1), ih h.2, List.cons_append]

/-- Functions of different names have an entry each, in the order of the declarations. -/
theorem declareAll_frames {st st' : UnitState} {decls : List Decl} (h : st.declareAll decls = .ok st')
    (hnodup : (st.frames.entries.map Prod.fst ++ functionNames decls).Nodup) :
    ∃ added, st'.frames.entries = st.frames.entries ++ added ∧ added.map Prod.fst = functionNames decls := by
  induction decls generalizing st with
  | nil =>
    cases h
    exact ⟨[], by simp, rfl⟩
  | cons decl rest ih =>
    obtain ⟨mid, hd, hrest⟩ := declareAll_cons.mp h
    cases decl with
    | func name params body o =>
      have hnames : functionNames (.func name params body o :: rest) = name :: functionNames rest := rfl
      rw [hnames] at hnodup ⊢
      have hfresh : name ∉ st.frames.entries.map Prod.fst :=
        fun hmem => List.disjoint_of_nodup_append hnodup hmem List.mem_cons_self
      obtain ⟨code, frame, ids, -, rfl⟩ := declare_func_eq_ok.mp hd
      have hentries := Table.entries_insert hfresh frame
      rw [List.append_cons] at hnodup
      obtain ⟨added, hadded, hkeys⟩ := ih hrest (by simpa [hentries] using hnodup)
      exact ⟨(name, frame) :: added, by simp [hadded, hentries], by simp [hkeys]⟩
    | global name =>
      cases hd
      obtain ⟨added, hadded, hkeys⟩ := ih hrest hnodup
      exact ⟨added, hadded, hkeys⟩

private theorem frameNames_declareAll {st : UnitState} {decls : List Decl} (h : UnitState.declareAll {} decls = .ok st)
    (hnodup : (functionNames decls).Nodup) : st.frames.entries.map Prod.fst = functionNames decls := by
  obtain ⟨added, hadded, hkeys⟩ := declareAll_frames h hnodup
  exact (congrArg (List.map Prod.fst) hadded).trans hkeys

section
variable {tree : Tree} {g : Generated}

/-- The frame of a function is the one that was made with its code. -/
theorem frame_of_compileFunction (h : generate tree = .ok g) (hdistinct : (functionNames tree).Nodup) {i : Nat}
    {name : String} {params : List String} {body : List Stmt} {o : Nat}
    (hi : tree[i]? = some (.func name params body o)) {st : UnitState}
    (hst : UnitState.declareAll {} (tree.take i) = .ok st) {code : Program} {frame : Frame} {ids : LabelSupply}
    (hf : compileFunction name params body (st.scope.insert name (.function params.length)) st.ids =
      .ok (code, frame, ids)) : g.frames.get? name = some frame := by
  obtain ⟨last, hd, -, rfl⟩ := generate_eq_ok.mp h
  obtain ⟨hlt, hat⟩ := List.getElem?_eq_some_iff.mp hi
  have hsplit : tree = tree.take i ++ .func name params body o :: tree.drop (i + 1) := by
    rw [← hat, List.cons_getElem_drop_succ, List.take_append_drop]
  rw [hsplit, declareAll_append, hst] at hd
  obtain ⟨mid, hm, hrest⟩ := declareAll_cons.mp hd
  have hreach := UnitState.Lays.reach_succ hst hi hm
  have hnames : functionNames tree = functionNames (tree.take (i + 1)) ++ functionNames (tree.drop (i + 1)) := by
    simp only [functionNames]
    rw [← List.filterMap_append, List.take_append_drop]
  rw [hnames] at hdistinct
  -- The entry is there when the function has been compiled. Other names come after it.
  rw [← frameNames_declareAll hreach (List.nodup_append.mp hdistinct).1] at hdistinct
  obtain ⟨added, hadded, -⟩ := declareAll_frames hrest hdistinct
  have hmid : mid.frames.get? name = some frame := by
    obtain ⟨code', frame', ids', hf', rfl⟩ := declare_func_eq_ok.mp hm
    rw [hf] at hf'
    cases hf'
    rw [Table.get?_insert, if_pos rfl]
  rw [Table.get?, hadded, List.lookup_append, ← Table.get?, hmid, Option.some_or]

/-- When the functions of a source have different names, every one has its own frame, in the order of the declarations.
The frame lists the parameters and the variables at their places. The function makes room for its variables and
reaches only these places from the frame base, so neither the saved base at -2 nor the return address at -4. -/
theorem frames_are_laid_out (h : generate tree = .ok g) (hdistinct : (functionNames tree).Nodup) :
    g.frames.entries.map Prod.fst = functionNames tree ∧
      ∀ (index : Nat) name params body o, tree[index]? = some (.func name params body o) →
        ∃ frame, g.frames.get? name = some frame ∧ frame.LaidOut params (Stmt.allLocals body) ∧
          ∃ scope ids ids' code a, compileFunction name params body scope ids = .ok (code, frame, ids') ∧
            g.code.Placed a code ∧
              [.label ("func_" ++ name), .inst (.push .rsb), .inst (.mov .rsp .rsb), .inst (.imm .r2 frame.size),
                .inst (.alu .add .rsb .r2 .rsp)] <+: code ∧ code.Touches frame.offsets ∧
              -2 ∉ frame.offsets ∧ -4 ∉ frame.offsets := by
  constructor
  · obtain ⟨st, hd, -, rfl⟩ := generate_eq_ok.mp h
    exact frameNames_declareAll hd hdistinct
  · intro index name params body o hat
    obtain ⟨a, scope, _, c, last, hf⟩ := generate_function h hat
    obtain ⟨st, args, hst, rfl, hp⟩ := hf.enters
    obtain ⟨hlaid, hc⟩ := compileStmts_laid body (hf.agrees.laid hp st.ids) hf.compiled
    have hcompiled := compileFunction_eq_ok.mpr ⟨args, scope, c, last, hp, hf.compiled, rfl, rfl, rfl⟩
    have hout := hlaid.laidOut hp
    refine ⟨last.frame args, frame_of_compileFunction h hdistinct hat hst hcompiled, hout, _, _, _, _, a, hcompiled,
      hf.placed, List.prefix_append _ _, ?_, fun hoff => ?_, fun hoff => ?_⟩
    · exact Program.touches_append.mpr ⟨touches_prologue _ _ _, Program.touches_append.mpr ⟨hc, touches_epilogue _ _⟩⟩
    · exact absurd (hout.apart hoff) (by decide)
    · exact absurd (hout.apart hoff) (by decide)

end

def loopedLocalsTree : Tree :=
  [.global "g",
    .func "f" ["a", "a"]
      [.loop (.var "a" 0) (.scope [.var "x" (some (.var "a" 0)) 0, .cond (.var "x" 0) (.var "y" none 0),
          .assign "a" (.var "y" 0) 0]),
        .var "x" (some (.var "g" 0)) 0, .ret (some (.var "x" 0))] 0,
    .func "main" [] [.var "x" none 0, .assign "x" (.call "f" [.int 1, .var "x" 0] 0) 0] 0]

theorem frames_are_laid_out_of_nested :
    ∃ g frame, generate loopedLocalsTree = .ok g ∧ (functionNames loopedLocalsTree).Nodup ∧
      g.frames.entries.map Prod.fst = ["f", "main"] ∧ g.frames.get? "f" = some frame ∧
        frame.LaidOut ["a", "a"] ["x", "y", "x"] ∧
          ∃ code a, g.code.Placed a code ∧
            [.label ("func_" ++ "f"), .inst (.push .rsb), .inst (.mov .rsp .rsb), .inst (.imm .r2 frame.size),
              .inst (.alu .add .rsb .r2 .rsp)] <+: code ∧ code.Touches frame.offsets ∧
            -2 ∉ frame.offsets ∧ -4 ∉ frame.offsets := by
  obtain ⟨g, hg⟩ : ∃ g, generate loopedLocalsTree = .ok g := ⟨_, rfl⟩
  have hdistinct : (functionNames loopedLocalsTree).Nodup := by decide
  obtain ⟨hnames, hframes⟩ := frames_are_laid_out hg hdistinct
  obtain ⟨frame, hget, hout, _, _, _, code, a, -, hcode⟩ := hframes 1 "f" ["a", "a"] _ 0 rfl
  exact ⟨g, frame, hg, hdistinct, hnames, hget, hout, code, a, hcode⟩

end StackToolchain
