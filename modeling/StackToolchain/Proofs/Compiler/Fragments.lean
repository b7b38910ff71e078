import StackToolchain.Proofs.Assembly.Placement
import StackToolchain.Proofs.Compiler.Inversion

/-! The labels of compiled code.
Labels come in families with different first letters. Labels made from a stem and a number are told apart by
the number, so that code which draws its numbers from different ranges has different labels. -/
namespace StackToolchain

open Source (Expr Stmt Decl Tree)

def stems : List String :=
  ["if_begin", "if_end", "while_head", "while_body", "while_end", "call_ret"]

def numberedLabel (stem : String) (id : Nat) : String :=
  stem ++ "_" ++ toString id

private theorem append_underscore_inj {a b c d : List Char} (hb : '_' ∉ b) (hd : '_' ∉ d)
    (h : a ++ '_' :: b = c ++ '_' :: d) : b = d := by
  rcases List.append_eq_append_iff.mp h with ⟨mid, -, h⟩ | ⟨mid, -, h⟩
  · cases mid with
    | nil => simpa using h
    | cons x mid =>
      simp only [List.cons_append, List.cons.injEq] at h
      exact absurd (h.2 ▸ by simp) hb
  · cases mid with
    | nil => simpa using h.symm
    | cons x mid =>
      simp only [List.cons_append, List.cons.injEq] at h
      exact absurd (h.2 ▸ by simp) hd

/-- A numbered label determines its number, because a numeral has no underscore. -/
theorem numberedLabel_inj {stem stem' : String} {i j : Nat} (h : numberedLabel stem i = numberedLabel stem' j) :
    i = j := by
  have hl := congrArg String.toList h
  simp only [numberedLabel, String.toList_append, List.append_assoc] at hl
  have hi : (toString i).toList = Nat.toDigits 10 i := Nat.toList_repr
  have hj : (toString j).toList = Nat.toDigits 10 j := Nat.toList_repr
  have hd := append_underscore_inj (hi ▸ Nat.underscore_not_in_toDigits) (hj ▸ Nat.underscore_not_in_toDigits) hl
  exact Nat.repr_inj.mp (String.toList_inj.mp hd)

def initial (label : String) : Option Char :=
  label.toList.head?

@[simp] theorem initial_functionLabel (name : String) : initial (functionLabel name) = some 'f' := by
  simp [initial, functionLabel]

@[simp] theorem initial_returnLabel (name : String) : initial (returnLabel name) = some 'r' := by
  simp [initial, returnLabel]

@[simp] theorem initial_globalLabel (name : String) : initial (globalLabel name) = some 'v' := by
  simp [initial, globalLabel]

theorem initial_numberedLabel {stem : String} (h : stem ∈ stems) (id : Nat) :
    initial (numberedLabel stem id) ∈ [some 'i', some 'w', some 'c'] := by
  simp only [stems, List.mem_cons, List.not_mem_nil, or_false] at h
  rcases h with rfl | rfl | rfl | rfl | rfl | rfl <;> simp [initial, numberedLabel]

theorem functionLabel_inj {a b : String} (h : functionLabel a = functionLabel b) : a = b := by
  simpa [functionLabel] using h

theorem returnLabel_inj {a b : String} (h : returnLabel a = returnLabel b) : a = b := by
  simpa [returnLabel] using h

theorem globalLabel_inj {a b : String} (h : globalLabel a = globalLabel b) : a = b := by
  simpa [globalLabel] using h

def Numbered (lo hi : Nat) (label : String) : Prop :=
  ∃ stem ∈ stems, ∃ id, lo ≤ id ∧ id < hi ∧ label = numberedLabel stem id

namespace Numbered

variable {lo mid hi : Nat} {label : String}

theorem mono {lo' hi' : Nat} (h : Numbered lo hi label) (hlo : lo' ≤ lo) (hhi : hi ≤ hi') :
    Numbered lo' hi' label := by
  obtain ⟨stem, hs, id, h1, h2, rfl⟩ := h
  exact ⟨stem, hs, id, by omega, by omega, rfl⟩

/-- Ranges that do not meet have no label in common. -/
theorem disjoint (h : Numbered lo mid label) (h' : Numbered mid hi label) : False := by
  obtain ⟨stem, -, i, -, hi, rfl⟩ := h
  obtain ⟨stem', -, j, hj, -, he⟩ := h'
  have := numberedLabel_inj he
  omega

theorem initial_mem (h : Numbered lo hi label) : initial label ∈ [some 'i', some 'w', some 'c'] := by
  obtain ⟨stem, hs, id, -, -, rfl⟩ := h
  exact initial_numberedLabel hs id

end Numbered

def Scope.Refers (scope : Scope) (label : String) : Prop :=
  (∃ name n, scope.get? name = some (.function n) ∧ label = functionLabel name) ∨
    ∃ name, scope.get? name = some (.global label)

private theorem Scope.Refers.of_insert_slot {scope : Scope} {name label : String} {off : Int8}
    (h : Scope.Refers (scope.insert name (.slot off)) label) : scope.Refers label := by
  rcases h with ⟨other, n, h, rfl⟩ | ⟨other, h⟩ <;> rw [Table.get?_insert] at h <;> split at h
  · cases h
  · exact .inl ⟨other, n, h, rfl⟩
  · cases h
  · exact .inr ⟨other, h⟩

theorem Scope.Refers.of_bindParams {function : String} {params : List String} {slots : List FrameSlot}
    {scope inner : Scope} {label : String} (hb : bindParams function scope params = .ok (slots, inner))
    (h : inner.Refers label) : scope.Refers label := by
  induction params generalizing scope slots with
  | nil =>
    obtain ⟨-, rfl⟩ := bindParams_nil.mp hb
    exact h
  | cons name rest ih =>
    obtain ⟨off, others, -, hr, -⟩ := bindParams_cons.mp hb
    exact (ih hr).of_insert_slot

/-- Well-formed code whose labels have different numbers of a range and which refers to these labels and to
outer ones. -/
structure Fragment (lo hi : Nat) (outer : String → Prop) (code : Program) : Prop where
  le : lo ≤ hi
  wellFormed : ∀ i, .inst i ∈ code → i.WellFormed
  nodup : code.labelNames.Nodup
  numbered : ∀ label ∈ code.labelNames, Numbered lo hi label
  refs : ∀ i, .inst i ∈ code → ∀ label ∈ i.refs, label ∈ code.labelNames ∨ outer label

namespace Fragment

variable {lo mid hi : Nat} {outer : String → Prop} {code rest : Program}

private theorem nil (lo : Nat) (outer : String → Prop) : Fragment lo lo outer [] where
  le := le_rfl
  wellFormed := by simp
  nodup := by simp
  numbered := by simp
  refs := by simp

/-- Lines without labels. -/
theorem straight (lo : Nat) (wf : ∀ line ∈ code, ∃ i, line = .inst i ∧ i.WellFormed ∧ ∀ label ∈ i.refs, outer label) :
    Fragment lo lo outer code := by
  have hl : code.labelNames = [] := by
    rw [List.eq_nil_iff_forall_not_mem]
    intro name hn
    obtain ⟨i, hi, -⟩ := wf _ (Program.mem_labelNames.mp hn)
    cases hi
  refine ⟨le_rfl, fun i hi => ?_, by simp [hl], by simp [hl], fun i hi label hlab => .inr ?_⟩
  · obtain ⟨j, hj, hw, -⟩ := wf _ hi
    cases hj
    exact hw
  · obtain ⟨j, hj, -, hr⟩ := wf _ hi
    cases hj
    exact hr label hlab

private theorem append (h : Fragment lo mid outer code) (h' : Fragment mid hi outer rest) :
    Fragment lo hi outer (code ++ rest) where
  le := h.le.trans h'.le
  wellFormed i hi := (List.mem_append.mp hi).elim (h.wellFormed i) (h'.wellFormed i)
  nodup := by
    rw [Program.labelNames_append, List.nodup_append]
    refine ⟨h.nodup, h'.nodup, ?_⟩
    rintro a ha b hb rfl
    exact (h.numbered a ha).disjoint (h'.numbered a hb)
  numbered label hl := by
    rw [Program.labelNames_append, List.mem_append] at hl
    rcases hl with hl | hl
    · exact (h.numbered label hl).mono le_rfl h'.le
    · exact (h'.numbered label hl).mono h.le le_rfl
  refs i hi label hl := by
    rw [Program.labelNames_append, List.mem_append]
    rcases List.mem_append.mp hi with hi | hi
    · exact (h.refs i hi label hl).imp .inl id
    · exact (h'.refs i hi label hl).imp .inr id

/-- The order of the lines does not matter. -/
theorem perm (h : Fragment lo hi outer code) (hp : code.Perm rest) : Fragment lo hi outer rest where
  le := h.le
  wellFormed i hi := h.wellFormed i (hp.mem_iff.mpr hi)
  nodup := (hp.filterMap _).nodup_iff.mp h.nodup
  numbered label hl := h.numbered label ((hp.filterMap _).mem_iff.mpr hl)
  refs i hi label hl := (h.refs i (hp.mem_iff.mpr hi) label hl).imp_left (hp.filterMap _).mem_iff.mp

end Fragment

section
variable {outer : String → Prop}

private theorem load_fragment {cell : Cell} (lo : Nat) (h : ∀ label, cell = .record label → outer label) :
    Fragment lo lo outer cell.load := by
  apply Fragment.straight
  cases cell with
  | frame off =>
    simp [Cell.load, Instruction.memr, Instruction.WellFormed, Instruction.refs, Operand.slot, Opcode.layout]
  | record label =>
    simp [Cell.load, Instruction.memr, Instruction.immLabel, Instruction.WellFormed, Instruction.refs, Operand.slot,
      Opcode.layout, h label rfl]

private theorem store_fragment {cell : Cell} (lo : Nat) (h : ∀ label, cell = .record label → outer label) :
    Fragment lo lo outer cell.store := by
  apply Fragment.straight
  cases cell with
  | frame off =>
    simp [Cell.store, Instruction.memw, Instruction.WellFormed, Instruction.refs, Operand.slot, Opcode.layout]
  | record label =>
    simp [Cell.store, Instruction.memw, Instruction.immLabel, Instruction.WellFormed, Instruction.refs, Operand.slot,
      Opcode.layout, h label rfl]

private theorem cell_refers {scope : Scope} {name label : String} {offset : Option Nat}
    (h : scope.cell name offset = .ok (.record label)) : scope.Refers label := by
  rcases Scope.cell_eq_ok.mp h with ⟨off, -, hc⟩ | ⟨l, hg, hc⟩
  · cases hc
  · cases hc
    exact .inr ⟨name, hg⟩

/-- The part of a call that has its own label: pass the return address, jump, take the arguments off. -/
private theorem call_fragment (lo n : Nat) {name : String} (h : outer (functionLabel name)) :
    Fragment lo (lo + 1) outer
      ([.inst (.immLabel .raddr (numberedLabel "call_ret" lo)), .inst (.push .raddr),
        .inst (.jmp (functionLabel name)), .label (numberedLabel "call_ret" lo)] ++
        List.replicate n (.inst (.pop .raddr))) := by
  have hp : Fragment (lo + 1) (lo + 1) outer (List.replicate n (.inst (.pop .raddr))) := by
    apply Fragment.straight
    intro line hl
    obtain rfl := List.eq_of_mem_replicate hl
    exact ⟨_, rfl, rfl, by simp [Instruction.pop, Instruction.refs]⟩
  refine Fragment.append ⟨by omega, ?_, by simp, ?_, ?_⟩ hp
  · simp [Instruction.immLabel, Instruction.push, Instruction.jmp, Instruction.WellFormed, Operand.slot, Opcode.layout]
  · simp only [Program.labelNames_inst, Program.labelNames_label, Program.labelNames_nil, List.mem_singleton,
      forall_eq]
    exact ⟨_, by simp [stems], lo, le_rfl, by omega, rfl⟩
  · simp [Instruction.immLabel, Instruction.push, Instruction.jmp, Instruction.refs, h]

/-- The two labels and jumps that surround the body of a conditional or repeated statement. -/
private theorem branch_fragment (lo : Nat) {yes done : String} (hy : yes ∈ stems) (hd : done ∈ stems) :
    Fragment lo (lo + 2) outer
      [.inst (.jmpif .rret (numberedLabel yes lo)), .inst (.jmp (numberedLabel done (lo + 1))),
        .label (numberedLabel yes lo), .label (numberedLabel done (lo + 1))] := by
  have hne : numberedLabel yes lo ≠ numberedLabel done (lo + 1) := by
    intro h
    have := numberedLabel_inj h
    omega
  refine ⟨by omega, ?_, by simpa using hne, ?_, ?_⟩
  · simp [Instruction.jmpif, Instruction.jmp, Instruction.WellFormed, Operand.slot, Opcode.layout]
  · simp only [Program.labelNames_inst, Program.labelNames_label, Program.labelNames_nil, List.mem_cons,
      List.not_mem_nil, or_false, forall_eq_or_imp, forall_eq]
    exact ⟨⟨yes, hy, lo, le_rfl, by omega, rfl⟩, ⟨done, hd, lo + 1, by omega, by omega, rfl⟩⟩
  · simp [Instruction.jmpif, Instruction.jmp, Instruction.refs]

/-- The label and the jump that surround a repeated statement. -/
private theorem head_fragment (lo : Nat) {stem : String} (hs : stem ∈ stems) :
    Fragment lo (lo + 1) outer [.label (numberedLabel stem lo), .inst (.jmp (numberedLabel stem lo))] := by
  refine ⟨by omega, ?_, by simp, ?_, ?_⟩
  · simp [Instruction.jmp, Instruction.WellFormed, Operand.slot, Opcode.layout]
  · simp only [Program.labelNames_inst, Program.labelNames_label, Program.labelNames_nil, List.mem_singleton,
      forall_eq]
    exact ⟨stem, hs, lo, le_rfl, by omega, rfl⟩
  · simp [Instruction.jmp, Instruction.refs]

private theorem binaryCode_fragment {lo mid hi : Nat} {l r : Program} (op : AluOp) (hl : Fragment lo mid outer l)
    (hr : Fragment mid hi outer r) : Fragment lo hi outer (binaryCode op l r) := by
  have push : Fragment mid mid outer [.inst (.mov .rret .rexpr), .inst (.push .rexpr)] := by
    apply Fragment.straight
    simp [Instruction.mov, Instruction.push, Instruction.WellFormed, Instruction.refs, Operand.slot, Opcode.layout]
  have join : Fragment hi hi outer [.inst (.pop .rexpr), .inst (.alu op .rexpr .rret .rret)] := by
    apply Fragment.straight
    simp [Instruction.pop, Instruction.alu, Instruction.WellFormed, Instruction.refs, Operand.slot, Opcode.layout]
  exact hl.append (push.append (hr.append join))

private theorem writeCode_fragment {lo mid hi : Nat} {a v : Program} (ha : Fragment lo mid outer a)
    (hv : Fragment mid hi outer v) : Fragment lo hi outer (writeCode a v) := by
  have push : Fragment mid mid outer [.inst (.push .rret)] := by
    apply Fragment.straight
    simp [Instruction.push, Instruction.WellFormed, Instruction.refs, Operand.slot, Opcode.layout]
  have put : Fragment hi hi outer [.inst (.pop .rexpr), .inst (.memw .rexpr .rret 0)] := by
    apply Fragment.straight
    simp [Instruction.pop, Instruction.memw, Instruction.WellFormed, Instruction.refs, Operand.slot, Opcode.layout]
  exact ha.append (push.append (hv.append put))

/-- A conditional statement: the order of its lines apart, the test, the branch, and the body. -/
theorem condCode_fragment {lo mid hi : Nat} {t b : Program} (ht : Fragment lo mid outer t)
    (hb : Fragment (mid + 2) hi outer b) :
    Fragment lo hi outer (condCode (numberedLabel "if_begin" mid) (numberedLabel "if_end" (mid + 1)) t b) := by
  have hs : "if_begin" ∈ stems ∧ "if_end" ∈ stems := by simp [stems]
  refine (ht.append ((branch_fragment mid hs.1 hs.2).append hb)).perm (List.perm_iff_count.mpr fun line => ?_)
  simp only [condCode, List.count_append, List.count_cons, List.count_nil]
  omega

/-- A repeated statement: the order of its lines apart, the head, the test, the branch, and the body. -/
theorem loopCode_fragment {lo mid hi : Nat} {t b : Program} (ht : Fragment (lo + 1) mid outer t)
    (hb : Fragment (mid + 2) hi outer b) :
    Fragment lo hi outer
      (loopCode (numberedLabel "while_head" lo) (numberedLabel "while_body" mid) (numberedLabel "while_end" (mid + 1))
        t b) := by
  have hs : "while_head" ∈ stems ∧ "while_body" ∈ stems ∧ "while_end" ∈ stems := by simp [stems]
  refine ((head_fragment lo hs.1).append (ht.append ((branch_fragment mid hs.2.1 hs.2.2).append hb))).perm
    (List.perm_iff_count.mpr fun line => ?_)
  simp only [loopCode, List.count_append, List.count_cons, List.count_nil]
  omega

end

section
variable {outer : String → Prop} {scope : Scope}

mutual

/-- The code of an expression is a fragment with the numbers that it draws. -/
theorem compileExpr_fragment (ho : ∀ label, scope.Refers label → outer label) :
    (e : Expr) → ∀ {ids ids' : LabelSupply} {code : Program}, compileExpr scope e ids = .ok (code, ids') →
      Fragment ids.next ids'.next outer code
  | .int n, ids, ids', code, h => by
    obtain ⟨rfl, rfl⟩ := compileExpr_int.mp h
    apply Fragment.straight
    simp [Instruction.imm, Instruction.WellFormed, Instruction.refs, Operand.slot, Opcode.layout]
  | .var name offset, ids, ids', code, h => by
    obtain ⟨cell, hc, rfl, rfl⟩ := compileExpr_var.mp h
    refine load_fragment _ ?_
    rintro label rfl
    exact ho label (cell_refers hc)
  | .paren inner, ids, ids', code, h => compileExpr_fragment ho inner (compileExpr_paren.mp h)
  | .binary left op right, ids, ids', code, h => by
    obtain ⟨l, mid, r, hl, hr, rfl⟩ := compileExpr_binary.mp h
    exact binaryCode_fragment op (compileExpr_fragment ho left hl) (compileExpr_fragment ho right hr)
  | .call name args offset, ids, ids', code, h => by
    obtain ⟨codes, mid, ha, hc, he⟩ := compileExpr_call.mp h
    rw [callCode_eq, Prod.mk.injEq] at he
    obtain ⟨rfl, rfl⟩ := he
    have hf : outer (functionLabel name) := ho _ (.inl ⟨name, _, Scope.arity_eq_ok.mp ha, rfl⟩)
    exact (compileArgs_fragment ho args hc).append (call_fragment mid.next codes.length hf)

/-- So is the code that puts the values of arguments on the stack. -/
theorem compileArgs_fragment (ho : ∀ label, scope.Refers label → outer label) :
    (args : List Expr) → ∀ {ids ids' : LabelSupply} {codes : List Program},
      compileArgs scope args ids = .ok (codes, ids') →
        Fragment ids.next ids'.next outer (codes.flatMap (· ++ [.inst (.push .rret)]))
  | [], ids, ids', codes, h => by
    obtain ⟨rfl, rfl⟩ := compileArgs_nil.mp h
    exact Fragment.nil _ _
  | arg :: rest, ids, ids', codes, h => by
    obtain ⟨c, mid, cs, hc, hr, rfl⟩ := compileArgs_cons.mp h
    have push : Fragment mid.next mid.next outer [.inst (.push .rret)] := by
      apply Fragment.straight
      simp [Instruction.push, Instruction.WellFormed, Instruction.refs, Operand.slot, Opcode.layout]
    exact ((compileExpr_fragment ho arg hc).append push).append (compileArgs_fragment ho rest hr)

end

end

section
variable {outer : String → Prop} {function : String}

private theorem ret_fragment (lo : Nat) (h : outer (returnLabel function)) :
    Fragment lo lo outer [.inst (.jmp (returnLabel function))] := by
  apply Fragment.straight
  simp [Instruction.jmp, Instruction.WellFormed, Instruction.refs, Operand.slot, Opcode.layout, h]

mutual

/-- The code of a statement is a fragment with the numbers that it draws. Only local variables are bound, so no
new label can be referred to afterwards. -/
theorem compileStmt_fragment (hret : outer (returnLabel function)) :
    (s : Stmt) → ∀ {scope scope' : Scope} {st st' : BodyState} {code : Program},
      (∀ label, scope.Refers label → outer label) → compileStmt function s scope st = .ok (code, scope', st') →
        Fragment st.ids.next st'.ids.next outer code ∧ ∀ label, scope'.Refers label → outer label
  | .scope body, scope, scope', st, st', code, ho, h => by
    obtain ⟨hb, rfl⟩ := compileStmt_scope.mp h
    exact ⟨compileStmts_fragment hret body ho hb, ho⟩
  | .var name none offset, scope, scope', st, st', code, ho, h => by
    obtain ⟨off, ha, rfl, rfl⟩ := compileStmt_var_none.mp h
    obtain ⟨-, rfl⟩ := addLocal_eq_ok.mp ha
    exact ⟨Fragment.nil _ _, fun label hl => ho label hl.of_insert_slot⟩
  | .var name (some value) offset, scope, scope', st, st', code, ho, h => by
    obtain ⟨off, mid, c, ids, ha, rfl, hc, rfl, rfl⟩ := compileStmt_var_some.mp h
    obtain ⟨-, rfl⟩ := addLocal_eq_ok.mp ha
    have ho' : ∀ label, Scope.Refers (scope.insert name (.slot off)) label → outer label :=
      fun label hl => ho label hl.of_insert_slot
    refine ⟨(compileExpr_fragment ho' value hc).append (store_fragment _ ?_), ho'⟩
    rintro label ⟨⟩
  | .assign name value offset, scope, scope', st, st', code, ho, h => by
    obtain ⟨cell, c, ids, hcell, hc, rfl, rfl, rfl⟩ := compileStmt_assign.mp h
    refine ⟨(compileExpr_fragment ho value hc).append (store_fragment _ ?_), ho⟩
    rintro label rfl
    exact ho label (cell_refers hcell)
  | .write addr value, scope, scope', st, st', code, ho, h => by
    obtain ⟨a, mid, v, ids, ha, hv, rfl, rfl, rfl⟩ := compileStmt_write.mp h
    exact ⟨writeCode_fragment (compileExpr_fragment ho addr ha) (compileExpr_fragment ho value hv), ho⟩
  | .ret none, scope, scope', st, st', code, ho, h => by
    obtain ⟨rfl, rfl, rfl⟩ := compileStmt_ret_none.mp h
    exact ⟨ret_fragment _ hret, ho⟩
  | .ret (some value), scope, scope', st, st', code, ho, h => by
    obtain ⟨c, ids, hc, rfl, rfl, rfl⟩ := compileStmt_ret_some.mp h
    exact ⟨(compileExpr_fragment ho value hc).append (ret_fragment _ hret), ho⟩
  | .cond test body, scope, scope', st, st', code, ho, h => by
    obtain ⟨t, ids, b, ht, hb, rfl⟩ := compileStmt_cond.mp h
    obtain ⟨hbody, ho'⟩ := compileStmt_fragment hret body ho hb
    exact ⟨condCode_fragment (compileExpr_fragment ho test ht) hbody, ho'⟩
  | .loop test body, scope, scope', st, st', code, ho, h => by
    obtain ⟨t, ids, b, ht, hb, rfl⟩ := compileStmt_loop.mp h
    obtain ⟨hbody, ho'⟩ := compileStmt_fragment hret body ho hb
    exact ⟨loopCode_fragment (compileExpr_fragment ho test ht) hbody, ho'⟩
  | .expr value, scope, scope', st, st', code, ho, h => by
    obtain ⟨ids, hc, rfl, rfl⟩ := compileStmt_expr.mp h
    exact ⟨compileExpr_fragment ho value hc, ho⟩

/-- So is the code of the statements of a scope. -/
theorem compileStmts_fragment (hret : outer (returnLabel function)) :
    (body : List Stmt) → ∀ {scope : Scope} {st st' : BodyState} {code : Program},
      (∀ label, scope.Refers label → outer label) → compileStmts function [] body scope st = .ok (code, st') →
        Fragment st.ids.next st'.ids.next outer code
  | [], scope, st, st', code, ho, h => by
    obtain ⟨rfl, rfl⟩ := compileStmts_nil.mp h
    exact Fragment.nil _ _
  | s :: rest, scope, st, st', code, ho, h => by
    obtain ⟨c, sc, mid, cs, hs, hr, rfl⟩ := compileStmts_cons.mp h
    obtain ⟨hc, ho'⟩ := compileStmt_fragment hret s ho hs
    exact hc.append (compileStmts_fragment hret rest ho' hr)

end

end

end StackToolchain
