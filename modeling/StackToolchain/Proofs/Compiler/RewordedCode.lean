import StackToolchain.Proofs.Assembly.Relabelling
import StackToolchain.Proofs.Compiler.Fragments
import StackToolchain.Proofs.Source.Rewording

/-! Code for sources that differ in their names and offsets only.
Names that were different stay different, so the same declarations are found, the same slots and numbers are drawn,
and the code has the same instructions under other labels. A label that is made from a name never meets one that is
made from a number. If there is no code, there is none for the other source, for the same reason. -/
namespace StackToolchain

open Source

def declaredStems : List String :=
  ["func_", "return_", "var_"]

/-- The label that stands in the place of another when names are replaced. Numbered labels have no name in them. -/
def renamedLabel (m : String → String) (label : String) : String :=
  (declaredStems.findSome? fun stem =>
    (stem.toList.isPrefixOf? label.toList).map fun name => stem ++ m (String.ofList name)).getD label

theorem renamedLabel_cases (m : String → String) (label : String) :
    (∃ stem ∈ declaredStems, ∃ name, label = stem ++ name ∧ renamedLabel m label = stem ++ m name) ∨
      (∀ stem ∈ declaredStems, ∀ name, label ≠ stem ++ name) ∧ renamedLabel m label = label := by
  unfold renamedLabel
  cases h : declaredStems.findSome? fun stem =>
    (stem.toList.isPrefixOf? label.toList).map fun name => stem ++ m (String.ofList name) with
  | none =>
    refine .inr ⟨fun stem hs name he => ?_, rfl⟩
    have hnone := List.findSome?_eq_none_iff.mp h stem hs
    rw [Option.map_eq_none_iff, he, String.toList_append] at hnone
    exact absurd (List.isPrefixOf?_eq_some_iff_append_eq.mpr rfl) (by rw [hnone]; simp)
  | some renamed =>
    obtain ⟨stem, hs, hstem⟩ := List.exists_of_findSome?_eq_some h
    obtain ⟨name, hname, rfl⟩ := Option.map_eq_some_iff.mp hstem
    refine .inl ⟨stem, hs, String.ofList name, String.toList_inj.mp ?_, rfl⟩
    rw [String.toList_append, String.toList_ofList, List.isPrefixOf?_eq_some_iff_append_eq.mp hname]

private theorem declaredStems_inj {stem stem' name name' : String} (hs : stem ∈ declaredStems)
    (hs' : stem' ∈ declaredStems) (h : stem ++ name = stem' ++ name') : stem = stem' ∧ name = name' := by
  have hhead : ∀ s ∈ declaredStems, ∀ x, initial (s ++ x) = initial s := by simp [declaredStems, initial]
  have hdiffer : ∀ s ∈ declaredStems, ∀ s' ∈ declaredStems, initial s = initial s' → s = s' := by decide
  obtain rfl := hdiffer stem hs stem' hs' (by rw [← hhead stem hs name, h, hhead stem' hs'])
  exact ⟨rfl, by simpa using h⟩

private theorem renamedLabel_stem {stem : String} (hs : stem ∈ declaredStems) (m : String → String) (name : String) :
    renamedLabel m (stem ++ name) = stem ++ m name := by
  rcases renamedLabel_cases m (stem ++ name) with ⟨stem', hs', name', he, hr⟩ | ⟨hnone, -⟩
  · obtain ⟨rfl, rfl⟩ := declaredStems_inj hs hs' he
    exact hr
  · exact absurd rfl (hnone stem hs name)

theorem renamedLabel_injective {m : String → String} (hm : Function.Injective m) :
    Function.Injective (renamedLabel m) := by
  intro a b h
  rcases renamedLabel_cases m a with ⟨stem, hs, x, rfl, ha⟩ | ⟨hna, ha⟩ <;>
    rcases renamedLabel_cases m b with ⟨stem', hs', y, rfl, hb⟩ | ⟨hnb, hb⟩ <;> rw [ha, hb] at h
  · obtain ⟨rfl, hxy⟩ := declaredStems_inj hs hs' h
    rw [hm hxy]
  · exact absurd h.symm (hnb stem hs (m x))
  · exact absurd h (hna stem' hs' (m y))
  · exact h

private theorem renamedLabel_numbered {stem : String} (hs : stem ∈ stems) (m : String → String) (id : Nat) :
    renamedLabel m (numberedLabel stem id) = numberedLabel stem id := by
  rcases renamedLabel_cases m (numberedLabel stem id) with ⟨stem', hs', name, he, -⟩ | ⟨-, hr⟩
  · -- the first letters of the two families differ
    have hinitial := initial_numberedLabel hs id
    rw [he] at hinitial
    simp only [declaredStems, List.mem_cons, List.not_mem_nil, or_false] at hs'
    rcases hs' with rfl | rfl | rfl <;> simp [initial] at hinitial
  · exact hr

@[simp] theorem renamedLabel_functionLabel (m : String → String) (name : String) :
    renamedLabel m (functionLabel name) = functionLabel (m name) :=
  renamedLabel_stem (by simp [declaredStems]) m name

@[simp] theorem renamedLabel_returnLabel (m : String → String) (name : String) :
    renamedLabel m (returnLabel name) = returnLabel (m name) :=
  renamedLabel_stem (by simp [declaredStems]) m name

@[simp] theorem renamedLabel_globalLabel (m : String → String) (name : String) :
    renamedLabel m (globalLabel name) = globalLabel (m name) :=
  renamedLabel_stem (by simp [declaredStems]) m name

private theorem renamedLabel_fresh (m : String → String) (ids : LabelSupply) (stem : String) (hs : stem ∈ stems) :
    renamedLabel m (ids.fresh stem).1 = (ids.fresh stem).1 :=
  renamedLabel_numbered hs m ids.next

private def Binding.rename (ρ : String → String) : Binding → Binding
  | .global label => .global (ρ label)
  | b => b

private def Cell.rename (ρ : String → String) : Cell → Cell
  | .record label => .record (ρ label)
  | cell => cell

def Scope.rename (m : String → String) (scope : Scope) : Scope :=
  Table.rename m (Binding.rename (renamedLabel m)) scope

def FrameSlot.rename (m : String → String) (slot : FrameSlot) : FrameSlot :=
  { slot with name := m slot.name }

def Frame.rename (m : String → String) (frame : Frame) : Frame :=
  { frame with args := frame.args.map (FrameSlot.rename m), locals := frame.locals.map (FrameSlot.rename m) }

private def BodyState.rename (m : String → String) (st : BodyState) : BodyState :=
  { st with locals := st.locals.map (FrameSlot.rename m) }

inductive CompileError.Reworded (w : Rewording) : CompileError → CompileError → Prop
  | undefinedSymbol {name o o'} : Option.Rel (w.offset name) o o' →
      CompileError.Reworded w (.undefinedSymbol name o) (.undefinedSymbol (w.name name) o')
  | wrongKind {name use o o'} : Option.Rel (w.offset name) o o' →
      CompileError.Reworded w (.wrongKind name use o) (.wrongKind (w.name name) use o')
  | arityMismatch {name expected got o o'} : Option.Rel (w.offset name) o o' →
      CompileError.Reworded w (.arityMismatch name expected got o) (.arityMismatch (w.name name) expected got o')
  | frameOverflow {function} : CompileError.Reworded w (.frameOverflow function) (.frameOverflow (w.name function))

/-- The second computation gives what the first one gives after a change, or both fail with the same error but for
names and offsets. -/
abbrev Renders (w : Rewording) {α β : Type} (change : α → β) : Except CompileError α → Except CompileError β → Prop :=
  Alike (CompileError.Reworded w) fun a b => b = change a

section
variable (ρ : String → String)

@[simp] theorem Program.rename_append (p q : Program) : Program.rename ρ (p ++ q) = p.rename ρ ++ q.rename ρ :=
  List.map_append

@[simp] theorem Program.rename_nil : Program.rename ρ [] = [] := rfl

@[simp] theorem Program.rename_cons (line : Line) (p : Program) :
    Program.rename ρ (line :: p) = line.rename ρ :: p.rename ρ := rfl

private theorem Cell.load_rename (cell : Cell) : (cell.rename ρ).load = cell.load.rename ρ := by
  cases cell <;> rfl

private theorem Cell.store_rename (cell : Cell) : (cell.rename ρ).store = cell.store.rename ρ := by
  cases cell <;> rfl

private theorem binaryCode_rename (op : AluOp) (left right : Program) :
    binaryCode op (left.rename ρ) (right.rename ρ) = (binaryCode op left right).rename ρ := by
  simp [binaryCode, Line.rename, Instruction.rename, Operand.rename, Instruction.mov, Instruction.push,
    Instruction.pop, Instruction.alu]

private theorem writeCode_rename (addr value : Program) :
    writeCode (addr.rename ρ) (value.rename ρ) = (writeCode addr value).rename ρ := by
  simp [writeCode, Line.rename, Instruction.rename, Operand.rename, Instruction.push, Instruction.pop,
    Instruction.memw]

private theorem condCode_rename {yes done : String} (hyes : ρ yes = yes) (hdone : ρ done = done) (test body : Program) :
    condCode yes done (test.rename ρ) (body.rename ρ) = (condCode yes done test body).rename ρ := by
  simp [condCode, Line.rename, Instruction.rename, Operand.rename, Instruction.jmpif, Instruction.jmp, hyes, hdone]

private theorem loopCode_rename {head yes done : String} (hhead : ρ head = head) (hyes : ρ yes = yes)
    (hdone : ρ done = done) (test body : Program) :
    loopCode head yes done (test.rename ρ) (body.rename ρ) = (loopCode head yes done test body).rename ρ := by
  simp [loopCode, Line.rename, Instruction.rename, Operand.rename, Instruction.jmpif, Instruction.jmp, hhead, hyes,
    hdone]

end

section
variable (m : String → String)

private def renamedCode {α : Type} (r : Program × α) : Program × α :=
  (r.1.rename (renamedLabel m), r.2)

private theorem callCode_rename (name : String) (args : List Program) (ids : LabelSupply) :
    callCode (m name) (args.map (Program.rename (renamedLabel m))) ids = renamedCode m (callCode name args ids) := by
  have hback : renamedLabel m (ids.fresh "call_ret").1 = (ids.fresh "call_ret").1 :=
    renamedLabel_fresh m ids "call_ret" (by simp [stems])
  have hargs : (args.map (Program.rename (renamedLabel m))).flatMap (· ++ [.inst (.push .rret)]) =
      Program.rename (renamedLabel m) (args.flatMap (· ++ [.inst (.push .rret)])) := by
    induction args with
    | nil => rfl
    | cons arg rest ih =>
      rw [List.map_cons, List.flatMap_cons, List.flatMap_cons, Program.rename_append, Program.rename_append, ih]
      rfl
  rw [callCode_eq, callCode_eq, renamedCode, hargs]
  simp [Line.rename, Instruction.rename, Operand.rename, Instruction.immLabel, Instruction.push, Instruction.jmp,
    Instruction.pop, Program.rename, hback]

private theorem prologue_rename (name : String) (size : UInt16) :
    prologue (m name) size = (prologue name size).rename (renamedLabel m) := by
  simp [prologue, Line.rename, Instruction.rename, Operand.rename, Instruction.push, Instruction.mov, Instruction.imm,
    Instruction.alu]

private theorem epilogue_rename (name : String) : epilogue (m name) = (epilogue name).rename (renamedLabel m) := by
  simp [epilogue, Line.rename, Instruction.rename, Operand.rename, Instruction.pop, Instruction.mov, Instruction.jmpr]

private theorem jmp_returnLabel_rename (name : String) :
    [Line.inst (.jmp (returnLabel (m name)))] = Program.rename (renamedLabel m) [.inst (.jmp (returnLabel name))] := by
  simp [Line.rename, Instruction.rename, Operand.rename, Instruction.jmp]

end

section
variable {w : Rewording}

private theorem Scope.insert_rename (hw : Function.Injective w.name) (scope : Scope) (name : String) (b : Binding) :
    Table.insert (scope.rename w.name) (w.name name) (b.rename (renamedLabel w.name)) =
      Scope.rename w.name (scope.insert name b) :=
  Table.insert_rename hw scope name b

section
variable (hw : Function.Injective w.name) {name : String} {o o' : Option Nat} (ho : Option.Rel (w.offset name) o o')
  (scope : Scope)
include hw ho

private theorem binding_renders :
    Renders w (Binding.rename (renamedLabel w.name)) (scope.binding name o)
      (Scope.binding (scope.rename w.name) (w.name name) o') := by
  unfold Scope.binding
  rw [Scope.rename, Table.get?_rename hw]
  cases scope.get? name with
  | none => exact .error (.undefinedSymbol ho)
  | some b => exact .ok rfl

private theorem cell_renders :
    Renders w (Cell.rename (renamedLabel w.name)) (scope.cell name o)
      (Scope.cell (scope.rename w.name) (w.name name) o') := by
  refine (binding_renders hw ho scope).bind ?_
  rintro b _ rfl
  cases b with
  | function arity => exact .error (.wrongKind ho)
  | slot offset => exact .ok rfl
  | global label => exact .ok rfl

private theorem arity_renders :
    Renders w id (scope.arity name o) (Scope.arity (scope.rename w.name) (w.name name) o') := by
  refine (binding_renders hw ho scope).bind ?_
  rintro b _ rfl
  cases b with
  | function arity => exact .ok rfl
  | slot offset => exact .error (.wrongKind ho)
  | global label => exact .error (.wrongKind ho)

end

mutual

private theorem compileExpr_renders (hw : Function.Injective w.name) : (e : Expr) →
    ∀ {e' : Expr} (scope : Scope) (ids : LabelSupply), e.Reworded w e' →
    Renders w (renamedCode w.name) (compileExpr scope e ids) (compileExpr (scope.rename w.name) e' ids)
  | .int n, e', scope, ids, h => by
    cases h
    rw [compileExpr, compileExpr]
    exact .ok rfl
  | .var name o, e', scope, ids, h => by
    cases h with | var ho =>
    rw [compileExpr, compileExpr]
    refine (cell_renders hw (.some ho) scope).map ?_
    rintro cell _ rfl
    rw [Cell.load_rename]
    rfl
  | .paren inner, e', scope, ids, h => by
    cases h with | paren hinner =>
    rw [compileExpr, compileExpr]
    exact compileExpr_renders hw inner scope ids hinner
  | .binary left op right, e', scope, ids, h => by
    cases h with | binary hleft hright =>
    rw [compileExpr, compileExpr]
    refine (compileExpr_renders hw left scope ids hleft).bind ?_
    rintro ⟨l, mid⟩ _ rfl
    refine (compileExpr_renders hw right scope mid hright).map ?_
    rintro ⟨r, last⟩ _ rfl
    exact congrArg (·, last) (binaryCode_rename _ op l r)
  | .call name args o, e', scope, ids, h => by
    cases h with | @call _ _ args' _ o' ho hargs =>
    rw [compileExpr, compileExpr, ← hargs.length_eq]
    refine (arity_renders hw (.some ho) scope).bind ?_
    rintro _ arity rfl
    by_cases hn : arity = args.length
    · simp only [hn, if_true]
      refine (compileArgs_renders hw args scope ids hargs).map ?_
      rintro ⟨codes, mid⟩ _ rfl
      exact callCode_rename w.name name codes mid
    · simp only [hn, if_false]
      exact .error (.arityMismatch (.some ho))

private theorem compileArgs_renders (hw : Function.Injective w.name) : (args : List Expr) →
    ∀ {args' : List Expr} (scope : Scope) (ids : LabelSupply), List.Forall₂ (Expr.Reworded w) args args' →
      Renders w (Prod.map (List.map (Program.rename (renamedLabel w.name))) id) (compileArgs scope args ids)
        (compileArgs (scope.rename w.name) args' ids)
  | [], args', scope, ids, h => by
    cases h
    rw [compileArgs, compileArgs]
    exact .ok rfl
  | arg :: rest, args', scope, ids, h => by
    cases h with | cons harg hrest =>
    rw [compileArgs, compileArgs]
    refine (compileExpr_renders hw arg scope ids harg).bind ?_
    rintro ⟨c, mid⟩ _ rfl
    refine (compileArgs_renders hw rest scope mid hrest).map ?_
    rintro ⟨cs, last⟩ _ rfl
    rfl

end

private theorem bodyExpr_renders (hw : Function.Injective w.name) {e e' : Expr} (st : BodyState) (scope : Scope)
    (h : e.Reworded w e') :
    Renders w (Prod.map (Program.rename (renamedLabel w.name)) (BodyState.rename w.name)) (st.expr scope e)
      (BodyState.expr (st.rename w.name) (scope.rename w.name) e') := by
  refine (compileExpr_renders hw e scope st.ids h).map ?_
  rintro ⟨code, ids⟩ _ rfl
  rfl

private theorem addLocal_renders (st : BodyState) (function name : String) :
    Renders w (Prod.map id (BodyState.rename w.name)) (st.addLocal function name)
      (BodyState.addLocal (st.rename w.name) (w.name function) (w.name name)) := by
  simp only [BodyState.addLocal, BodyState.rename, SlotSupply.allocate]
  cases frameOffset? st.slots.next with
  | none => exact .error .frameOverflow
  | some off =>
    refine .ok ?_
    simp [BodyState.rename, FrameSlot.rename]

private def renamedResult (m : String → String) (r : Program × Scope × BodyState) : Program × Scope × BodyState :=
  (r.1.rename (renamedLabel m), r.2.1.rename m, r.2.2.rename m)

mutual

private theorem compileStmt_renders (hw : Function.Injective w.name) (function : String) : (s : Stmt) →
    ∀ {s' : Stmt} (scope : Scope) (st : BodyState), s.Reworded w s' →
      Renders w (renamedResult w.name) (compileStmt function s scope st)
        (compileStmt (w.name function) s' (scope.rename w.name) (st.rename w.name))
  | .scope body, s', scope, st, h => by
    cases h with | scope hbody =>
    rw [compileStmt, compileStmt]
    refine (compileStmts_renders hw function body [] scope st hbody).map ?_
    rintro ⟨code, last⟩ _ rfl
    rfl
  | .var name init o, s', scope, st, h => by
    cases h with | var ho hinit =>
    rw [compileStmt, compileStmt]
    refine (addLocal_renders st function name).bind ?_
    rintro ⟨off, mid⟩ _ rfl
    have hinsert := Scope.insert_rename hw scope name (.slot off)
    cases hinit with
    | none => exact .ok (by rw [renamedResult, ← hinsert]; rfl)
    | some hvalue =>
      simp only [Prod.map_apply, id_eq]
      rw [show Binding.slot off = Binding.rename (renamedLabel w.name) (.slot off) from rfl, hinsert]
      refine (bodyExpr_renders hw mid _ hvalue).map ?_
      rintro ⟨code, last⟩ _ rfl
      simp [renamedResult, ← Cell.store_rename, Cell.rename, Binding.rename]
  | .assign name value o, s', scope, st, h => by
    cases h with | assign ho hvalue =>
    rw [compileStmt, compileStmt]
    refine (cell_renders hw (.some ho) scope).bind ?_
    rintro cell _ rfl
    refine (bodyExpr_renders hw st scope hvalue).map ?_
    rintro ⟨code, last⟩ _ rfl
    simp [renamedResult, ← Cell.store_rename]
  | .write addr value, s', scope, st, h => by
    cases h with | write haddr hvalue =>
    rw [compileStmt, compileStmt]
    refine (bodyExpr_renders hw st scope haddr).bind ?_
    rintro ⟨a, mid⟩ _ rfl
    refine (bodyExpr_renders hw mid scope hvalue).map ?_
    rintro ⟨v, last⟩ _ rfl
    simp [renamedResult, writeCode_rename]
  | .ret value, s', scope, st, h => by
    cases h with | ret hvalue =>
    cases hvalue with
    | none =>
      rw [compileStmt, compileStmt]
      refine .ok ?_
      rw [renamedResult, jmp_returnLabel_rename]
    | some hvalue =>
      rw [compileStmt, compileStmt]
      refine (bodyExpr_renders hw st scope hvalue).map ?_
      rintro ⟨code, last⟩ _ rfl
      simp only [renamedResult, Program.rename_append, ← jmp_returnLabel_rename, Prod.map_apply]
  | .cond test body, s', scope, st, h => by
    cases h with | cond htest hbody =>
    rw [compileStmt, compileStmt]
    refine (bodyExpr_renders hw st scope htest).bind ?_
    rintro ⟨t, mid⟩ _ rfl
    refine (compileStmt_renders hw function body scope _ hbody).map ?_
    rintro ⟨b, inner, last⟩ _ rfl
    -- numbers are drawn in the same order, and labels that hold one stay
    have hyes := renamedLabel_fresh w.name mid.ids "if_begin" (by simp [stems])
    have hdone := renamedLabel_fresh w.name (mid.ids.fresh "if_begin").2 "if_end" (by simp [stems])
    exact congrArg (·, inner.rename w.name, last.rename w.name) (condCode_rename _ hyes hdone t b)
  | .loop test body, s', scope, st, h => by
    cases h with | loop htest hbody =>
    rw [compileStmt, compileStmt]
    refine (bodyExpr_renders hw (st.fresh "while_head").2 scope htest).bind ?_
    rintro ⟨t, mid⟩ _ rfl
    refine (compileStmt_renders hw function body scope _ hbody).map ?_
    rintro ⟨b, inner, last⟩ _ rfl
    have hhead := renamedLabel_fresh w.name st.ids "while_head" (by simp [stems])
    have hyes := renamedLabel_fresh w.name mid.ids "while_body" (by simp [stems])
    have hdone := renamedLabel_fresh w.name (mid.ids.fresh "while_body").2 "while_end" (by simp [stems])
    exact congrArg (·, inner.rename w.name, last.rename w.name) (loopCode_rename _ hhead hyes hdone t b)
  | .expr value, s', scope, st, h => by
    cases h with | expr hvalue =>
    rw [compileStmt, compileStmt]
    refine (bodyExpr_renders hw st scope hvalue).map ?_
    rintro ⟨code, last⟩ _ rfl
    rfl

private theorem compileStmts_renders (hw : Function.Injective w.name) (function : String) : (body : List Stmt) →
    ∀ {body' : List Stmt} (done : List Line) (scope : Scope) (st : BodyState),
      List.Forall₂ (Stmt.Reworded w) body body' →
        Renders w (Prod.map (Program.rename (renamedLabel w.name)) (BodyState.rename w.name))
          (compileStmts function done body scope st)
          (compileStmts (w.name function) (Program.rename (renamedLabel w.name) done) body' (scope.rename w.name)
            (st.rename w.name))
  | [], body', done, scope, st, h => by
    cases h
    rw [compileStmts, compileStmts]
    exact .ok (by simp [Program.rename])
  | s :: rest, body', done, scope, st, h => by
    cases h with | cons hs hrest =>
    rw [compileStmts, compileStmts]
    refine (compileStmt_renders hw function s scope st hs).bind ?_
    rintro ⟨code, inner, mid⟩ _ rfl
    have hdone : (Program.rename (renamedLabel w.name) code).reverse ++ Program.rename (renamedLabel w.name) done =
        Program.rename (renamedLabel w.name) (code.reverse ++ done) := by
      simp [Program.rename]
    simp only [renamedResult, hdone]
    exact compileStmts_renders hw function rest _ inner mid hrest

end

private theorem bindParams_renders (hw : Function.Injective w.name) (function : String) (params : List String)
    (scope : Scope) :
    Renders w (Prod.map (List.map (FrameSlot.rename w.name)) (Scope.rename w.name)) (bindParams function scope params)
      (bindParams (w.name function) (scope.rename w.name) (params.map w.name)) := by
  induction params generalizing scope with
  | nil => exact .ok rfl
  | cons name rest ih =>
    rw [List.map_cons, bindParams, bindParams, List.length_map]
    simp only [paramOffset]
    cases frameOffset? (-4 - 2 * (rest.length + 1 : Nat)) with
    | none => exact .error .frameOverflow
    | some off =>
      have hinsert := Scope.insert_rename hw scope name (.slot off)
      simp only [bind, Except.bind]
      rw [show Binding.slot off = Binding.rename (renamedLabel w.name) (.slot off) from rfl, hinsert]
      refine (ih _).map ?_
      rintro ⟨slots, inner⟩ _ rfl
      rfl

private theorem compileFunction_renders (hw : Function.Injective w.name) (name : String) (params : List String)
    {body body' : List Stmt} (scope : Scope) (ids : LabelSupply) (h : List.Forall₂ (Stmt.Reworded w) body body') :
    Renders w (Prod.map (Program.rename (renamedLabel w.name)) (Prod.map (Frame.rename w.name) id))
      (compileFunction name params body scope ids)
      (compileFunction (w.name name) (params.map w.name) body' (scope.rename w.name) ids) := by
  refine (bindParams_renders hw name params scope).bind ?_
  rintro ⟨args, inner⟩ _ rfl
  refine (compileStmts_renders hw name body [] inner ⟨ids, {}, []⟩ h).map ?_
  rintro ⟨code, st⟩ _ rfl
  simp [prologue_rename, epilogue_rename, BodyState.rename, Frame.rename]

structure UnitState.Reworded (w : Rewording) (st st' : UnitState) : Prop where
  ids : st'.ids = st.ids
  scope : st'.scope = st.scope.rename w.name
  frames : st'.frames = st.frames.rename w.name (Frame.rename w.name)
  code : st'.code = Program.rename (renamedLabel w.name) st.code
  entry : Option.Rel (w.offset "main") st.entry st'.entry

variable (hw : Function.Injective w.name) (hmain : w.name "main" = "main")
include hw hmain

private theorem UnitState.Reworded.declare {st st' : UnitState} {decl decl' : Decl} (hst : st.Reworded w st')
    (h : decl.Reworded w decl') :
    Alike (CompileError.Reworded w) (UnitState.Reworded w) (st.declare decl) (st'.declare decl') := by
  cases h with
  | @func name params body body' o o' ho hbody =>
    have hinsert := Scope.insert_rename hw st.scope name (.function params.length)
    have hscope : st'.scope.insert (w.name name) (.function (params.map w.name).length) =
        Scope.rename w.name (st.scope.insert name (.function params.length)) := by
      rw [hst.scope, List.length_map]
      exact hinsert
    rw [UnitState.declare, UnitState.declare, hscope, hst.ids]
    refine (compileFunction_renders hw name params _ st.ids hbody).map ?_
    rintro ⟨code, frame, ids⟩ _ rfl
    refine ⟨rfl, rfl, ?_, ?_, ?_⟩
    · rw [hst.frames]
      exact Table.insert_rename (f := Frame.rename w.name) hw st.frames name frame
    · simp [hst.code, Program.rename]
    · by_cases hname : name = "main"
      · subst hname
        simpa [hmain] using ho
      · have hname' : w.name name ≠ "main" := by
          rw [← hmain]
          exact hw.ne hname
        simpa [hname, hname'] using hst.entry
  | @global name =>
    refine .ok ⟨hst.ids, ?_, hst.frames, ?_, hst.entry⟩
    · have hinsert := Scope.insert_rename hw st.scope name (.global (globalLabel name))
      simpa [hst.scope, Binding.rename] using hinsert
    · simp [hst.code, Line.rename, Instruction.rename, Instruction.word, Operand.rename]

private theorem UnitState.Reworded.declareAll {st st' : UnitState} {tree tree' : Tree} (hst : st.Reworded w st')
    (h : Tree.Reworded w tree tree') :
    Alike (CompileError.Reworded w) (UnitState.Reworded w) (st.declareAll tree) (st'.declareAll tree') := by
  induction h generalizing st st' with
  | nil => exact .ok hst
  | cons hdecl _ ih => exact (hst.declare hw hmain hdecl).bind fun mid mid' hmid => ih hmid

def Generated.rename (m : String → String) (g : Generated) : Generated :=
  ⟨g.code.rename (renamedLabel m), g.frames.rename m (Frame.rename m)⟩

theorem generate_renders {tree tree' : Tree} (h : Tree.Reworded w tree tree') :
    Renders w (Generated.rename w.name) (generate tree) (generate tree') := by
  have hstart : UnitState.Reworded w {} {} := ⟨rfl, rfl, rfl, rfl, .none⟩
  refine (hstart.declareAll hw hmain h).bind fun st st' hst => ?_
  have harity : Renders w id (st.scope.arity "main" none) (Scope.arity (st.scope.rename w.name) (w.name "main") none) :=
    arity_renders hw .none st.scope
  rw [hmain, ← hst.scope] at harity
  refine harity.bind ?_
  rintro _ arity rfl
  by_cases hn : arity = 0
  · have hcall : (callCode "main" [] st.ids).1 =
        Program.rename (renamedLabel w.name) (callCode "main" [] st.ids).1 := by
      have hboth := callCode_rename w.name "main" [] st.ids
      rw [hmain] at hboth
      exact congrArg Prod.fst hboth
    simp only [hn, if_true, hst.ids, hst.code, hst.frames]
    refine .ok ?_
    rw [Generated.rename, Program.rename_append, ← hcall]
    simp [Program.rename, Line.rename, Instruction.rename, Instruction.halt, Operand.rename]
  · have herror : CompileError.Reworded w (.arityMismatch "main" arity 0 st.entry)
        (.arityMismatch (w.name "main") arity 0 st'.entry) := .arityMismatch hst.entry
    rw [hmain] at herror
    simp only [hn, if_false]
    exact .error herror

end

end StackToolchain
