import StackToolchain.Compiler.Compile
import StackToolchain.Proofs.Compiler.Fragments

/-! Generated programs assemble.
While declarations are compiled, every instruction is well-formed and every reference goes to a label that is
already there. The labels are those of functions and globals and numbered ones, so the only reasons not to
assemble are a name that is declared twice and a program that is too large. -/
namespace StackToolchain

open Source (Expr Stmt Decl Tree)

namespace Source

def functionNames (tree : Tree) : List String :=
  tree.filterMap fun
    | .func name _ _ _ => some name
    | .global _ => none

def globalNames (tree : Tree) : List String :=
  tree.filterMap fun
    | .func _ _ _ _ => none
    | .global name => some name

end Source

open Source (functionNames globalNames)

structure UnitState.Sound (done : Tree) (st : UnitState) : Prop where
  wellFormed : ∀ i, .inst i ∈ st.code → i.WellFormed
  refs : ∀ i, .inst i ∈ st.code → ∀ label ∈ i.refs, .label label ∈ st.code
  scope : ∀ label, st.scope.Refers label → .label label ∈ st.code
  labels : ∃ numbered : List String,
    (Program.labelNames st.code).Perm
      ((functionNames done).map functionLabel ++ (functionNames done).map returnLabel ++
        ((globalNames done).map globalLabel ++ numbered)) ∧
      numbered.Nodup ∧ ∀ label ∈ numbered, Numbered 0 st.ids.next label
  ends : ∀ line, st.code.head? = some line → ∃ i, line = .inst i

namespace UnitState.Sound

private theorem empty : UnitState.Sound [] {} where
  wellFormed := by simp
  refs := by simp
  scope := by simp [Scope.Refers, Table.get?, Table.empty]
  labels := ⟨[], by simp [functionNames, globalNames]⟩
  ends := by simp

/-- The labels of a function: its own two, and those of its body between them. -/
theorem labelNames_function (name : String) (size : UInt16) (c : Program) :
    Program.labelNames (prologue name size ++ (c ++ epilogue name)) =
      functionLabel name :: (c.labelNames ++ [returnLabel name]) := by
  simp [prologue, epilogue]

private theorem mem_prologue {name : String} {size : UInt16} {i : Instruction} (h : .inst i ∈ prologue name size) :
    i.WellFormed ∧ i.refs = [] := by
  simp only [prologue, List.mem_cons, List.not_mem_nil, or_false, Line.inst.injEq, reduceCtorEq, false_or] at h
  rcases h with rfl | rfl | rfl | rfl <;> exact ⟨rfl, rfl⟩

private theorem mem_epilogue {name : String} {i : Instruction} (h : .inst i ∈ epilogue name) :
    i.WellFormed ∧ i.refs = [] := by
  simp only [epilogue, List.mem_cons, List.not_mem_nil, or_false, Line.inst.injEq, reduceCtorEq, false_or] at h
  rcases h with rfl | rfl | rfl | rfl <;> exact ⟨rfl, rfl⟩

private theorem func {done : Tree} {st st' : UnitState} {name : String} {params : List String} {body : List Stmt}
    {offset : Nat} (hs : Sound done st) (h : st.declare (.func name params body offset) = .ok st') :
    Sound (done ++ [.func name params body offset]) st' := by
  obtain ⟨code, frame, ids, hf, rfl⟩ := declare_func_eq_ok.mp h
  obtain ⟨args, inner, c, last, hp, hb, rfl, -, rfl⟩ := compileFunction_eq_ok.mp hf
  have hnames := labelNames_function name last.slots.size c
  -- the body may refer to the function itself, to its way out, and to what was declared before
  have hfrag : Fragment st.ids.next last.ids.next
      (fun label => label = returnLabel name ∨ label = functionLabel name ∨ st.scope.Refers label) c := by
    refine compileStmts_fragment (.inl rfl) body (fun label hl => .inr ?_) hb
    rcases hl.of_bindParams hp with ⟨other, n, ho, rfl⟩ | ⟨other, ho⟩ <;> rw [Table.get?_insert] at ho <;>
      split at ho
    · rename_i he
      exact .inl (by rw [he])
    · exact .inr (.inl ⟨other, n, ho, rfl⟩)
    · cases ho
    · exact .inr (.inr ⟨other, ho⟩)
  have hnew : ∀ label, label ∈ functionLabel name :: (c.labelNames ++ [returnLabel name]) ∨ .label label ∈ st.code →
      .label label ∈ (prologue name last.slots.size ++ (c ++ epilogue name)).reverse ++ st.code := by
    intro label hl
    rw [List.mem_append, List.mem_reverse]
    exact hl.imp_left fun hl => Program.mem_labelNames.mp (hnames ▸ hl)
  have hinst : ∀ i, .inst i ∈ (prologue name last.slots.size ++ (c ++ epilogue name)).reverse ++ st.code →
      (i.WellFormed ∧ i.refs = []) ∨ .inst i ∈ c ∨ .inst i ∈ st.code := by
    intro i hi
    simp only [List.mem_append, List.mem_reverse] at hi
    rcases hi with (hi | hi | hi) | hi
    · exact .inl (mem_prologue hi)
    · exact .inr (.inl hi)
    · exact .inl (mem_epilogue hi)
    · exact .inr (.inr hi)
  refine ⟨fun i hi => ?_, fun i hi label hl => ?_, fun label hl => ?_, ?_, ?_⟩
  · rcases hinst i hi with h | h | h
    · exact h.1
    · exact hfrag.wellFormed i h
    · exact hs.wellFormed i h
  · apply hnew
    rcases hinst i hi with h | h | h
    · simp [h.2] at hl
    · rcases hfrag.refs i h label hl with h | rfl | rfl | h
      · simp [h]
      · simp
      · simp
      · exact .inr (hs.scope label h)
    · exact .inr (hs.refs i h label hl)
  · apply hnew
    rcases hl with ⟨other, n, ho, rfl⟩ | ⟨other, ho⟩ <;> rw [Table.get?_insert] at ho <;> split at ho
    · rename_i he
      simp [he]
    · exact .inr (hs.scope _ (.inl ⟨other, n, ho, rfl⟩))
    · cases ho
    · exact .inr (hs.scope _ (.inr ⟨other, ho⟩))
  · obtain ⟨numbered, hperm, hnd, hnum⟩ := hs.labels
    refine ⟨c.labelNames ++ numbered, ?_, ?_, ?_⟩
    · rw [List.perm_iff_count] at hperm ⊢
      intro label
      have := hperm label
      have hrev : (Program.labelNames (prologue name last.slots.size ++ (c ++ epilogue name)).reverse).count label =
          (functionLabel name :: (c.labelNames ++ [returnLabel name])).count label := by
        rw [← hnames]
        exact (List.Perm.filterMap _ (List.reverse_perm _)).count_eq label
      rw [Program.labelNames_append, List.count_append, hrev]
      simp only [functionNames, globalNames, List.filterMap_append, List.map_append, List.count_append,
        List.count_cons, List.filterMap_cons, List.filterMap_nil, List.map_cons, List.map_nil, List.count_nil]
        at this ⊢
      omega
    · rw [List.nodup_append]
      refine ⟨hfrag.nodup, hnd, ?_⟩
      rintro a ha b hb rfl
      exact (hnum a hb).disjoint (hfrag.numbered a ha)
    · intro label hl
      rcases List.mem_append.mp hl with hl | hl
      · exact (hfrag.numbered label hl).mono (Nat.zero_le _) le_rfl
      · exact (hnum label hl).mono le_rfl hfrag.le
  · intro line hl
    refine ⟨.jmpr .raddr, ?_⟩
    simpa [prologue, epilogue] using hl.symm

private theorem global {done : Tree} {st st' : UnitState} {name : String} (hs : Sound done st)
    (h : st.declare (.global name) = .ok st') : Sound (done ++ [.global name]) st' := by
  cases h
  refine ⟨fun i hi => ?_, fun i hi label hl => ?_, fun label hl => ?_, ?_, ?_⟩
  · simp only [List.mem_cons, Line.inst.injEq, reduceCtorEq, false_or] at hi
    rcases hi with rfl | hi
    · rfl
    · exact hs.wellFormed i hi
  · simp only [List.mem_cons, Line.inst.injEq, reduceCtorEq, false_or] at hi
    rcases hi with rfl | hi
    · simp [Instruction.word, Instruction.refs] at hl
    · simp [hs.refs i hi label hl]
  · rcases hl with ⟨other, n, ho, rfl⟩ | ⟨other, ho⟩ <;> rw [Table.get?_insert] at ho <;> split at ho
    · cases ho
    · simp [hs.scope _ (.inl ⟨other, n, ho, rfl⟩)]
    · cases ho
      simp
    · simp [hs.scope _ (.inr ⟨other, ho⟩)]
  · obtain ⟨numbered, hperm, hnd, hnum⟩ := hs.labels
    refine ⟨numbered, ?_, hnd, hnum⟩
    rw [List.perm_iff_count] at hperm ⊢
    intro label
    have := hperm label
    simp only [functionNames, globalNames, List.filterMap_append, List.map_append, List.count_append, List.count_cons,
      List.filterMap_cons, List.filterMap_nil, List.map_cons, List.map_nil, List.count_nil, Program.labelNames_inst,
      Program.labelNames_label] at this ⊢
    omega
  · intro line hl
    exact ⟨.word 0, by simpa using hl.symm⟩

private theorem declareAll {rest done : Tree} {st st' : UnitState} (hs : Sound done st)
    (h : st.declareAll rest = .ok st') : Sound (done ++ rest) st' := by
  induction rest generalizing done st with
  | nil =>
    cases h
    simpa using hs
  | cons decl rest ih =>
    obtain ⟨mid, hd, hr⟩ := declareAll_cons.mp h
    have hm : Sound (done ++ [decl]) mid := by
      cases decl with
      | func name params body offset => exact hs.func hd
      | global name => exact hs.global hd
    simpa using ih hm hr

end UnitState.Sound

section
variable {tree : Tree} {g : Generated}

/-- A generated program is the call of `main`, a stop, and the code of the declarations. -/
theorem generate_sound (h : generate tree = .ok g) :
    ∃ st, UnitState.Sound tree st ∧ .label (functionLabel "main") ∈ st.code ∧
      g.code = .inst (.immLabel .raddr (numberedLabel "call_ret" st.ids.next)) :: .inst (.push .raddr) ::
        .inst (.jmp (functionLabel "main")) :: .label (numberedLabel "call_ret" st.ids.next) :: .inst .halt ::
          st.code.reverse := by
  obtain ⟨st, hd, hm, rfl⟩ := generate_eq_ok.mp h
  have hs : UnitState.Sound tree st := by simpa using UnitState.Sound.empty.declareAll hd
  exact ⟨st, hs, hs.scope _ (.inl ⟨"main", 0, hm, rfl⟩), rfl⟩

theorem generate_wellFormed (h : generate tree = .ok g) : ∀ i, .inst i ∈ g.code → i.WellFormed := by
  obtain ⟨st, hs, -, hc⟩ := generate_sound h
  intro i hi
  simp only [hc, List.mem_cons, Line.inst.injEq, reduceCtorEq, false_or, List.mem_reverse] at hi
  rcases hi with rfl | rfl | rfl | rfl | hi
  · rfl
  · rfl
  · rfl
  · rfl
  · exact hs.wellFormed i hi

theorem generate_refs (h : generate tree = .ok g) :
    ∀ i, .inst i ∈ g.code → ∀ label ∈ i.refs, .label label ∈ g.code := by
  obtain ⟨st, hs, hm, hc⟩ := generate_sound h
  intro i hi label hl
  simp only [hc, List.mem_cons, Line.inst.injEq, reduceCtorEq, false_or, List.mem_reverse] at hi ⊢
  rcases hi with rfl | rfl | rfl | rfl | hi
  · exact .inl (by simpa [Instruction.immLabel, Instruction.refs] using hl)
  · simp [Instruction.push, Instruction.refs] at hl
  · obtain rfl : label = functionLabel "main" := by simpa [Instruction.jmp, Instruction.refs] using hl
    exact .inr hm
  · simp [Instruction.halt, Instruction.refs] at hl
  · exact .inr (hs.refs i hi label hl)

/-- The last line of a generated program is an instruction. -/
theorem generate_ends (h : generate tree = .ok g) : ∃ p i, g.code = p ++ [.inst i] := by
  obtain ⟨st, hs, -, hc⟩ := generate_sound h
  rw [hc]
  cases hst : st.code with
  | nil => exact ⟨_ :: _ :: _ :: [_], .halt, rfl⟩
  | cons line rest =>
    obtain ⟨i, rfl⟩ := hs.ends line (by rw [hst]; rfl)
    simp only [List.reverse_cons, ← List.cons_append]
    exact ⟨_, i, rfl⟩

/-- The labels of a generated program: two for every function, one for every global variable, and different
numbered ones. -/
theorem generate_labelNames (h : generate tree = .ok g) :
    ∃ numbered : List String, g.code.labelNames.Perm ((functionNames tree).map functionLabel ++
        (functionNames tree).map returnLabel ++ ((globalNames tree).map globalLabel ++ numbered)) ∧
      numbered.Nodup ∧ ∀ label ∈ numbered, initial label ∈ [some 'i', some 'w', some 'c'] := by
  obtain ⟨st, hs, -, hc⟩ := generate_sound h
  obtain ⟨numbered, hperm, hnd, hnum⟩ := hs.labels
  have hrev : (Program.labelNames st.code.reverse).Perm (Program.labelNames st.code) :=
    List.Perm.filterMap _ (List.reverse_perm _)
  have hentry : Numbered st.ids.next (st.ids.next + 1) (numberedLabel "call_ret" st.ids.next) :=
    ⟨"call_ret", by simp [stems], st.ids.next, le_rfl, by omega, rfl⟩
  -- the label of the first call joins the numbered ones
  refine ⟨numberedLabel "call_ret" st.ids.next :: numbered, ?_, ?_, fun label hl => ?_⟩
  · rw [hc]
    have := hrev.trans hperm
    rw [List.perm_iff_count] at this ⊢
    intro label
    have := this label
    simp only [Program.labelNames_inst, Program.labelNames_label, List.count_cons, List.count_append] at this ⊢
    omega
  · exact List.nodup_cons.mpr ⟨fun hl => (hnum _ hl).disjoint hentry, hnd⟩
  · rcases List.mem_cons.mp hl with rfl | hl
    · exact hentry.initial_mem
    · exact (hnum label hl).initial_mem

/-- Two labels of a generated program are the same only if two functions or two global variables have the same
name: every family of labels has its own first letters, and numbers keep the rest apart. -/
theorem generate_nodup_labelNames (h : generate tree = .ok g) :
    g.code.labelNames.Nodup ↔ (functionNames tree).Nodup ∧ (globalNames tree).Nodup := by
  obtain ⟨numbered, hall, hnd, hnum⟩ := generate_labelNames h
  rw [hall.nodup_iff]
  have hf : ∀ l ∈ (functionNames tree).map functionLabel, initial l = some 'f' := by simp
  have hr : ∀ l ∈ (functionNames tree).map returnLabel, initial l = some 'r' := by simp
  have hg : ∀ l ∈ (globalNames tree).map globalLabel, initial l = some 'v' := by simp
  simp only [List.nodup_append, List.nodup_map_iff (fun _ _ => functionLabel_inj),
    List.nodup_map_iff (fun _ _ => returnLabel_inj), List.nodup_map_iff (fun _ _ => globalLabel_inj), hnd]
  constructor
  · rintro ⟨⟨hfn, -⟩, ⟨hgn, -⟩, -⟩
    exact ⟨hfn, hgn⟩
  · rintro ⟨hfn, hgn⟩
    refine ⟨⟨hfn, hfn, ?_⟩, ⟨hgn, trivial, ?_⟩, ?_⟩
    · rintro a ha b hb rfl
      simpa [hf a ha] using hr a hb
    · rintro a ha b hb rfl
      simpa [hg a ha] using hnum a hb
    · rintro a ha b hb rfl
      rcases List.mem_append.mp ha with ha | ha <;> rcases List.mem_append.mp hb with hb | hb
      · simpa [hf a ha] using hg a hb
      · simpa [hf a ha] using hnum a hb
      · simpa [hr a ha] using hg a hb
      · simpa [hr a ha] using hnum a hb

/-- Only a global variable has the label of its record. -/
theorem generate_global_of_label (h : generate tree = .ok g) {name : String} (hl : .label (globalLabel name) ∈ g.code) :
    .global name ∈ tree := by
  obtain ⟨numbered, hall, -, hnum⟩ := generate_labelNames h
  have hmem : globalLabel name ∈ g.code.labelNames := List.mem_filterMap.mpr ⟨_, hl, rfl⟩
  rcases List.mem_append.mp (hall.mem_iff.mp hmem) with hm | hm
  · rcases List.mem_append.mp hm with hm | hm <;> obtain ⟨f, -, hf⟩ := List.mem_map.mp hm
    · simpa using congrArg initial hf
    · simpa using congrArg initial hf
  · rcases List.mem_append.mp hm with hm | hm
    · obtain ⟨x, hx, he⟩ := List.mem_map.mp hm
      obtain ⟨d, hd, hx⟩ := List.mem_filterMap.mp hx
      cases d with
      | func => cases hx
      | global y =>
        cases hx
        rwa [← globalLabel_inj he]
    · simpa using hnum _ hm

private theorem generate_collect (h : generate tree = .ok g) :
    (∃ labels, Labels.collect g.code = .ok labels) ↔
      (functionNames tree).Nodup ∧ (globalNames tree).Nodup ∧ Program.size g.code ≤ 0x10000 := by
  obtain ⟨p, i, hp⟩ := generate_ends h
  have hfits : g.code.FitsFrom 0 ↔ Program.size g.code ≤ 0x10000 := by
    constructor
    · intro hf
      simpa using hf.size_le
    · intro hle
      rw [hp] at hle ⊢
      exact Program.fitsFrom_of_size_le (by simpa using hle)
  simp only [Labels.collect_eq_ok, exists_and_left, exists_eq, and_true, hfits, generate_nodup_labelNames h]
  tauto

theorem generate_encode (h : generate tree = .ok g) {labels : Labels} (hc : Labels.collect g.code = .ok labels) :
    ∃ bytes, g.code.encode labels = .ok bytes := by
  refine Program.exists_encode (generate_wellFormed h) fun i hi label hl => ?_
  obtain ⟨before, after, hp⟩ := List.append_of_mem (generate_refs h i hi label hl)
  have hplaced : Program.Placed g.code (Program.size before) [.label label] :=
    ⟨before, after, by simpa using hp, rfl⟩
  exact ⟨_, Labels.get?_of_placed hc hplaced⟩

end

def BeforeAssembly {α : Type} (x : Except CompileError α) : Prop :=
  ∀ e, x ≠ .error (.assembly e)

namespace BeforeAssembly

variable {α β : Type}

private theorem ok (a : α) : BeforeAssembly (.ok a) := by
  simp [BeforeAssembly]

private theorem bind {x : Except CompileError α} {f : α → Except CompileError β} (hx : BeforeAssembly x)
    (hf : ∀ a, BeforeAssembly (f a)) : BeforeAssembly (x >>= f) := by
  intro e
  cases x with
  | error err =>
    rintro ⟨⟩
    exact hx e rfl
  | ok a => exact hf a e

end BeforeAssembly

section
open BeforeAssembly

private theorem binding_beforeAssembly (scope : Scope) (name : String) (offset : Option Nat) :
    BeforeAssembly (scope.binding name offset) := by
  intro e
  unfold Scope.binding
  split <;> simp

private theorem cell_beforeAssembly (scope : Scope) (name : String) (offset : Option Nat) :
    BeforeAssembly (scope.cell name offset) := by
  refine bind (binding_beforeAssembly scope name offset) fun b e => ?_
  cases b <;> simp [pure, Except.pure, throw, throwThe, MonadExceptOf.throw]

private theorem arity_beforeAssembly (scope : Scope) (name : String) (offset : Option Nat) :
    BeforeAssembly (scope.arity name offset) := by
  refine bind (binding_beforeAssembly scope name offset) fun b e => ?_
  cases b <;> simp [pure, Except.pure, throw, throwThe, MonadExceptOf.throw]

mutual

private theorem compileExpr_beforeAssembly (scope : Scope) :
    (e : Expr) → ∀ ids, BeforeAssembly (compileExpr scope e ids)
  | .int n, ids => by
    rw [compileExpr]
    exact ok _
  | .var name offset, ids => by
    rw [compileExpr]
    exact bind (cell_beforeAssembly scope name _) fun _ => ok _
  | .paren inner, ids => by
    rw [compileExpr]
    exact compileExpr_beforeAssembly scope inner ids
  | .binary left op right, ids => by
    rw [compileExpr]
    exact bind (compileExpr_beforeAssembly scope left ids) fun (_, mid) =>
      bind (compileExpr_beforeAssembly scope right mid) fun _ => ok _
  | .call name args offset, ids => by
    rw [compileExpr]
    refine bind (arity_beforeAssembly scope name _) fun arity => ?_
    split
    · exact bind (compileArgs_beforeAssembly scope args ids) fun _ => ok _
    · rintro e ⟨⟩

private theorem compileArgs_beforeAssembly (scope : Scope) :
    (args : List Expr) → ∀ ids, BeforeAssembly (compileArgs scope args ids)
  | [], ids => by
    rw [compileArgs]
    exact ok _
  | arg :: rest, ids => by
    rw [compileArgs]
    exact bind (compileExpr_beforeAssembly scope arg ids) fun (_, mid) =>
      bind (compileArgs_beforeAssembly scope rest mid) fun _ => ok _

end

private theorem expr_beforeAssembly (st : BodyState) (scope : Scope) (e : Expr) : BeforeAssembly (st.expr scope e) :=
  bind (compileExpr_beforeAssembly scope e st.ids) fun _ => ok _

private theorem addLocal_beforeAssembly (st : BodyState) (function name : String) :
    BeforeAssembly (st.addLocal function name) := by
  intro e
  simp only [BodyState.addLocal]
  split <;> simp

mutual

private theorem compileStmt_beforeAssembly (function : String) :
    (s : Stmt) → ∀ scope st, BeforeAssembly (compileStmt function s scope st)
  | .scope body, scope, st => by
    rw [compileStmt]
    exact bind (compileStmts_beforeAssembly function body [] scope st) fun _ => ok _
  | .var name init offset, scope, st => by
    rw [compileStmt]
    refine bind (addLocal_beforeAssembly st function name) fun (off, mid) => ?_
    cases init with
    | none => exact ok _
    | some value => exact bind (expr_beforeAssembly mid _ value) fun _ => ok _
  | .assign name value offset, scope, st => by
    rw [compileStmt]
    exact bind (cell_beforeAssembly scope name _) fun _ => bind (expr_beforeAssembly st scope value) fun _ => ok _
  | .write addr value, scope, st => by
    rw [compileStmt]
    exact bind (expr_beforeAssembly st scope addr) fun (_, mid) =>
      bind (expr_beforeAssembly mid scope value) fun _ => ok _
  | .ret none, scope, st => by
    rw [compileStmt]
    exact ok _
  | .ret (some value), scope, st => by
    rw [compileStmt]
    exact bind (expr_beforeAssembly st scope value) fun _ => ok _
  | .cond test body, scope, st => by
    rw [compileStmt]
    exact bind (expr_beforeAssembly st scope test) fun _ =>
      bind (compileStmt_beforeAssembly function body scope _) fun _ => ok _
  | .loop test body, scope, st => by
    rw [compileStmt]
    exact bind (expr_beforeAssembly _ scope test) fun _ =>
      bind (compileStmt_beforeAssembly function body scope _) fun _ => ok _
  | .expr value, scope, st => by
    rw [compileStmt]
    exact bind (expr_beforeAssembly st scope value) fun _ => ok _

private theorem compileStmts_beforeAssembly (function : String) :
    (body : List Stmt) → ∀ done scope st, BeforeAssembly (compileStmts function done body scope st)
  | [], done, scope, st => by
    rw [compileStmts]
    exact ok _
  | s :: rest, done, scope, st => by
    rw [compileStmts]
    exact bind (compileStmt_beforeAssembly function s scope st) fun (_, inner, mid) =>
      compileStmts_beforeAssembly function rest _ inner mid

end

private theorem bindParams_beforeAssembly (function : String) (scope : Scope) (params : List String) :
    BeforeAssembly (bindParams function scope params) := by
  induction params generalizing scope with
  | nil => exact ok _
  | cons name rest ih =>
    have hoff : BeforeAssembly (paramOffset function (rest.length + 1)) := by
      intro e
      unfold paramOffset
      cases frameOffset? (-4 - 2 * (rest.length + 1 : Nat)) <;> simp
    rw [bindParams]
    refine BeforeAssembly.bind hoff fun off => ?_
    exact bind (ih (scope.insert name (.slot off))) fun _ => ok _

private theorem declare_beforeAssembly (st : UnitState) (decl : Decl) : BeforeAssembly (st.declare decl) := by
  cases decl with
  | global name => exact ok _
  | func name params body offset =>
    refine bind ?_ fun _ => ok _
    exact bind (bindParams_beforeAssembly name _ params) fun (_, inner) =>
      bind (compileStmts_beforeAssembly name body [] inner _) fun _ => ok _

private theorem declareAll_beforeAssembly (st : UnitState) (tree : Tree) : BeforeAssembly (st.declareAll tree) := by
  induction tree generalizing st with
  | nil => exact ok _
  | cons decl rest ih => exact bind (declare_beforeAssembly st decl) fun mid => ih mid

/-- Code generation itself never gives an error of assembly. -/
theorem generate_beforeAssembly (tree : Tree) : BeforeAssembly (generate tree) := by
  refine bind (declareAll_beforeAssembly {} tree) fun st => bind (arity_beforeAssembly st.scope "main" none) fun n => ?_
  split
  · exact ok _
  · rintro e ⟨⟩

private theorem generateSource_beforeAssembly (g : Source.Grammar) (source : String) :
    BeforeAssembly (generateSource g source) := by
  have hmap : ∀ {ε α : Type} {f : ε → CompileError} {x : Except ε α}, (∀ e e', f e ≠ .assembly e') →
      BeforeAssembly (x.mapError f) := by
    intro ε α f x hf e
    cases x with
    | error err => simpa [Except.mapError] using hf err e
    | ok a => simp [Except.mapError]
  have hlex : BeforeAssembly (tokenize source) := by
    refine bind (hmap ?_) fun _ => hmap ?_ <;> simp
  have hparse : BeforeAssembly (parseSource g source) := bind hlex fun _ => hmap (by simp)
  exact bind hparse generate_beforeAssembly

end

/-- Only a label that is there twice, or too many bytes, stop the first pass of assembly. -/
theorem Labels.collectFrom_error {p : Program} {addr : Nat} {t : Labels} {e : AssemblyError}
    (h : collectFrom addr t p = .error e) :
    (∃ name, e = .redefinedLabel name) ∨ ∃ bytes, e = .programTooLarge bytes := by
  induction p generalizing addr t with
  | nil =>
    simp only [collectFrom] at h
    split at h
    · cases h
    · cases h
      exact .inr ⟨_, rfl⟩
  | cons line p ih =>
    simp only [collectFrom] at h
    split at h
    · cases line with
      | inst i => exact ih h
      | label name =>
        by_cases hn : t.contains name
        · simp only [define, hn, if_true, bind, Except.bind] at h
          cases h
          exact .inl ⟨name, rfl⟩
        · simp only [define, hn, bind, Except.bind] at h
          exact ih h
    · cases h
      exact .inr ⟨_, rfl⟩

/-- Generated code finishes in both formats if its labels can be entered, and otherwise gives their error. -/
theorem Generated.finish_error_iff {tree : Tree} {g : Generated} (h : generate tree = .ok g) (format : Format)
    (e : CompileError) :
    g.finish format = .error e ↔ ∃ err, Labels.collect g.code = .error err ∧ e = .assembly err := by
  unfold Generated.finish
  cases hc : Labels.collect g.code with
  | error err => simp [bind, Except.bind, Except.mapError, eq_comm]
  | ok labels =>
    obtain ⟨bytes, hb⟩ := generate_encode h hc
    cases format <;> simp [bind, Except.bind, Except.mapError, hb, pure, Except.pure]

private theorem compileWith_error_iff (g : Source.Grammar) (format : Format) (source : String) (e : CompileError) :
    compileWith g format source = .error e ↔
      generateSource g source = .error e ∨ ∃ generated err, generateSource g source = .ok generated ∧
        Labels.collect generated.code = .error err ∧ e = .assembly err := by
  unfold compileWith
  cases hg : generateSource g source with
  | error err => simp [bind, Except.bind]
  | ok generated =>
    obtain ⟨tree, -, ht⟩ := bind_eq_ok.mp hg
    simpa [bind, Except.bind] using Generated.finish_error_iff ht format e

/-- Generated code is well-formed and refers only to its own labels. It assembles unless a name is declared twice
or it takes more than the address space, so a listing is made exactly of the sources that give an image, and
errors of assembly are never about a missing label or the length of an instruction. -/
theorem generated_code_assembles :
    (∀ (tree : Tree) (g : Generated), generate tree = .ok g →
      (∀ i, .inst i ∈ g.code → i.WellFormed) ∧
      (∀ i, .inst i ∈ g.code → ∀ label, .ref label ∈ i.args → .label label ∈ g.code) ∧
      (∀ labels, Labels.collect g.code = .ok labels → ∃ bytes, g.code.encode labels = .ok bytes) ∧
      ((∃ labels, Labels.collect g.code = .ok labels) ↔
        (functionNames tree).Nodup ∧ (globalNames tree).Nodup ∧ g.code.size ≤ 65536)) ∧
    (∀ source, ((∃ c, compile .binary source = .ok c) ↔ ∃ c, compile .text source = .ok c) ∧
      ∀ e, compile .binary source = .error e ↔ compile .text source = .error e) ∧
    ∀ format source, (∀ name, compile format source ≠ .error (.assembly (.undefinedLabel name))) ∧
      ∀ i n, compile format source ≠ .error (.assembly (.lengthMismatch i n)) := by
  have herr : ∀ source e, compile .binary source = .error e ↔ compile .text source = .error e := by
    intro source e
    rw [compile, compile, compileWith_error_iff, compileWith_error_iff]
  refine ⟨fun tree g h => ⟨generate_wellFormed h, fun i hi label hl => ?_, fun labels => generate_encode h,
    generate_collect h⟩, fun source => ⟨?_, herr source⟩, fun format source => ?_⟩
  · exact generate_refs h i hi label (List.mem_filterMap.mpr ⟨.ref label, hl, rfl⟩)
  · have := herr source
    cases hb : compile .binary source <;> cases ht : compile .text source <;> simp_all
  · have hkind : ∀ err, compile format source = .error (.assembly err) →
        (∃ name, err = .redefinedLabel name) ∨ ∃ bytes, err = .programTooLarge bytes := by
      intro err he
      rcases (compileWith_error_iff ..).mp he with he | ⟨g, err', -, hc, he⟩
      · exact absurd he (generateSource_beforeAssembly .standard source err)
      · cases he
        exact Labels.collectFrom_error hc
    exact ⟨fun name he => by simpa using hkind _ he, fun i n he => by simpa using hkind _ he⟩

theorem generated_code_assembles_main_and_global :
    ∃ g, generate [.global "a", .func "main" [] [.assign "a" (.int 7) 0] 0] = .ok g ∧
      ∃ labels bytes, Labels.collect g.code = .ok labels ∧ g.code.encode labels = .ok bytes := by
  refine ⟨_, rfl, ?_⟩
  obtain ⟨-, -, hencode, hcollect⟩ :=
    generated_code_assembles.1 [.global "a", .func "main" [] [.assign "a" (.int 7) 0] 0] _ rfl
  obtain ⟨labels, hl⟩ := hcollect.mpr ⟨by decide, by decide, by decide⟩
  obtain ⟨bytes, hb⟩ := hencode labels hl
  exact ⟨labels, bytes, hl, hb⟩

end StackToolchain
