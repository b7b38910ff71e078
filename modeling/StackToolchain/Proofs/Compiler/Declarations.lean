import StackToolchain.Proofs.Compiler.Naming

/-! The code of declarations.
When a source has been compiled, the code of every function stands in the program, compiled in a scope that
agrees with the names of the function, and so does the record of every global variable. -/
namespace StackToolchain

open Source

/-- A declared name stands for a function of that name or for a global variable of that name. -/
theorem declared_cases {tree : Tree} {k : Nat} {x : String} {r : Referent} (h : declared tree k x = some r) :
    (∃ i ps body o, tree[i]? = some (.func x ps body o) ∧ r = .function i) ∨ .global x ∈ tree ∧ r = .global x := by
  induction k with
  | zero => cases h
  | succ k ih =>
    cases hk : tree[k]? with
    | none => exact ih (by simpa [declared, hk] using h)
    | some decl =>
      cases decl <;> simp only [declared, hk, rebind] at h <;> split at h
      · rename_i hx
        cases h
        exact .inl ⟨k, _, _, _, hx ▸ hk, rfl⟩
      · exact ih h
      · rename_i hx
        cases h
        exact .inr ⟨hx ▸ List.mem_of_getElem? hk, by rw [hx]⟩
      · exact ih h

/-- Before a body there are no variables, so the bindings do not depend on the number of parameters. -/
theorem agrees_declared {tree : Tree} {k : Nat} {scope : Scope}
    (h : ∀ x, scope.get? x = (declared tree k x).map (Referent.binding tree 0)) (params : Nat) :
    Agrees tree params ⟨declared tree k, 0⟩ scope := by
  refine ⟨fun x => ?_, fun x v hv => ?_, fun x i hi => ?_, fun x g hg => ?_⟩
  · rw [h]
    refine Option.map_congr fun r hr => ?_
    rcases declared_cases hr with ⟨i, _, _, _, -, rfl⟩ | ⟨-, rfl⟩ <;> rfl
  · rcases declared_cases hv with ⟨_, _, _, _, -, hr⟩ | ⟨-, hr⟩ <;> cases hr
  · rcases declared_cases hi with ⟨_, ps, body, o, ht, hr⟩ | ⟨-, hr⟩ <;> cases hr
    exact ⟨ps, body, o, ht⟩
  · rcases declared_cases hg with ⟨_, _, _, _, -, hr⟩ | ⟨ht, hr⟩ <;> cases hr
    exact ht

/-- The parameters that are left get their places below the frame. -/
theorem bindParams_agrees {tree : Tree} {n i : Nat} {find : String → Option Referent} {function : String}
    {params : List String} {scope inner : Scope} {slots : List FrameSlot} (ha : Agrees tree n ⟨find, 0⟩ scope)
    (hn : i + params.length = n) (h : bindParams function scope params = .ok (slots, inner)) :
    Agrees tree n ⟨bindFrom i params find, 0⟩ inner := by
  induction params generalizing i find scope slots with
  | nil =>
    obtain ⟨-, rfl⟩ := bindParams_nil.mp h
    exact ha
  | cons name rest ih =>
    obtain ⟨off, others, ho, hr, -⟩ := bindParams_cons.mp h
    obtain ⟨hrange, rfl⟩ := frameOffset?_eq_some.mp ho
    simp only [List.length_cons] at hn
    have hoff : (-4 - 2 * ((rest.length + 1 : Nat) : Int)) = LocalVar.offset n (.param i) := by
      rw [LocalVar.offset, show n - i = rest.length + 1 by omega]
    rw [hoff] at hr hrange
    have hw : (LocalVar.param i).Within n 0 := ⟨show i < n by omega, hrange⟩
    exact ih (ha.rebind le_rfl name hw) (by omega) hr

/-- Signed bytes reach the first parameter. -/
theorem bindParams_length {function : String} {params : List String} {scope inner : Scope} {slots : List FrameSlot}
    (h : bindParams function scope params = .ok (slots, inner)) : params.length ≤ 62 := by
  cases params with
  | nil => simp
  | cons name rest =>
    obtain ⟨off, others, ho, -, -⟩ := bindParams_cons.mp h
    obtain ⟨hrange, -⟩ := frameOffset?_eq_some.mp ho
    simp only [List.length_cons]
    omega

/-- The state in which the body of a function is compiled: after the declarations before it, with its own name and
its parameters bound. -/
def EntersBody (tree : Tree) (index : Nat) (name : String) (params : List String) (scope : Scope)
    (ids : LabelSupply) : Prop :=
  ∃ st args, UnitState.declareAll {} (tree.take index) = .ok st ∧ ids = st.ids ∧
    bindParams name (st.scope.insert name (.function params.length)) params = .ok (args, scope)

structure FunctionCode (tree : Tree) (code : Program) (index : Nat) (name : String) (params : List String)
    (body : List Stmt) (a : Nat) (scope : Scope) (ids : LabelSupply) (c : Program) (last : BodyState) : Prop where
  enters : EntersBody tree index name params scope ids
  agrees : Agrees tree params.length (.enter tree index params) scope
  reach : params.length ≤ 62
  compiled : compileStmts name [] body scope ⟨ids, {}, []⟩ = .ok (c, last)
  placed : code.Placed a (prologue name last.slots.size ++ (c ++ epilogue name))

theorem FunctionCode.counts {tree : Tree} {code c : Program} {index a : Nat} {name : String} {params : List String}
    {body : List Stmt} {scope : Scope} {ids : LabelSupply} {last : BodyState}
    (h : FunctionCode tree code index name params body a scope ids c last) :
    last.Counts ((Names.enter tree index params).afterAll body) :=
  (compileStmts_counts body h.agrees ⟨rfl, Nat.zero_le _⟩ h.compiled).1

structure UnitState.Lays (tree : Tree) (k : Nat) (st : UnitState) : Prop where
  reached : UnitState.declareAll {} (tree.take k) = .ok st
  scope : ∀ x, st.scope.get? x = (declared tree k x).map (Referent.binding tree 0)
  functions : ∀ i < k, ∀ {name params body o}, tree[i]? = some (.func name params body o) →
    ∃ a scope ids c last, FunctionCode tree st.code.reverse i name params body a scope ids c last
  globals : ∀ i < k, ∀ {name}, tree[i]? = some (.global name) →
    ∃ a, Program.Placed st.code.reverse a [.label (globalLabel name), .inst (.word 0)]

private theorem Program.Placed.append {p part : Program} {a : Nat} (h : p.Placed a part) (q : Program) :
    Program.Placed (p ++ q) a part := by
  obtain ⟨before, after, rfl, rfl⟩ := h
  exact ⟨before, after ++ q, by simp, rfl⟩

theorem declareAll_append (st : UnitState) (front rest : List Decl) :
    st.declareAll (front ++ rest) = (st.declareAll front >>= fun mid => mid.declareAll rest) := by
  induction front generalizing st with
  | nil => rfl
  | cons decl front ih =>
    rw [List.cons_append, UnitState.declareAll, UnitState.declareAll, bind_assoc]
    exact congrArg (st.declare decl >>= ·) (funext ih)

theorem Program.placed_suffix (p q : Program) : Program.Placed (p ++ q) (Program.size p) q :=
  ⟨p, [], by rw [List.append_nil], rfl⟩

namespace UnitState.Lays

variable {tree : Tree} {k : Nat} {st st' : UnitState}

theorem reach_succ {decl : Decl} (hs : UnitState.declareAll {} (tree.take k) = .ok st) (hk : tree[k]? = some decl)
    (h : st.declare decl = .ok st') : UnitState.declareAll {} (tree.take (k + 1)) = .ok st' := by
  rw [List.take_add_one, hk, Option.toList_some, declareAll_append, bind_eq_ok]
  exact ⟨st, hs, declareAll_cons.mpr ⟨st', h, rfl⟩⟩

theorem empty (tree : Tree) : UnitState.Lays tree 0 {} where
  reached := rfl
  scope _ := rfl
  functions i hi := absurd hi (Nat.not_lt_zero i)
  globals i hi := absurd hi (Nat.not_lt_zero i)

/-- A function is bound to its declaration before its body is compiled. -/
theorem scope_func {name : String} {params : List String} {body : List Stmt} {o : Nat} (hs : Lays tree k st)
    (hk : tree[k]? = some (.func name params body o)) (x : String) :
    Table.get? (st.scope.insert name (.function params.length)) x =
      (declared tree (k + 1) x).map (Referent.binding tree 0) := by
  rw [Table.get?_insert]
  simp only [declared, hk, rebind]
  split
  · simp [Referent.binding, arity, hk]
  · exact hs.scope x

theorem func {name : String} {params : List String} {body : List Stmt} {o : Nat} (hs : Lays tree k st)
    (hk : tree[k]? = some (.func name params body o)) (h : st.declare (.func name params body o) = .ok st') :
    Lays tree (k + 1) st' := by
  have hreached := reach_succ hs.reached hk h
  have hscope := hs.scope_func hk
  obtain ⟨code, frame, ids, hf, rfl⟩ := declare_func_eq_ok.mp h
  obtain ⟨args, inner, c, last, hp, hb, rfl, -, -⟩ := compileFunction_eq_ok.mp hf
  have hrev : ∀ code : Program, (code.reverse ++ st.code).reverse = st.code.reverse ++ code := by simp
  refine ⟨hreached, hscope, fun i hi name' params' body' o' ht => ?_, fun i hi name' ht => ?_⟩
  · simp only [hrev]
    rcases Nat.lt_succ_iff_lt_or_eq.mp hi with hi | rfl
    · obtain ⟨a, sc, ids', c', last', hc⟩ := hs.functions i hi ht
      exact ⟨a, sc, ids', c', last', hc.enters, hc.agrees, hc.reach, hc.compiled, hc.placed.append _⟩
    · rw [hk] at ht
      cases ht
      exact ⟨_, inner, st.ids, c, last, ⟨st, args, hs.reached, rfl, hp⟩,
        bindParams_agrees (agrees_declared hscope _) (Nat.zero_add _) hp, bindParams_length hp, hb,
        ⟨st.code.reverse, [], by simp, rfl⟩⟩
  · simp only [hrev]
    rcases Nat.lt_succ_iff_lt_or_eq.mp hi with hi | rfl
    · obtain ⟨a, hc⟩ := hs.globals i hi ht
      exact ⟨a, hc.append _⟩
    · rw [hk] at ht
      cases ht

theorem global {name : String} (hs : Lays tree k st) (hk : tree[k]? = some (.global name))
    (h : st.declare (.global name) = .ok st') : Lays tree (k + 1) st' := by
  have hreached := reach_succ hs.reached hk h
  cases h
  have hrev : (Line.inst (.word 0) :: .label (globalLabel name) :: st.code).reverse =
      st.code.reverse ++ [.label (globalLabel name), .inst (.word 0)] := by simp
  refine ⟨hreached, fun x => ?_, fun i hi name' params' body' o' ht => ?_, fun i hi name' ht => ?_⟩
  · rw [Table.get?_insert]
    simp only [declared, hk, rebind]
    split
    · rfl
    · exact hs.scope x
  · simp only [hrev]
    rcases Nat.lt_succ_iff_lt_or_eq.mp hi with hi | rfl
    · obtain ⟨a, sc, ids', c', last', hc⟩ := hs.functions i hi ht
      exact ⟨a, sc, ids', c', last', hc.enters, hc.agrees, hc.reach, hc.compiled, hc.placed.append _⟩
    · rw [hk] at ht
      cases ht
  · simp only [hrev]
    rcases Nat.lt_succ_iff_lt_or_eq.mp hi with hi | rfl
    · obtain ⟨a, hc⟩ := hs.globals i hi ht
      exact ⟨a, hc.append _⟩
    · rw [hk] at ht
      cases ht
      exact ⟨_, st.code.reverse, [], by simp, rfl⟩

private theorem declareAll {rest : List Decl} (hs : Lays tree k st) (hk : k ≤ tree.length) (hr : tree.drop k = rest)
    (h : st.declareAll rest = .ok st') : Lays tree tree.length st' := by
  induction rest generalizing k st with
  | nil =>
    cases h
    obtain rfl : k = tree.length := hk.antisymm (List.drop_eq_nil_iff.mp hr)
    exact hs
  | cons decl rest ih =>
    obtain ⟨mid, hd, hrest⟩ := declareAll_cons.mp h
    have hat : tree[k]? = some decl := by
      have := congrArg List.head? hr
      simpa using this
    have hlt : k < tree.length := (List.getElem?_eq_some_iff.mp hat).1
    have hm : Lays tree (k + 1) mid := by
      cases decl with
      | func name params body o => exact hs.func hat hd
      | global name => exact hs.global hat hd
    refine ih hm hlt ?_ hrest
    rw [← List.drop_drop, hr]
    rfl

end UnitState.Lays

section
variable {tree : Tree} {g : Generated}

/-- A generated program begins with a call of `main`, a function without parameters, and a stop. The code of the
declarations follows. -/
theorem generate_lays (h : generate tree = .ok g) :
    ∃ st i body o, UnitState.Lays tree tree.length st ∧ declared tree tree.length "main" = some (.function i) ∧
      tree[i]? = some (.func "main" [] body o) ∧
        g.code = (callCode "main" [] st.ids).1 ++ [.inst .halt] ++ st.code.reverse := by
  obtain ⟨st, hd, hm, rfl⟩ := generate_eq_ok.mp h
  have hs := (UnitState.Lays.empty tree).declareAll (Nat.zero_le _) rfl hd
  obtain ⟨i, ps, body, o, hi, ht, hps⟩ :=
    (agrees_declared hs.scope 0).of_arity (show st.scope.arity "main" none = .ok 0 from Scope.arity_eq_ok.mpr hm)
  obtain rfl := List.length_eq_zero_iff.mp hps
  exact ⟨st, i, body, o, hs, hi, ht, by simp⟩

theorem generate_function (h : generate tree = .ok g) {i : Nat} {name : String} {params : List String}
    {body : List Stmt} {o : Nat} (hi : tree[i]? = some (.func name params body o)) :
    ∃ a scope ids c last, FunctionCode tree g.code i name params body a scope ids c last := by
  obtain ⟨st, -, -, -, hs, -, -, hc⟩ := generate_lays h
  obtain ⟨a, sc, ids, c, last, hf⟩ := hs.functions i (List.getElem?_eq_some_iff.mp hi).1 hi
  rw [hc]
  exact ⟨_, sc, ids, c, last, hf.enters, hf.agrees, hf.reach, hf.compiled, (Program.placed_suffix _ _).trans hf.placed⟩

theorem generate_global (h : generate tree = .ok g) {name : String} (hg : .global name ∈ tree) :
    ∃ a, g.code.Placed a [.label (globalLabel name), .inst (.word 0)] := by
  obtain ⟨st, -, -, -, hs, -, -, hc⟩ := generate_lays h
  obtain ⟨i, hi, hget⟩ := List.getElem_of_mem hg
  obtain ⟨a, hp⟩ := hs.globals i hi (List.getElem?_eq_some_iff.mpr ⟨hi, hget⟩)
  rw [hc]
  exact ⟨_, (Program.placed_suffix _ _).trans hp⟩

end

end StackToolchain
