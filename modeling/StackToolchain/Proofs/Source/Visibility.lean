import StackToolchain.Proofs.Source.Evaluation
import StackToolchain.Proofs.Source.Marks
import StackToolchain.Proofs.Source.Names

/-! Which declaration a name means, by the text alone.
A declaration is in sight of what follows it until the block that it stands in is closed. A name means the last
declaration of it in sight, then a parameter, then a declaration of the source. Walking through the statements and
rebinding names finds the same declaration. -/
namespace StackToolchain.Source

/-- The declaration at a place of the text before a use is one of a name, and the block that it stands in has not
been closed since. -/
def InSight (before : List Mark) (name : String) (d : Nat) : Prop :=
  before[d]? = some (.declares name) ∧ (blocksOpen 0 (before.drop (d + 1))).isSome

section
variable {before more : List Mark} {name : String} {d : Nat}

private theorem InSight.lt (h : InSight before name d) : d < before.length :=
  (List.getElem?_eq_some_iff.mp h.1).1

private theorem inSight_append_left (hmore : ∀ n, (blocksOpen n more).isSome) (hd : d < before.length) :
    InSight (before ++ more) name d ↔ InSight before name d := by
  rw [InSight, InSight, List.getElem?_append_left hd, List.drop_append_of_le_length (by omega), blocksOpen_append]
  cases h : blocksOpen 0 (before.drop (d + 1)) with
  | none => simp
  | some n => simp [hmore n]

private theorem inSight_append_right : InSight (before ++ more) name (before.length + d) ↔ InSight more name d := by
  rw [InSight, InSight, List.getElem?_append_right (by omega), Nat.add_sub_cancel_left, Nat.add_assoc,
    List.drop_length_add_append]

end

/-- Text that leaves open what is open, and after which none of its declarations is in sight. -/
structure Passed (marks : List Mark) : Prop where
  stays : ∀ n, (blocksOpen n marks).isSome
  hides : ∀ name d, ¬ InSight marks name d

private theorem Passed.inSight_append {before marks : List Mark} (h : Passed marks) {name : String} {d : Nat} :
    InSight (before ++ marks) name d ↔ InSight before name d := by
  rcases Nat.lt_or_ge d before.length with hd | hd
  · exact inSight_append_left h.stays hd
  · obtain ⟨k, rfl⟩ := Nat.exists_eq_add_of_le hd
    rw [inSight_append_right]
    exact iff_of_false (h.hides name k) fun hlt => absurd hlt.lt (by omega)

private theorem Passed.uses {marks : List Mark} (h : ∀ mark ∈ marks, mark.isUse = true) : Passed marks := by
  refine ⟨fun n => by rw [blocksOpen_uses h]; rfl, fun name d hd => ?_⟩
  cases h _ (List.mem_of_getElem? hd.1)

private theorem Passed.opening : Passed [.opening] := by
  refine ⟨fun n => by simp [blocksOpen], fun name d hd => ?_⟩
  cases List.mem_singleton.mp (List.mem_of_getElem? hd.1)

/-- The declarations of a block are out of sight when it is closed. -/
theorem Passed.block (body : List Stmt) : Passed (.opening :: (Stmt.allMarks body ++ [.closing])) := by
  have hbody := Stmt.blocksOpen_allMarks body
  refine ⟨fun n => ?_, fun name d hd => ?_⟩
  · rw [blocksOpen, blocksOpen_append, hbody]
    simp [blocksOpen]
  · obtain ⟨hat, hopen⟩ := hd
    cases d with
    | zero => cases hat
    | succ d =>
      rw [List.getElem?_cons_succ] at hat
      rw [List.drop_succ_cons] at hopen
      have hlt : d < (Stmt.allMarks body).length := by
        by_contra hge
        rw [List.getElem?_append_right (by omega)] at hat
        cases List.mem_singleton.mp (List.mem_of_getElem? hat)
      rw [List.drop_append_of_le_length (by omega), blocksOpen_append] at hopen
      -- the rest of the body would leave a block open, but front and rest together leave none
      cases hrest : blocksOpen 0 ((Stmt.allMarks body).drop (d + 1)) with
      | none => simp [hrest] at hopen
      | some k =>
        have hall := hbody 0
        rw [← List.take_append_drop (d + 1) (Stmt.allMarks body), blocksOpen_append] at hall
        obtain ⟨j, hj, hk⟩ := Option.bind_eq_some_iff.mp hall
        have := blocksOpen_add hrest j
        rw [Nat.zero_add, hk] at this
        obtain rfl : k = 0 := by
          have := Option.some.inj this
          omega
        simp [hrest, blocksOpen] at hopen

def Mark.isDeclaration : Mark → Bool
  | .declares _ => true
  | _ => false

def varCount (marks : List Mark) : Nat :=
  marks.countP Mark.isDeclaration

theorem varCount_append (front rest : List Mark) : varCount (front ++ rest) = varCount front + varCount rest :=
  List.countP_append

private theorem varCount_uses {marks : List Mark} (h : ∀ mark ∈ marks, mark.isUse = true) : varCount marks = 0 := by
  refine List.countP_eq_zero.mpr fun mark hmark => ?_
  have := h mark hmark
  cases mark <;> cases this
  simp [Mark.isDeclaration]

inductive Declaration where
  | var (k : Nat)
  | param (i : Nat)
  | top (j : Nat)
  deriving DecidableEq, Repr

structure Site where
  tree : Tree
  index : Nat
  params : List String

def DeclaresAt (tree : Tree) (name : String) (j : Nat) : Prop :=
  ∃ decl, tree[j]? = some decl ∧ decl.name = name

/-- What a name means after a text of a function: the last declaration of it that is in sight, else the last
parameter of this name, else the last declaration of it in the source up to the function. -/
inductive Site.Sees (site : Site) (before : List Mark) (name : String) : Declaration → Prop
  | var {d} : IsGreatest {d | InSight before name d} d → Sees site before name (.var (varCount (before.take d)))
  | param {i} : (∀ d, ¬ InSight before name d) → IsGreatest {i | site.params[i]? = some name} i →
      Sees site before name (.param i)
  | top {j} : (∀ d, ¬ InSight before name d) → name ∉ site.params →
      IsGreatest {j | j ≤ site.index ∧ DeclaresAt site.tree name j} j → Sees site before name (.top j)

private theorem exists_isGreatest_or {P : Nat → Prop} {n : Nat} (h : ∀ d, P d → d < n) :
    (∃ d, IsGreatest {d | P d} d) ∨ ∀ d, ¬ P d := by
  by_cases hne : ∃ d, P d
  · exact .inl (BddAbove.exists_isGreatest_of_nonempty ⟨n, fun d hd => (h d hd).le⟩ hne)
  · exact .inr (not_exists.mp hne)

def Declaration.referent (tree : Tree) : Declaration → Referent
  | .var k => .own (.var k)
  | .param i => .own (.param i)
  | .top j =>
    match tree[j]? with
    | some (.global name) => .global name
    | _ => .function j

section
variable {tree : Tree} {name : String}

private theorem declared_succ_of_declaresAt {k : Nat} (h : DeclaresAt tree name k) :
    declared tree (k + 1) name = some ((Declaration.top k).referent tree) := by
  obtain ⟨decl, hk, rfl⟩ := h
  cases decl <;> simp [declared, hk, rebind, Declaration.referent, Decl.name]

private theorem declared_succ_of_not {k : Nat} (h : ¬ DeclaresAt tree name k) :
    declared tree (k + 1) name = declared tree k name := by
  cases hk : tree[k]? with
  | none => simp [declared, hk]
  | some decl =>
    have hne : name ≠ decl.name := fun he => h ⟨decl, hk, he.symm⟩
    cases decl <;> simp [declared, hk, rebind] <;> exact fun he => absurd he hne

private theorem declared_of_isGreatest {k j : Nat} (h : IsGreatest {j | j < k ∧ DeclaresAt tree name j} j) :
    declared tree k name = some ((Declaration.top j).referent tree) := by
  induction k with
  | zero => exact absurd h.1.1 (Nat.not_lt_zero j)
  | succ k ih =>
    by_cases hk : DeclaresAt tree name k
    · have hle : k ≤ j := h.2 ⟨Nat.lt_succ_self k, hk⟩
      obtain rfl : j = k := by
        have := h.1.1
        omega
      exact declared_succ_of_declaresAt hk
    · rw [declared_succ_of_not hk]
      refine ih ⟨⟨?_, h.1.2⟩, fun i hi => h.2 ⟨hi.1.trans (Nat.lt_succ_self k), hi.2⟩⟩
      refine Nat.lt_of_le_of_ne (Nat.lt_succ_iff.mp h.1.1) ?_
      rintro rfl
      exact hk h.1.2

private theorem declared_of_forall_not {k : Nat} (h : ∀ j < k, ¬ DeclaresAt tree name j) :
    declared tree k name = none := by
  induction k with
  | zero => rfl
  | succ k ih =>
    rw [declared_succ_of_not (h k (Nat.lt_succ_self k))]
    exact ih fun j hj => h j (hj.trans (Nat.lt_succ_self k))

private theorem DeclaresAt.lt {j : Nat} (h : DeclaresAt tree name j) : j < tree.length := by
  obtain ⟨decl, hj, -⟩ := h
  exact (List.getElem?_eq_some_iff.mp hj).1

/-- A name that stands for a function after the whole source is declared last by it. -/
theorem declared_eq_function_iff {i : Nat} : declared tree tree.length name = some (.function i) ↔
    IsGreatest {j | DeclaresAt tree name j} i ∧ ∃ f params body o, tree[i]? = some (.func f params body o) := by
  have hall : {j | j < tree.length ∧ DeclaresAt tree name j} = {j | DeclaresAt tree name j} :=
    Set.ext fun j => and_iff_right_of_imp DeclaresAt.lt
  constructor
  · intro h
    rcases exists_isGreatest_or (fun j (hj : DeclaresAt tree name j) => hj.lt) with ⟨j, hj⟩ | hnone
    · rw [declared_of_isGreatest (hall ▸ hj), Declaration.referent] at h
      obtain ⟨decl, hat, -⟩ := hj.1
      cases decl with
      | func f params body o =>
        rw [hat] at h
        cases h
        exact ⟨hj, f, params, body, o, hat⟩
      | global g =>
        rw [hat] at h
        cases h
    · rw [declared_of_forall_not fun j _ => hnone j] at h
      cases h
  · rintro ⟨hi, f, params, body, o, hat⟩
    rw [declared_of_isGreatest (hall ▸ hi), Declaration.referent, hat]

private theorem bindFrom_of_not_mem {params : List String} (h : name ∉ params) (start : Nat)
    (find : String → Option Referent) : bindFrom start params find name = find name := by
  induction params generalizing start find with
  | nil => rfl
  | cons param params ih =>
    rw [List.mem_cons, not_or] at h
    rw [bindFrom, ih h.2, rebind, if_neg h.1]

private theorem bindFrom_of_isGreatest {params : List String} {i : Nat} (h : IsGreatest {i | params[i]? = some name} i)
    (start : Nat) (find : String → Option Referent) :
    bindFrom start params find name = some (.own (.param (start + i))) := by
  induction params generalizing start find i with
  | nil => cases h.1
  | cons param params ih =>
    cases i with
    | zero =>
      have hparam : param = name := Option.some.inj h.1
      have hlast : name ∉ params := by
        intro hmem
        obtain ⟨j, hj, hget⟩ := List.getElem_of_mem hmem
        have : j + 1 ≤ 0 := h.2 (show (param :: params)[j + 1]? = some name by simp [hj, hget])
        omega
      rw [bindFrom, bindFrom_of_not_mem hlast, rebind, if_pos hparam.symm]
      rfl
    | succ i =>
      have hrest : IsGreatest {i | params[i]? = some name} i :=
        ⟨h.1, fun j hj => Nat.le_of_succ_le_succ (h.2 (show (param :: params)[j + 1]? = some name from hj))⟩
      rw [bindFrom, ih hrest, Nat.add_assoc, Nat.add_comm 1]

end

/-- The names after a text that was entered with others: variables in sight are bound to their statements, and the
others as before. -/
structure Tracks (enter : Names) (before : List Mark) (names : Names) : Prop where
  vars : names.vars = enter.vars + varCount before
  seen : ∀ {name d}, IsGreatest {d | InSight before name d} d →
    names.find name = some (.own (.var (enter.vars + varCount (before.take d))))
  unseen : ∀ {name}, (∀ d, ¬ InSight before name d) → names.find name = enter.find name

namespace Tracks

variable {enter names : Names} {before : List Mark}

theorem start (enter : Names) : Tracks enter [] enter := by
  refine ⟨rfl, fun h => ?_, fun _ => rfl⟩
  exact absurd h.1.lt (Nat.not_lt_zero _)

private theorem pass (h : Tracks enter before names) {marks : List Mark} (hp : Passed marks) :
    Tracks enter (before ++ marks) ⟨names.find, names.vars + varCount marks⟩ := by
  refine ⟨?_, fun {name d} hd => ?_, fun {name} hno => ?_⟩
  · rw [h.vars, varCount_append, Nat.add_assoc]
  · simp only [hp.inSight_append] at hd
    rw [List.take_append_of_le_length hd.1.lt.le]
    exact h.seen hd
  · exact h.unseen fun d hd => hno d (hp.inSight_append.mpr hd)

theorem uses (h : Tracks enter before names) {marks : List Mark} (hu : ∀ mark ∈ marks, mark.isUse = true) :
    Tracks enter (before ++ marks) names := by
  simpa [varCount_uses hu] using h.pass (.uses hu)

theorem opening (h : Tracks enter before names) : Tracks enter (before ++ [.opening]) names :=
  h.pass .opening

private theorem inSight_declares {name other : String} {d : Nat} :
    InSight (before ++ [.declares other]) name d ↔ InSight before name d ∨ d = before.length ∧ name = other := by
  rcases Nat.lt_or_ge d before.length with hd | hd
  · rw [inSight_append_left (fun n => by simp [blocksOpen]) hd]
    exact (or_iff_left fun h => absurd h.1 hd.ne).symm
  · obtain ⟨k, rfl⟩ := Nat.exists_eq_add_of_le hd
    rw [inSight_append_right, or_iff_right fun h => absurd h.lt (by omega)]
    cases k <;> simp [InSight, blocksOpen, eq_comm]

/-- A declared name is bound to the next variable. -/
theorem declares (h : Tracks enter before names) (name : String) :
    Tracks enter (before ++ [.declares name]) ⟨rebind names.find name (.own (.var names.vars)), names.vars + 1⟩ := by
  refine ⟨?_, fun {x d} hd => ?_, fun {x} hno => ?_⟩
  · rw [h.vars, varCount_append]
    rfl
  · simp only [inSight_declares] at hd
    by_cases hx : x = name
    · have hle : before.length ≤ d := hd.2 (.inr ⟨rfl, hx⟩)
      obtain rfl : d = before.length := by
        rcases hd.1 with hin | ⟨heq, -⟩
        · exact absurd hin.lt (by omega)
        · exact heq
      simp only [List.take_left, ← h.vars, rebind, if_pos hx]
    · simp only [hx, and_false, or_false] at hd
      simp only [List.take_append_of_le_length hd.1.lt.le, rebind, if_neg hx]
      exact h.seen hd
  · simp only [inSight_declares, not_or] at hno
    have hx : x ≠ name := fun hx => (hno before.length).2 ⟨rfl, hx⟩
    simp only [rebind, if_neg hx]
    exact h.unseen fun d => (hno d).1

end Tracks

mutual

theorem Names.vars_after (names : Names) : (s : Stmt) → (names.after s).vars = names.vars + varCount s.marks
  | .scope body => by
    rw [Names.after, Names.vars_afterAll names body, Stmt.marks, ← List.singleton_append, varCount_append,
      varCount_append]
    simp [varCount, Mark.isDeclaration]
  | .var name init offset => by
    rw [Names.after, Stmt.marks, ← List.singleton_append, varCount_append, varCount_uses (isUse_optionMarks init)]
    rfl
  | .assign name value offset => by
    rw [Names.after, Stmt.marks, ← List.singleton_append, varCount_append, varCount_uses value.isUse_marks]
    rfl
  | .write addr value => by
    rw [Names.after, Stmt.marks, varCount_append, varCount_uses addr.isUse_marks, varCount_uses value.isUse_marks]
    rfl
  | .ret value => by rw [Names.after, Stmt.marks, varCount_uses (isUse_optionMarks value), Nat.add_zero]
  | .cond test body => by
    rw [Names.after, Names.vars_after names body, Stmt.marks, varCount_append, varCount_uses test.isUse_marks,
      Nat.zero_add]
  | .loop test body => by
    rw [Names.after, Names.vars_after names body, Stmt.marks, varCount_append, varCount_uses test.isUse_marks,
      Nat.zero_add]
  | .expr value => by rw [Names.after, Stmt.marks, varCount_uses value.isUse_marks, Nat.add_zero]

theorem Names.vars_afterAll (names : Names) : (body : List Stmt) →
    (names.afterAll body).vars = names.vars + varCount (Stmt.allMarks body)
  | [] => rfl
  | s :: rest => by
    rw [Names.afterAll, Names.vars_afterAll (names.after s) rest, Names.vars_after names s, Stmt.allMarks,
      varCount_append, Nat.add_assoc]

end

/-- Walking through a statement keeps to what the text says. -/
theorem Tracks.after {enter names : Names} {before : List Mark} (h : Tracks enter before names) :
    (s : Stmt) → Tracks enter (before ++ s.marks) (names.after s)
  | .scope body => by
    have hvars := names.vars_after (.scope body)
    have := h.pass (.block body)
    rwa [← Stmt.marks, ← hvars] at this
  | .var name init offset => by
    rw [Stmt.marks, List.append_cons]
    exact (h.declares name).uses (isUse_optionMarks init)
  | .assign name value offset => h.uses (List.forall_mem_cons.mpr ⟨rfl, value.isUse_marks⟩)
  | .write addr value => h.uses (List.forall_mem_append.mpr ⟨addr.isUse_marks, value.isUse_marks⟩)
  | .ret value => h.uses (isUse_optionMarks value)
  | .cond test body => by
    rw [Stmt.marks, ← List.append_assoc]
    exact (h.uses test.isUse_marks).after body
  | .loop test body => by
    rw [Stmt.marks, ← List.append_assoc]
    exact (h.uses test.isUse_marks).after body
  | .expr value => h.uses value.isUse_marks

def Site.enter (site : Site) : Names :=
  .enter site.tree site.index site.params

@[simp] theorem Site.find_enter (site : Site) :
    site.enter.find = bindFrom 0 site.params (declared site.tree (site.index + 1)) := rfl

@[simp] theorem Site.vars_enter (site : Site) : site.enter.vars = 0 := rfl

section
variable {site : Site} {before : List Mark} {names : Names} {name : String}

/-- The declaration that a name means is found. -/
theorem Tracks.find_of_sees (h : Tracks site.enter before names) {d : Declaration} (hs : site.Sees before name d) :
    names.find name = some (d.referent site.tree) := by
  cases hs with
  | var hd =>
    rw [h.seen hd, Site.vars_enter, Nat.zero_add]
    rfl
  | param hno hi =>
    rw [h.unseen hno, Site.find_enter, bindFrom_of_isGreatest hi, Nat.zero_add]
    rfl
  | top hno hparam hj =>
    rw [h.unseen hno, Site.find_enter, bindFrom_of_not_mem hparam]
    refine declared_of_isGreatest ?_
    simpa only [Nat.lt_succ_iff] using hj

/-- What is found for a name is the declaration that it means. -/
theorem Tracks.sees_of_find (h : Tracks site.enter before names) {r : Referent} (hr : names.find name = some r) :
    ∃ d, site.Sees before name d ∧ d.referent site.tree = r := by
  obtain ⟨d, hs⟩ : ∃ d, site.Sees before name d := by
    rcases exists_isGreatest_or (fun d (hd : InSight before name d) => hd.lt) with ⟨d, hd⟩ | hno
    · exact ⟨_, .var hd⟩
    have hparams : ∀ i, site.params[i]? = some name → i < site.params.length :=
      fun i hi => (List.getElem?_eq_some_iff.mp hi).1
    rcases exists_isGreatest_or hparams with ⟨i, hi⟩ | hnone
    · exact ⟨_, .param hno hi⟩
    have hparam : name ∉ site.params := fun hmem => (List.mem_iff_getElem?.mp hmem).elim hnone
    have htop : ∀ j, j ≤ site.index ∧ DeclaresAt site.tree name j → j < site.index + 1 :=
      fun j hj => Nat.lt_succ_of_le hj.1
    rcases exists_isGreatest_or htop with ⟨j, hj⟩ | hnone
    · exact ⟨_, .top hno hparam hj⟩
    -- nothing is declared, so nothing was found
    rw [h.unseen hno, Site.find_enter, bindFrom_of_not_mem hparam,
      declared_of_forall_not fun j hj hd => hnone j ⟨Nat.le_of_lt_succ hj, hd⟩] at hr
    cases hr
  refine ⟨d, hs, ?_⟩
  have := h.find_of_sees hs
  rw [hr] at this
  exact (Option.some.inj this).symm

end

end StackToolchain.Source
