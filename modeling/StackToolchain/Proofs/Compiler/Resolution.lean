import StackToolchain.Proofs.Compiler.Declarations
import StackToolchain.Proofs.Source.Visibility

/-! Names resolve by the text alone.
The scope in which a piece of a function is compiled binds every name to the declaration that the name means. A
variable is found at the place of its declaration, and a function with the parameters of its declaration. -/
namespace StackToolchain

open Source

namespace Source

def Declaration.IsVariable (tree : Tree) : Declaration → Prop
  | .top j => ∃ name, tree[j]? = some (.global name)
  | _ => True

def Declaration.IsFunction (tree : Tree) (arity : Nat) : Declaration → Prop
  | .top j => ∃ name params body o, tree[j]? = some (.func name params body o) ∧ params.length = arity
  | _ => False

def Use.Allows (tree : Tree) : Use → Declaration → Prop
  | .read => Declaration.IsVariable tree
  | .assign => Declaration.IsVariable tree
  | .call args => Declaration.IsFunction tree args

def Site.Serves (site : Site) (before : List Mark) (name : String) (use : Use) : Prop :=
  ∃ d, site.Sees before name d ∧ use.Allows site.tree d

/-- Where the variable of a declaration is kept: variables of statements from the frame base up, parameters below
the links, global variables in their records. -/
def Site.Keeps (site : Site) : Declaration → Cell → Prop
  | .var k, .frame off => off.toInt = 2 * k
  | .param i, .frame off => off.toInt = -4 - 2 * (site.params.length - i)
  | .top j, .record label => ∃ name, site.tree[j]? = some (.global name) ∧ label = globalLabel name
  | _, _ => False

private theorem LocalVar.Within.toInt_offset {params vars : Nat} {v : LocalVar} (h : v.Within params vars) :
    (Int8.ofInt (v.offset params)).toInt = v.offset params :=
  Int8.toInt_ofInt_of_le (by simpa using h.2.1) (Int.lt_add_one_of_le h.2.2)

theorem Declaration.isVariable_of_keeps {site : Site} {d : Declaration} {cell : Cell} (h : site.Keeps d cell) :
    d.IsVariable site.tree := by
  cases d with
  | var k => trivial
  | param i => trivial
  | top j =>
    cases cell with
    | frame off => cases h
    | record label =>
      obtain ⟨name, hj, -⟩ := h
      exact ⟨name, hj⟩

end Source

structure Resolves (site : Site) (before : List Mark) (names : Names) (scope : Scope) : Prop where
  tracks : Tracks site.enter before names
  agrees : Agrees site.tree site.params.length names scope

namespace Resolves

variable {site : Site} {before : List Mark} {names : Names} {scope : Scope} {name : String} {offset : Option Nat}

theorem uses (h : Resolves site before names scope) {marks : List Mark} (hu : ∀ mark ∈ marks, mark.isUse = true) :
    Resolves site (before ++ marks) names scope :=
  ⟨h.tracks.uses hu, h.agrees⟩

theorem opening (h : Resolves site before names scope) : Resolves site (before ++ [.opening]) names scope :=
  ⟨h.tracks.opening, h.agrees⟩

private theorem get?_of_sees (h : Resolves site before names scope) {d : Declaration} (hs : site.Sees before name d) :
    scope.get? name = some ((d.referent site.tree).binding site.tree site.params.length) := by
  rw [h.agrees.binding, h.tracks.find_of_sees hs]
  rfl

private theorem own_of_referent {tree : Tree} {d : Declaration} {v : LocalVar} (h : d.referent tree = .own v) :
    (∃ k, d = .var k ∧ v = .var k) ∨ ∃ i, d = .param i ∧ v = .param i := by
  cases d with
  | var k =>
    cases h
    exact .inl ⟨k, rfl, rfl⟩
  | param i =>
    cases h
    exact .inr ⟨i, rfl, rfl⟩
  | top j =>
    rw [Declaration.referent] at h
    split at h <;> cases h

private theorem top_of_referent {tree : Tree} {d : Declaration} {r : Referent} (h : d.referent tree = r)
    (hr : ∀ v, r ≠ .own v) : ∃ j, d = .top j := by
  cases d with
  | var k => exact absurd h.symm (hr _)
  | param i => exact absurd h.symm (hr _)
  | top j => exact ⟨j, rfl⟩

/-- The place of a variable is that of the declaration that its name means. -/
theorem sees_of_cell (h : Resolves site before names scope) {cell : Cell} (hc : scope.cell name offset = .ok cell) :
    ∃ d, site.Sees before name d ∧ site.Keeps d cell := by
  rcases h.agrees.of_cell hc with ⟨v, hv, hw, rfl⟩ | ⟨g, hg, hmem, rfl⟩
  · obtain ⟨d, hs, hd⟩ := h.tracks.sees_of_find hv
    refine ⟨d, hs, ?_⟩
    rcases own_of_referent hd with ⟨k, rfl, rfl⟩ | ⟨i, rfl, rfl⟩
    · exact hw.toInt_offset
    · have hi : i < site.params.length := hw.1
      rw [Site.Keeps, hw.toInt_offset, LocalVar.offset]
      omega
  · obtain ⟨d, hs, hd⟩ := h.tracks.sees_of_find hg
    obtain ⟨j, rfl⟩ := top_of_referent hd (by simp)
    refine ⟨.top j, hs, g, ?_, rfl⟩
    rw [Declaration.referent] at hd
    split at hd
    · rename_i name hj
      cases hd
      exact hj
    · cases hd

/-- A name that means a variable has a place. -/
theorem cell_of_sees (h : Resolves site before names scope) {d : Declaration} (hs : site.Sees before name d)
    (hd : d.IsVariable site.tree) : ∃ cell, scope.cell name offset = .ok cell := by
  have hget := h.get?_of_sees hs
  cases d with
  | var k => exact ⟨_, Scope.cell_eq_ok.mpr (.inl ⟨_, hget, rfl⟩)⟩
  | param i => exact ⟨_, Scope.cell_eq_ok.mpr (.inl ⟨_, hget, rfl⟩)⟩
  | top j =>
    obtain ⟨g, hg⟩ := hd
    simp only [Declaration.referent, hg] at hget
    exact ⟨_, Scope.cell_eq_ok.mpr (.inr ⟨_, hget, rfl⟩)⟩

/-- A call is bound to a number of parameters exactly if its name means a function with this number. -/
theorem arity_iff (h : Resolves site before names scope) {n : Nat} :
    scope.arity name offset = .ok n ↔ ∃ d, site.Sees before name d ∧ d.IsFunction site.tree n := by
  constructor
  · intro ha
    obtain ⟨i, ps, body, o, hi, hat, hlen⟩ := h.agrees.of_arity ha
    obtain ⟨d, hs, hd⟩ := h.tracks.sees_of_find hi
    obtain ⟨j, rfl⟩ := top_of_referent hd (by simp)
    rw [Declaration.referent] at hd
    split at hd <;> cases hd
    exact ⟨.top i, hs, name, ps, body, o, hat, hlen⟩
  · rintro ⟨d, hs, hd⟩
    cases d with
    | var k => cases hd
    | param i => cases hd
    | top j =>
      obtain ⟨f, ps, body, o, hj, rfl⟩ := hd
      have hget := h.get?_of_sees hs
      simp only [Declaration.referent, hj, Referent.binding, arity] at hget
      exact Scope.arity_eq_ok.mpr hget

/-- The next variable is that of the next declaration. -/
theorem declares (h : Resolves site before names scope) {st st' : BodyState} (hc : st.Counts names) {function : String}
    {off : Int8} (hl : st.addLocal function name = .ok (off, st')) :
    Resolves site (before ++ [.declares name]) ⟨rebind names.find name (.own (.var names.vars)), names.vars + 1⟩
        (scope.insert name (.slot off)) ∧
      site.Keeps (.var (varCount before)) (.frame off) := by
  obtain ⟨rfl, hw, ha, -⟩ := addLocal_agrees h.agrees hc hl
  refine ⟨⟨h.tracks.declares name, ha⟩, ?_⟩
  have hvars : names.vars = varCount before := by rw [h.tracks.vars, Site.vars_enter, Nat.zero_add]
  rw [Site.Keeps, hw.toInt_offset, LocalVar.offset, hvars]

theorem after (h : Resolves site before names scope) {st st' : BodyState} (hc : st.Counts names) {function : String}
    {s : Stmt} {scope' : Scope} {code : Program} (hs : compileStmt function s scope st = .ok (code, scope', st')) :
    Resolves site (before ++ s.marks) (names.after s) scope' ∧ st'.Counts (names.after s) := by
  obtain ⟨ha, hc', -⟩ := compileStmt_agrees s h.agrees hc hs
  exact ⟨⟨h.tracks.after s, ha⟩, hc'⟩

end Resolves

end StackToolchain
