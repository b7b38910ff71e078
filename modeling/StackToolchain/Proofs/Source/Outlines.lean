import Mathlib
import StackToolchain.Proofs.Text.Reading
import StackToolchain.Source.Outline

/-! Outlines as trees of lines.
The rows of an outline tell by their indentation alone which lines stand below which; that is so for any texts that do
not begin with a space. The outline of a syntax tree is such a tree of lines. -/
namespace StackToolchain.Source

/-- Lines of text, each with the lines set in below it and with those that follow at its own depth. -/
inductive Outline where
  | nothing
  | line (text : String) (below next : Outline)

namespace Outline

def rows (depth : Nat) : Outline → List String
  | .nothing => []
  | .line text below next => outlineRow depth text :: (below.rows (depth + 1) ++ next.rows depth)

/-- A text for a line of an outline: it does not begin with a space, and nothing in it ends a line. -/
def IsText (text : String) : Prop :=
  text.toList.head? ≠ some ' ' ∧ ∀ c ∈ text.toList, ' ' ≤ c

def Plain : Outline → Prop
  | .nothing => True
  | .line text below next => IsText text ∧ below.Plain ∧ next.Plain

private def indentation (row : String) : Nat :=
  (row.toList.takeWhile (· == ' ')).length

private theorem toList_outlineRow (depth : Nat) (text : String) :
    (outlineRow depth text).toList = List.replicate (4 * depth) ' ' ++ text.toList := by
  simp [outlineRow, Text.repeated]

private theorem indentation_outlineRow {text : String} (h : IsText text) (depth : Nat) :
    indentation (outlineRow depth text) = 4 * depth := by
  have hspaces : ∀ c ∈ List.replicate (4 * depth) ' ', (c == ' ') = true := by simp
  have htext : text.toList.takeWhile (· == ' ') = [] := by
    have hhead := h.1
    cases hlist : text.toList with
    | nil => rfl
    | cons c rest =>
      rw [hlist] at hhead
      simpa [List.takeWhile_cons] using hhead
  rw [indentation, toList_outlineRow, List.takeWhile_append_of_pos hspaces, htext]
  simp

private theorem outlineRow_inj {depth : Nat} {text text' : String}
    (h : outlineRow depth text = outlineRow depth text') : text = text' := by
  rw [← String.toList_inj, toList_outlineRow, toList_outlineRow] at h
  exact String.toList_inj.mp (List.append_cancel_left h)

/-- Rows do not go on at a depth: there are none, or the first one is indented less. -/
def Shallower (depth : Nat) (rows : List String) : Prop :=
  ∀ row, rows.head? = some row → indentation row < 4 * depth

private theorem not_shallower_line {depth : Nat} {text : String} (h : IsText text) (rows : List String) :
    ¬ Shallower depth (outlineRow depth text :: rows) := by
  intro hs
  have hlt := hs _ rfl
  rw [indentation_outlineRow h] at hlt
  exact lt_irrefl _ hlt

private theorem Plain.shallower_rows {o : Outline} {depth : Nat} {rest : List String} (ho : o.Plain)
    (hrest : Shallower depth rest) : Shallower (depth + 1) (o.rows depth ++ rest) := by
  intro row hrow
  cases o with
  | nothing =>
    have := hrest row hrow
    omega
  | line text below next =>
    cases hrow
    rw [indentation_outlineRow ho.1]
    omega

/-- Indentation tells an outline from the rows behind it that do not go on at its depth. -/
theorem rows_unique {o o' : Outline} {depth : Nat} {rest rest' : List String} (ho : o.Plain) (ho' : o'.Plain)
    (hrest : Shallower depth rest) (hrest' : Shallower depth rest')
    (h : o.rows depth ++ rest = o'.rows depth ++ rest') : o = o' ∧ rest = rest' := by
  induction o generalizing o' depth rest rest' with
  | nothing =>
    cases o' with
    | nothing => exact ⟨rfl, h⟩
    | line text' below' next' =>
      obtain rfl : rest = _ := h
      exact absurd hrest (not_shallower_line ho'.1 _)
  | line text below next ihbelow ihnext =>
    cases o' with
    | nothing =>
      obtain rfl : _ = rest' := h
      exact absurd hrest' (not_shallower_line ho.1 _)
    | line text' below' next' =>
      rw [rows, rows, List.cons_append, List.cons_append, List.append_assoc, List.append_assoc] at h
      obtain ⟨htext, hrows⟩ := List.cons.inj h
      -- what is set in ends at the next line of this depth, or with the whole outline
      have hends := ho.2.2.shallower_rows hrest
      have hends' := ho'.2.2.shallower_rows hrest'
      obtain ⟨hbelow, hnext⟩ := ihbelow ho.2.1 ho'.2.1 hends hends' hrows
      obtain ⟨hnext, hsame⟩ := ihnext ho.2.2 ho'.2.2 hrest hrest' hnext
      rw [outlineRow_inj htext, hbelow, hnext]
      exact ⟨rfl, hsame⟩

private theorem isRow_outlineRow {text : String} (h : IsText text) (depth : Nat) :
    Text.IsRow (outlineRow depth text).toList := by
  have hshown : ∀ c ∈ (outlineRow depth text).toList, ' ' ≤ c := by
    rw [toList_outlineRow]
    simp only [List.forall_mem_append, List.mem_replicate, and_imp, forall_eq_apply_imp_iff]
    exact ⟨by simp, h.2⟩
  constructor
  · intro hnewline
    exact absurd (hshown _ hnewline) (by decide)
  · intro hreturn
    exact absurd (hshown _ (List.mem_of_getLast? hreturn)) (by decide)

private theorem Plain.isRow {o : Outline} {depth : Nat} (h : o.Plain) :
    ∀ row ∈ o.rows depth, Text.IsRow row.toList := by
  induction o generalizing depth with
  | nothing => simp [rows]
  | line text below next ihbelow ihnext =>
    simp only [rows, List.forall_mem_cons, List.forall_mem_append]
    exact ⟨isRow_outlineRow h.1 depth, ihbelow h.2.1, ihnext h.2.2⟩

/-- An outline is read back from its text. -/
theorem unlines_rows_inj {o o' : Outline} (ho : o.Plain) (ho' : o'.Plain)
    (h : Text.unlines (o.rows 0) = Text.unlines (o'.rows 0)) : o = o' := by
  have hlines := congrArg (fun text => Text.lines text.toList) h
  simp only [Text.lines_unlines ho.isRow, Text.lines_unlines ho'.isRow] at hlines
  have hrows : o.rows 0 = o'.rows 0 := List.map_injective_iff.mpr (fun _ _ => String.toList_inj.mp) hlines
  have hnone : Shallower 0 [] := by simp [Shallower]
  exact (rows_unique ho ho' hnone hnone (by rw [hrows])).1

end Outline

mutual

def Expr.outlineOnto (next : Outline) : Expr → Outline
  | .int n => .line (toString n.toNat) .nothing next
  | .var name _ => .line name .nothing next
  | .call name args _ => .line ("call " ++ name) (Expr.outlineAllOnto .nothing args) next
  | .paren inner => .line "()" (inner.outlineOnto .nothing) next
  | .binary left op right => .line op.sign (left.outlineOnto (right.outlineOnto .nothing)) next

def Expr.outlineAllOnto (next : Outline) : List Expr → Outline
  | [] => next
  | e :: rest => e.outlineOnto (Expr.outlineAllOnto next rest)

end

def outlineOptionOnto (next : Outline) : Option Expr → Outline
  | none => next
  | some e => e.outlineOnto next

mutual

def Stmt.outlineOnto (next : Outline) : Stmt → Outline
  | .scope body => .line "scope" (Stmt.outlineAllOnto .nothing body) next
  | .var name init _ => .line ("var " ++ name) (outlineOptionOnto .nothing init) next
  | .assign name value _ => .line ("assign " ++ name) (value.outlineOnto .nothing) next
  | .write addr value => .line "write" (addr.outlineOnto (value.outlineOnto .nothing)) next
  | .ret value => .line "return" (outlineOptionOnto .nothing value) next
  | .cond test body => .line "if" (test.outlineOnto (body.outlineOnto .nothing)) next
  | .loop test body => .line "while" (test.outlineOnto (body.outlineOnto .nothing)) next
  | .expr value => .line "expr" (value.outlineOnto .nothing) next

def Stmt.outlineAllOnto (next : Outline) : List Stmt → Outline
  | [] => next
  | s :: rest => s.outlineOnto (Stmt.outlineAllOnto next rest)

end

def funcHeading (name : String) (params : List String) : String :=
  "func " ++ name ++ "(" ++ ", ".intercalate params ++ ")"

def Decl.outlineOnto (next : Outline) : Decl → Outline
  | .func name params body _ => .line (funcHeading name params) ((Stmt.scope body).outlineOnto .nothing) next
  | .global name => .line ("global " ++ name) .nothing next

def Tree.outlineOnto (tree : Tree) : Outline :=
  tree.foldr (fun decl next => decl.outlineOnto next) .nothing

mutual

private theorem Expr.rows_outlineOnto (depth : Nat) (next : Outline) :
    (e : Expr) → (e.outlineOnto next).rows depth = e.outline depth ++ next.rows depth
  | .int n => by simp [Expr.outlineOnto, Expr.outline, Outline.rows]
  | .var name _ => by simp [Expr.outlineOnto, Expr.outline, Outline.rows]
  | .call name args _ => by
    simp [Expr.outlineOnto, Expr.outline, Outline.rows, Expr.rows_outlineAllOnto (depth + 1) .nothing args]
  | .paren inner => by
    simp [Expr.outlineOnto, Expr.outline, Outline.rows, inner.rows_outlineOnto (depth + 1) .nothing]
  | .binary left op right => by
    simp [Expr.outlineOnto, Expr.outline, Outline.rows, left.rows_outlineOnto (depth + 1),
      right.rows_outlineOnto (depth + 1) .nothing]

private theorem Expr.rows_outlineAllOnto (depth : Nat) (next : Outline) : (es : List Expr) →
    (Expr.outlineAllOnto next es).rows depth = Expr.outlineAll depth es ++ next.rows depth
  | [] => rfl
  | e :: rest => by
    simp [Expr.outlineAllOnto, Expr.outlineAll, e.rows_outlineOnto depth, Expr.rows_outlineAllOnto depth next rest]

end

private theorem rows_outlineOptionOnto (depth : Nat) (next : Outline) (e : Option Expr) :
    (outlineOptionOnto next e).rows depth = outlineOption depth e ++ next.rows depth := by
  cases e with
  | none => rfl
  | some e => exact e.rows_outlineOnto depth next

mutual

private theorem Stmt.rows_outlineOnto (depth : Nat) (next : Outline) :
    (s : Stmt) → (s.outlineOnto next).rows depth = s.outline depth ++ next.rows depth
  | .scope body => by
    simp [Stmt.outlineOnto, Stmt.outline, Outline.rows, Stmt.rows_outlineAllOnto (depth + 1) .nothing body]
  | .var name init _ => by simp [Stmt.outlineOnto, Stmt.outline, Outline.rows, rows_outlineOptionOnto]
  | .assign name value _ => by simp [Stmt.outlineOnto, Stmt.outline, Outline.rows, Expr.rows_outlineOnto]
  | .write addr value => by simp [Stmt.outlineOnto, Stmt.outline, Outline.rows, Expr.rows_outlineOnto]
  | .ret value => by simp [Stmt.outlineOnto, Stmt.outline, Outline.rows, rows_outlineOptionOnto]
  | .cond test body => by
    simp [Stmt.outlineOnto, Stmt.outline, Outline.rows, Expr.rows_outlineOnto,
      body.rows_outlineOnto (depth + 1) .nothing]
  | .loop test body => by
    simp [Stmt.outlineOnto, Stmt.outline, Outline.rows, Expr.rows_outlineOnto,
      body.rows_outlineOnto (depth + 1) .nothing]
  | .expr value => by simp [Stmt.outlineOnto, Stmt.outline, Outline.rows, Expr.rows_outlineOnto]

private theorem Stmt.rows_outlineAllOnto (depth : Nat) (next : Outline) : (body : List Stmt) →
    (Stmt.outlineAllOnto next body).rows depth = Stmt.outlineAll depth body ++ next.rows depth
  | [] => rfl
  | s :: rest => by
    simp [Stmt.outlineAllOnto, Stmt.outlineAll, s.rows_outlineOnto depth, Stmt.rows_outlineAllOnto depth next rest]

end

private theorem outlineRow_zero (text : String) : outlineRow 0 text = text := by
  simp [outlineRow, Text.repeated]

private theorem Decl.rows_outlineOnto (next : Outline) (decl : Decl) :
    (decl.outlineOnto next).rows 0 = decl.outline ++ next.rows 0 := by
  cases decl with
  | func name params body offset =>
    rw [Decl.outlineOnto, Outline.rows, Stmt.rows_outlineOnto, outlineRow_zero, Outline.rows, List.append_nil]
    rfl
  | global name =>
    rw [Decl.outlineOnto, Outline.rows, outlineRow_zero]
    rfl

theorem Tree.outline_eq_unlines (tree : Tree) : Tree.outline tree = Text.unlines (Tree.outlineOnto tree |>.rows 0) := by
  have hrows : (Tree.outlineOnto tree).rows 0 = tree.flatMap Decl.outline := by
    induction tree with
    | nil => rfl
    | cons decl tree ih =>
      rw [List.flatMap_cons, ← ih]
      exact decl.rows_outlineOnto _
  rw [Tree.outline, hrows]

end StackToolchain.Source
