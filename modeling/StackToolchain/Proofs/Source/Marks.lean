import Mathlib
import StackToolchain.Proofs.Source.Unparsing

/-! What a text says about names.
The body of a function is read as a row of marks: braces, declarations and uses of names, in the order of the text.
Braces make blocks, and a statement closes the blocks that it opens. -/
namespace StackToolchain.Source

inductive Use where
  | read
  | assign
  | call (args : Nat)
  deriving DecidableEq, Repr

inductive Mark where
  | opening
  | closing
  | declares (name : String)
  | uses (name : String) (use : Use)
  deriving DecidableEq, Repr

mutual

def Expr.marks : Expr → List Mark
  | .int _ => []
  | .var name _ => [.uses name .read]
  | .call name args _ => .uses name (.call args.length) :: Expr.allMarks args
  | .paren inner => inner.marks
  | .binary left _ right => left.marks ++ right.marks

def Expr.allMarks : List Expr → List Mark
  | [] => []
  | e :: rest => e.marks ++ Expr.allMarks rest

end

def optionMarks : Option Expr → List Mark
  | none => []
  | some e => e.marks

mutual

def Stmt.marks : Stmt → List Mark
  | .scope body => .opening :: (Stmt.allMarks body ++ [.closing])
  | .var name init _ => .declares name :: optionMarks init
  | .assign name value _ => .uses name .assign :: value.marks
  | .write addr value => addr.marks ++ value.marks
  | .ret value => optionMarks value
  | .cond test body => test.marks ++ body.marks
  | .loop test body => test.marks ++ body.marks
  | .expr value => value.marks

def Stmt.allMarks : List Stmt → List Mark
  | [] => []
  | s :: rest => s.marks ++ Stmt.allMarks rest

end

def Mark.token : Mark → TokenKind
  | .opening => .punct .lbrace
  | .closing => .punct .rbrace
  | .declares name => .ident name
  | .uses name _ => .ident name

def TokenKind.isMark : TokenKind → Bool
  | .ident _ => true
  | .punct .lbrace => true
  | .punct .rbrace => true
  | _ => false

private theorem filter_commaSeparated (parts : List (List TokenKind)) :
    (commaSeparated parts).filter TokenKind.isMark = parts.flatMap (·.filter TokenKind.isMark) := by
  have hrest : ∀ rest : List (List TokenKind), (rest.flatMap (.punct .comma :: ·)).filter TokenKind.isMark =
      rest.flatMap (·.filter TokenKind.isMark) := by
    intro rest
    induction rest with
    | nil => rfl
    | cons part rest ih => simp [TokenKind.isMark, ih]
  cases parts with
  | nil => rfl
  | cons first rest => rw [commaSeparated, List.filter_append, hrest, List.flatMap_cons]

private theorem isMark_operatorMark (op : AluOp) : (TokenKind.punct (operatorMark op)).isMark = false := by
  cases op <;> rfl

mutual

private theorem Expr.map_token_marks : (e : Expr) → e.marks.map Mark.token = e.unparse.filter TokenKind.isMark
  | .int n => rfl
  | .var name offset => rfl
  | .call name args offset => by
    rw [Expr.marks, Expr.unparse, List.map_cons, Expr.map_token_allMarks args]
    simp [TokenKind.isMark, Mark.token, List.filter_cons, filter_commaSeparated]
  | .paren inner => by
    rw [Expr.marks, Expr.unparse, inner.map_token_marks]
    simp [TokenKind.isMark]
  | .binary left op right => by
    rw [Expr.marks, Expr.unparse, List.map_append, left.map_token_marks, right.map_token_marks, List.filter_append,
      List.filter_cons_of_neg (by simp [isMark_operatorMark])]

private theorem Expr.map_token_allMarks : (es : List Expr) →
    (Expr.allMarks es).map Mark.token = (Expr.unparseEach es).flatMap (·.filter TokenKind.isMark)
  | [] => rfl
  | e :: rest => by
    rw [Expr.allMarks, List.map_append, e.map_token_marks, Expr.map_token_allMarks rest, Expr.unparseEach,
      List.flatMap_cons]

end

private theorem map_token_optionMarks (mark : List TokenKind) (hmark : mark.filter TokenKind.isMark = [])
    (e : Option Expr) : (optionMarks e).map Mark.token = (unparseOption mark e).filter TokenKind.isMark := by
  cases e with
  | none => rfl
  | some e => rw [optionMarks, unparseOption, List.filter_append, hmark, List.nil_append, e.map_token_marks]

mutual

/-- The marks of a statement are the names and braces among its tokens. -/
theorem Stmt.map_token_marks : (s : Stmt) → s.marks.map Mark.token = s.unparse.filter TokenKind.isMark
  | .scope body => by
    rw [Stmt.marks, Stmt.unparse, List.map_cons, List.map_append, Stmt.map_token_allMarks body]
    simp [TokenKind.isMark, Mark.token, List.filter_cons]
  | .var name init offset => by
    rw [Stmt.marks, Stmt.unparse, List.map_cons, map_token_optionMarks [.punct .assign] rfl]
    simp [TokenKind.isMark, Mark.token, List.filter_cons]
  | .assign name value offset => by
    rw [Stmt.marks, Stmt.unparse, List.map_cons, value.map_token_marks]
    simp [TokenKind.isMark, Mark.token, List.filter_cons]
  | .write addr value => by
    rw [Stmt.marks, Stmt.unparse, List.map_append, addr.map_token_marks, value.map_token_marks]
    simp [TokenKind.isMark]
  | .ret value => by
    rw [Stmt.marks, Stmt.unparse, map_token_optionMarks [] rfl]
    simp [TokenKind.isMark]
  | .cond test body => by
    rw [Stmt.marks, Stmt.unparse, List.map_append, test.map_token_marks, body.map_token_marks]
    simp [TokenKind.isMark]
  | .loop test body => by
    rw [Stmt.marks, Stmt.unparse, List.map_append, test.map_token_marks, body.map_token_marks]
    simp [TokenKind.isMark]
  | .expr value => by
    rw [Stmt.marks, Stmt.unparse, value.map_token_marks]
    simp [TokenKind.isMark]

theorem Stmt.map_token_allMarks : (body : List Stmt) →
    (Stmt.allMarks body).map Mark.token = (Stmt.unparseAll body).filter TokenKind.isMark
  | [] => rfl
  | s :: rest => by
    rw [Stmt.allMarks, Stmt.unparseAll, List.map_append, List.filter_append, s.map_token_marks,
      Stmt.map_token_allMarks rest]

end

/-- The number of blocks that are open inside a block after some text of it, if the block itself is still open. -/
def blocksOpen : Nat → List Mark → Option Nat
  | n, [] => some n
  | n, .opening :: rest => blocksOpen (n + 1) rest
  | 0, .closing :: _ => none
  | n + 1, .closing :: rest => blocksOpen n rest
  | n, .declares _ :: rest => blocksOpen n rest
  | n, .uses _ _ :: rest => blocksOpen n rest

theorem blocksOpen_append (n : Nat) (front rest : List Mark) :
    blocksOpen n (front ++ rest) = (blocksOpen n front).bind (blocksOpen · rest) := by
  fun_induction blocksOpen n front with
  | case1 n => rfl
  | case2 n front ih => exact ih
  | case3 front => rfl
  | case4 n front ih => exact ih
  | case5 n name front ih => simpa [blocksOpen] using ih
  | case6 n name use front ih => simpa [blocksOpen] using ih

/-- Blocks that are open around a text stay open. -/
theorem blocksOpen_add {n k : Nat} {marks : List Mark} (h : blocksOpen n marks = some k) (more : Nat) :
    blocksOpen (n + more) marks = some (k + more) := by
  fun_induction blocksOpen n marks with
  | case1 n =>
    cases h
    rfl
  | case2 n marks ih => simpa [blocksOpen, Nat.add_right_comm] using ih h
  | case3 marks => cases h
  | case4 n marks ih => simpa [blocksOpen, Nat.add_right_comm] using ih h
  | case5 n name marks ih => simpa [blocksOpen] using ih h
  | case6 n name use marks ih => simpa [blocksOpen] using ih h

def Mark.isUse : Mark → Bool
  | .uses _ _ => true
  | _ => false

theorem blocksOpen_uses {marks : List Mark} (h : ∀ mark ∈ marks, mark.isUse = true) (n : Nat) :
    blocksOpen n marks = some n := by
  induction marks with
  | nil => simp [blocksOpen]
  | cons mark marks ih =>
    obtain ⟨hmark, hmarks⟩ := List.forall_mem_cons.mp h
    cases mark <;> cases hmark
    simpa [blocksOpen] using ih hmarks

mutual

theorem Expr.isUse_marks : (e : Expr) → ∀ mark ∈ e.marks, mark.isUse = true
  | .int n => by simp [Expr.marks]
  | .var name offset => by simp [Expr.marks, Mark.isUse]
  | .call name args offset => by simpa [Expr.marks, Mark.isUse] using Expr.isUse_allMarks args
  | .paren inner => inner.isUse_marks
  | .binary left op right => List.forall_mem_append.mpr ⟨left.isUse_marks, right.isUse_marks⟩

theorem Expr.isUse_allMarks : (es : List Expr) → ∀ mark ∈ Expr.allMarks es, mark.isUse = true
  | [] => by simp [Expr.allMarks]
  | e :: rest => List.forall_mem_append.mpr ⟨e.isUse_marks, Expr.isUse_allMarks rest⟩

end

theorem isUse_optionMarks (e : Option Expr) : ∀ mark ∈ optionMarks e, mark.isUse = true := by
  cases e with
  | none => simp [optionMarks]
  | some e => exact e.isUse_marks

mutual

/-- A statement closes the blocks that it opens, and no others. -/
theorem Stmt.blocksOpen_marks : (s : Stmt) → (n : Nat) → blocksOpen n s.marks = some n
  | .scope body, n => by
    rw [Stmt.marks, blocksOpen, blocksOpen_append, Stmt.blocksOpen_allMarks body]
    rfl
  | .var name init offset, n => by
    rw [Stmt.marks, blocksOpen]
    exact blocksOpen_uses (isUse_optionMarks init) n
  | .assign name value offset, n => by
    rw [Stmt.marks, blocksOpen]
    exact blocksOpen_uses value.isUse_marks n
  | .write addr value, n =>
    blocksOpen_uses (List.forall_mem_append.mpr ⟨addr.isUse_marks, value.isUse_marks⟩) n
  | .ret value, n => blocksOpen_uses (isUse_optionMarks value) n
  | .cond test body, n => by
    rw [Stmt.marks, blocksOpen_append, blocksOpen_uses test.isUse_marks]
    exact body.blocksOpen_marks n
  | .loop test body, n => by
    rw [Stmt.marks, blocksOpen_append, blocksOpen_uses test.isUse_marks]
    exact body.blocksOpen_marks n
  | .expr value, n => blocksOpen_uses value.isUse_marks n

theorem Stmt.blocksOpen_allMarks : (body : List Stmt) → (n : Nat) → blocksOpen n (Stmt.allMarks body) = some n
  | [], n => by simp [Stmt.allMarks, blocksOpen]
  | s :: rest, n => by
    rw [Stmt.allMarks, blocksOpen_append, s.blocksOpen_marks]
    exact Stmt.blocksOpen_allMarks rest n

end

/-- Every use of a name among marks has a property, given the text before it. -/
def EachUse (P : List Mark → String → Use → Prop) (before marks : List Mark) : Prop :=
  ∀ u name use, marks[u]? = some (.uses name use) → P (before ++ marks.take u) name use

section
variable {P : List Mark → String → Use → Prop} {before front rest : List Mark}

theorem eachUse_nil : EachUse P before [] := by
  simp [EachUse]

theorem eachUse_append :
    EachUse P before (front ++ rest) ↔ EachUse P before front ∧ EachUse P (before ++ front) rest := by
  have hright : ∀ u, (front ++ rest)[front.length + u]? = rest[u]? := by
    intro u
    rw [List.getElem?_append_right (Nat.le_add_right _ _), Nat.add_sub_cancel_left]
  constructor
  · intro h
    refine ⟨fun u name use hu => ?_, fun u name use hu => ?_⟩
    · have hlt : u < front.length := (List.getElem?_eq_some_iff.mp hu).1
      have := h u name use (by rwa [List.getElem?_append_left hlt])
      rwa [List.take_append_of_le_length hlt.le] at this
    · have := h (front.length + u) name use (by rwa [hright])
      rwa [List.take_length_add_append, ← List.append_assoc] at this
  · rintro ⟨hfront, hrest⟩ u name use hu
    rcases Nat.lt_or_ge u front.length with hlt | hge
    · rw [List.getElem?_append_left hlt] at hu
      rw [List.take_append_of_le_length hlt.le]
      exact hfront u name use hu
    · obtain ⟨k, rfl⟩ := Nat.exists_eq_add_of_le hge
      rw [hright] at hu
      rw [List.take_length_add_append, ← List.append_assoc]
      exact hrest k name use hu

theorem eachUse_uses {name : String} {use : Use} :
    EachUse P before (.uses name use :: rest) ↔ P before name use ∧ EachUse P (before ++ [.uses name use]) rest := by
  rw [← List.singleton_append, eachUse_append]
  refine and_congr_left fun _ => ⟨fun h => ?_, fun h u x use' hu => ?_⟩
  · simpa using h 0 name use rfl
  · cases u with
    | zero =>
      cases hu
      simpa using h
    | succ u => cases hu

theorem eachUse_cons {mark : Mark} (hmark : mark.isUse = false) :
    EachUse P before (mark :: rest) ↔ EachUse P (before ++ [mark]) rest := by
  rw [← List.singleton_append, eachUse_append]
  refine and_iff_right fun u name use hu => ?_
  cases u with
  | zero =>
    cases hu
    cases hmark
  | succ u => cases hu

end

end StackToolchain.Source
