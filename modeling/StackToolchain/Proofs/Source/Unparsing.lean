import StackToolchain.Source.Token
import StackToolchain.Source.Tree

/-! The tokens that a syntax tree is written with, and the shapes of trees that parsing gives.
Operators join to the left, so a right operand is a single value. Two expressions, or an expression and a
statement, may stand side by side with nothing between them; a name at the end of the first then must not meet a
parenthesis, which would make it a call. -/
namespace StackToolchain.Source

def operatorMark : AluOp → Punct
  | .add => .plus
  | .sub => .minus
  | .mul => .star
  | .div => .slash
  | .mod => .percent
  | .and => .ampersand
  | .or => .pipe
  | .xor => .caret
  | .shl => .shiftLeft
  | .shr => .shiftRight
  | .eq => .equals
  | .neq => .differs
  | .lt => .less
  | .gt => .greater
  | .le => .atMost
  | .ge => .atLeast

@[simp] theorem operator?_operatorMark (op : AluOp) : (operatorMark op).operator? = some op := by
  cases op <;> rfl

theorem operatorMark_of_operator? {p : Punct} {op : AluOp} (h : p.operator? = some op) : operatorMark op = p := by
  cases p <;> cases h <;> rfl

def commaSeparated : List (List TokenKind) → List TokenKind
  | [] => []
  | first :: rest => first ++ rest.flatMap (.punct .comma :: ·)

mutual

def Expr.unparse : Expr → List TokenKind
  | .int n => [.number n]
  | .var name _ => [.ident name]
  | .call name args _ =>
    .ident name :: .punct .lparen :: (commaSeparated (Expr.unparseEach args) ++ [.punct .rparen])
  | .paren inner => .punct .lparen :: (inner.unparse ++ [.punct .rparen])
  | .binary left op right => left.unparse ++ .punct (operatorMark op) :: right.unparse

def Expr.unparseEach : List Expr → List (List TokenKind)
  | [] => []
  | e :: rest => e.unparse :: Expr.unparseEach rest

end

/-- The tokens of an expression that may be absent, after a mark that is written only with it. -/
def unparseOption (mark : List TokenKind) : Option Expr → List TokenKind
  | none => []
  | some e => mark ++ e.unparse

mutual

def Stmt.unparse : Stmt → List TokenKind
  | .scope body => .punct .lbrace :: (Stmt.unparseAll body ++ [.punct .rbrace])
  | .var name init _ =>
    .keyword .var :: .ident name :: (unparseOption [.punct .assign] init ++ [.punct .semicolon])
  | .assign name value _ => .ident name :: .punct .assign :: (value.unparse ++ [.punct .semicolon])
  | .write addr value => .keyword .write :: (addr.unparse ++ (value.unparse ++ [.punct .semicolon]))
  | .ret value => .keyword .ret :: (unparseOption [] value ++ [.punct .semicolon])
  | .cond test body => .keyword .cond :: (test.unparse ++ body.unparse)
  | .loop test body => .keyword .loop :: (test.unparse ++ body.unparse)
  | .expr value => value.unparse ++ [.punct .semicolon]

def Stmt.unparseAll : List Stmt → List TokenKind
  | [] => []
  | s :: rest => s.unparse ++ Stmt.unparseAll rest

end

def Decl.unparse : Decl → List TokenKind
  | .func name params body _ =>
    .keyword .func :: .ident name :: .punct .lparen ::
      (commaSeparated (params.map fun param => [.ident param]) ++ .punct .rparen :: .punct .lbrace ::
        (Stmt.unparseAll body ++ [.punct .rbrace]))
  | .global name => [.keyword .var, .ident name, .punct .semicolon]

def Tree.unparse (tree : Tree) : List TokenKind :=
  tree.flatMap Decl.unparse

def Expr.isBinary : Expr → Bool
  | .binary .. => true
  | _ => false

mutual

def Expr.leftFolded : Expr → Bool
  | .int _ => true
  | .var _ _ => true
  | .call _ args _ => Expr.allLeftFolded args
  | .paren inner => inner.leftFolded
  | .binary left _ right => left.leftFolded && right.leftFolded && !right.isBinary

def Expr.allLeftFolded : List Expr → Bool
  | [] => true
  | e :: rest => e.leftFolded && Expr.allLeftFolded rest

end

mutual

def Stmt.leftFolded : Stmt → Bool
  | .scope body => Stmt.allLeftFolded body
  | .var _ init _ => init.all Expr.leftFolded
  | .assign _ value _ => value.leftFolded
  | .write addr value => addr.leftFolded && value.leftFolded
  | .ret value => value.all Expr.leftFolded
  | .cond test body => test.leftFolded && body.leftFolded
  | .loop test body => test.leftFolded && body.leftFolded
  | .expr value => value.leftFolded

def Stmt.allLeftFolded : List Stmt → Bool
  | [] => true
  | s :: rest => s.leftFolded && Stmt.allLeftFolded rest

end

def Decl.leftFolded : Decl → Bool
  | .func _ _ body _ => Stmt.allLeftFolded body
  | .global _ => true

def Tree.leftFolded (tree : Tree) : Bool :=
  tree.all Decl.leftFolded

def mayMeet (before after : List TokenKind) : Bool :=
  match before.getLast?, after.head? with
  | some (.ident _), some (.punct .lparen) => false
  | _, _ => true

mutual

/-- No expression of a statement that ends with a name is followed directly by a part that begins with a
parenthesis. -/
def Stmt.unmerged : Stmt → Bool
  | .scope body => Stmt.allUnmerged body
  | .write addr value => mayMeet addr.unparse value.unparse
  | .cond test body => mayMeet test.unparse body.unparse && body.unmerged
  | .loop test body => mayMeet test.unparse body.unparse && body.unmerged
  | _ => true

def Stmt.allUnmerged : List Stmt → Bool
  | [] => true
  | s :: rest => s.unmerged && Stmt.allUnmerged rest

end

def Decl.unmerged : Decl → Bool
  | .func _ _ body _ => Stmt.allUnmerged body
  | .global _ => true

def Tree.unmerged (tree : Tree) : Bool :=
  tree.all Decl.unmerged

mutual

def Expr.unplaced : Expr → Expr
  | .int n => .int n
  | .var name _ => .var name 0
  | .call name args _ => .call name (Expr.allUnplaced args) 0
  | .paren inner => .paren inner.unplaced
  | .binary left op right => .binary left.unplaced op right.unplaced

def Expr.allUnplaced : List Expr → List Expr
  | [] => []
  | e :: rest => e.unplaced :: Expr.allUnplaced rest

end

mutual

def Stmt.unplaced : Stmt → Stmt
  | .scope body => .scope (Stmt.allUnplaced body)
  | .var name init _ => .var name (init.map Expr.unplaced) 0
  | .assign name value _ => .assign name value.unplaced 0
  | .write addr value => .write addr.unplaced value.unplaced
  | .ret value => .ret (value.map Expr.unplaced)
  | .cond test body => .cond test.unplaced body.unplaced
  | .loop test body => .loop test.unplaced body.unplaced
  | .expr value => .expr value.unplaced

def Stmt.allUnplaced : List Stmt → List Stmt
  | [] => []
  | s :: rest => s.unplaced :: Stmt.allUnplaced rest

end

def Decl.unplaced : Decl → Decl
  | .func name params body _ => .func name params (Stmt.allUnplaced body) 0
  | .global name => .global name

def Tree.unplaced (tree : Tree) : Tree :=
  tree.map Decl.unplaced

private theorem endOfInput_not_mem_commaSeparated {parts : List (List TokenKind)}
    (h : ∀ part ∈ parts, .endOfInput ∉ part) : .endOfInput ∉ commaSeparated parts := by
  cases parts with
  | nil => simp [commaSeparated]
  | cons first rest =>
    simp only [commaSeparated, List.mem_append, List.mem_flatMap, List.mem_cons, reduceCtorEq, false_or, not_or,
      not_exists, not_and]
    exact ⟨h first (by simp), fun part hp => h part (by simp [hp])⟩

mutual

private theorem Expr.endOfInput_not_mem_unparse : (e : Expr) → .endOfInput ∉ e.unparse
  | .int n => by simp [Expr.unparse]
  | .var name offset => by simp [Expr.unparse]
  | .call name args offset => by
    simpa [Expr.unparse] using endOfInput_not_mem_commaSeparated (Expr.endOfInput_not_mem_unparseEach args)
  | .paren inner => by simpa [Expr.unparse] using inner.endOfInput_not_mem_unparse
  | .binary left op right => by
    simpa [Expr.unparse] using ⟨left.endOfInput_not_mem_unparse, right.endOfInput_not_mem_unparse⟩

private theorem Expr.endOfInput_not_mem_unparseEach :
    (args : List Expr) → ∀ part ∈ Expr.unparseEach args, .endOfInput ∉ part
  | [] => by simp [Expr.unparseEach]
  | e :: rest => by
    simpa [Expr.unparseEach] using ⟨e.endOfInput_not_mem_unparse, Expr.endOfInput_not_mem_unparseEach rest⟩

end

private theorem endOfInput_not_mem_unparseOption {mark : List TokenKind} (hm : .endOfInput ∉ mark) (e : Option Expr) :
    .endOfInput ∉ unparseOption mark e := by
  cases e with
  | none => simp [unparseOption]
  | some e => simpa [unparseOption] using ⟨hm, e.endOfInput_not_mem_unparse⟩

mutual

private theorem Stmt.endOfInput_not_mem_unparse : (s : Stmt) → .endOfInput ∉ s.unparse
  | .scope body => by simpa [Stmt.unparse] using Stmt.endOfInput_not_mem_unparseAll body
  | .var name init offset => by
    simpa [Stmt.unparse] using endOfInput_not_mem_unparseOption (by simp) init
  | .assign name value offset => by simpa [Stmt.unparse] using value.endOfInput_not_mem_unparse
  | .write addr value => by
    simpa [Stmt.unparse] using ⟨addr.endOfInput_not_mem_unparse, value.endOfInput_not_mem_unparse⟩
  | .ret value => by simpa [Stmt.unparse] using endOfInput_not_mem_unparseOption (by simp) value
  | .cond test body => by
    simpa [Stmt.unparse] using ⟨test.endOfInput_not_mem_unparse, body.endOfInput_not_mem_unparse⟩
  | .loop test body => by
    simpa [Stmt.unparse] using ⟨test.endOfInput_not_mem_unparse, body.endOfInput_not_mem_unparse⟩
  | .expr value => by simpa [Stmt.unparse] using value.endOfInput_not_mem_unparse

private theorem Stmt.endOfInput_not_mem_unparseAll : (body : List Stmt) → .endOfInput ∉ Stmt.unparseAll body
  | [] => by simp [Stmt.unparseAll]
  | s :: rest => by
    simpa [Stmt.unparseAll] using ⟨s.endOfInput_not_mem_unparse, Stmt.endOfInput_not_mem_unparseAll rest⟩

end

theorem Tree.endOfInput_not_mem_unparse (tree : Tree) : .endOfInput ∉ Tree.unparse tree := by
  simp only [Tree.unparse, List.mem_flatMap, not_exists, not_and]
  intro decl _
  cases decl with
  | func name params body offset =>
    have hp : .endOfInput ∉ commaSeparated (params.map fun param => [TokenKind.ident param]) := by
      apply endOfInput_not_mem_commaSeparated
      simp
    simpa [Decl.unparse] using ⟨hp, Stmt.endOfInput_not_mem_unparseAll body⟩
  | global name => simp [Decl.unparse]

end StackToolchain.Source
