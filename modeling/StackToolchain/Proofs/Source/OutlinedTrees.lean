import StackToolchain.Proofs.Source.Outlines
import StackToolchain.Proofs.Source.Respelling
import StackToolchain.Proofs.Source.Unparsing
import StackToolchain.Proofs.Text.Columns

/-! An outline determines the syntax tree that it shows, but for offsets.
Indentation tells which lines stand below which, and the texts of the lines tell the nodes of the tree apart: where an
expression stands, a constant, a name, a call, parentheses and an operator look different, and where a statement stands,
the first word does. So a name may well be a word that begins the line of a statement. -/
namespace StackToolchain.Source

open Text (isName isNameStart isNameChar)
open Outline (IsText)

mutual

def Expr.names : Expr → List String
  | .int _ => []
  | .var name _ => [name]
  | .call name args _ => name :: Expr.allNames args
  | .paren inner => inner.names
  | .binary left _ right => left.names ++ right.names

def Expr.allNames : List Expr → List String
  | [] => []
  | e :: rest => e.names ++ Expr.allNames rest

end

def optionNames : Option Expr → List String
  | none => []
  | some e => e.names

mutual

def Stmt.names : Stmt → List String
  | .scope body => Stmt.allNames body
  | .var name init _ => name :: optionNames init
  | .assign name value _ => name :: value.names
  | .write addr value => addr.names ++ value.names
  | .ret value => optionNames value
  | .cond test body => test.names ++ body.names
  | .loop test body => test.names ++ body.names
  | .expr value => value.names

def Stmt.allNames : List Stmt → List String
  | [] => []
  | s :: rest => s.names ++ Stmt.allNames rest

end

def Decl.names : Decl → List String
  | .func name params body _ => name :: (params ++ Stmt.allNames body)
  | .global name => [name]

def Tree.names (tree : Tree) : List String :=
  tree.flatMap Decl.names

def AllNames (names : List String) : Prop :=
  ∀ name ∈ names, isName name.toList = true

private theorem notMem_of_isName {c : Char} {name : String} (hc : isNameChar c = false)
    (h : isName name.toList = true) : c ∉ name.toList := by
  intro hmem
  have hchar := List.all_eq_true.mp (Text.all_isNameChar_of_isName h) c hmem
  rw [hc] at hchar
  cases hchar

private theorem space_le_of_isName {name : String} (h : isName name.toList = true) : ∀ c ∈ name.toList, ' ' ≤ c := by
  intro c hc
  have hchar := List.all_eq_true.mp (Text.all_isNameChar_of_isName h) c hc
  have hle : 0x20 ≤ c.toNat := by
    rcases Text.isNameChar_iff.mp hchar with hstart | hdigit
    · have := Text.isNameStart_iff.mp hstart
      omega
    · have : 48 ≤ c.toNat ∧ c.toNat ≤ 57 := Char.isDigit_iff_toNat.mp hdigit
      omega
  exact hle

private theorem isText_of_isName {name : String} (h : isName name.toList = true) : IsText name := by
  refine ⟨fun hspace => ?_, space_le_of_isName h⟩
  exact notMem_of_isName (by decide) h (List.mem_of_head? hspace)

private theorem isText_toString (n : Nat) : IsText (toString n) := by
  have hdigit : ∀ c ∈ (toString n).toList, c.isDigit = true := by
    rw [Text.toList_toString_nat]
    exact fun c => Text.isDigit_of_mem_toDigits
  refine ⟨fun hspace => ?_, fun c hc => ?_⟩
  · exact absurd (hdigit ' ' (List.mem_of_head? hspace)) (by decide)
  · have hrange : 48 ≤ c.toNat ∧ c.toNat ≤ 57 := Char.isDigit_iff_toNat.mp (hdigit c hc)
    have hle : 0x20 ≤ c.toNat := by omega
    exact hle

private theorem isText_sign (op : AluOp) : IsText op.sign := by
  cases op <;> simp [IsText, AluOp.sign]

private theorem isText_append {front back : String} (hfront : IsText front) (hne : front.toList ≠ [])
    (hback : ∀ c ∈ back.toList, ' ' ≤ c) : IsText (front ++ back) := by
  constructor
  · rw [String.toList_append, List.head?_append_of_ne_nil _ hne]
    exact hfront.1
  · rw [String.toList_append, List.forall_mem_append]
    exact ⟨hfront.2, hback⟩

private theorem isText_named {keyword name : String} (hkeyword : IsText keyword) (hne : keyword.toList ≠ [])
    (h : isName name.toList = true) : IsText (keyword ++ name) :=
  isText_append hkeyword hne (space_le_of_isName h)

private theorem mem_joined {c : Char} {params : List String} (h : c ∈ (", ".intercalate params).toList) :
    (c = ',' ∨ c = ' ') ∨ ∃ param ∈ params, c ∈ param.toList := by
  rw [String.toList_intercalate] at h
  rcases Text.mem_intercalate h with hsep | ⟨part, hpart, hmem⟩
  · exact .inl (by simpa using hsep)
  · obtain ⟨param, hparam, rfl⟩ := List.mem_map.mp hpart
    exact .inr ⟨param, hparam, hmem⟩

private theorem isText_funcHeading {name : String} {params : List String} (hname : isName name.toList = true)
    (hparams : AllNames params) : IsText (funcHeading name params) := by
  have hjoined : ∀ c ∈ (", ".intercalate params).toList, ' ' ≤ c := by
    intro c hc
    rcases mem_joined hc with (rfl | rfl) | ⟨param, hparam, hmem⟩
    · decide
    · decide
    · exact space_le_of_isName (hparams param hparam) c hmem
  have hback : ∀ c ∈ (name ++ ("(" ++ (", ".intercalate params ++ ")"))).toList, ' ' ≤ c := by
    simp only [String.toList_append, List.forall_mem_append]
    exact ⟨space_le_of_isName hname, by simp, hjoined, by simp⟩
  rw [funcHeading, String.append_assoc, String.append_assoc, String.append_assoc]
  exact isText_append (by simp [IsText]) (by simp) hback

mutual

private theorem Expr.plain_outlineOnto : (e : Expr) → AllNames e.names → (next : Outline) → next.Plain →
    (e.outlineOnto next).Plain
  | .int n, _, next, hnext => ⟨isText_toString n.toNat, trivial, hnext⟩
  | .var name _, hn, next, hnext => ⟨isText_of_isName (hn name (.head _)), trivial, hnext⟩
  | .call name args _, hn, next, hnext => by
    obtain ⟨hname, hargs⟩ := List.forall_mem_cons.mp hn
    have hbelow := Expr.plain_outlineAllOnto args hargs .nothing trivial
    exact ⟨isText_named (by simp [IsText]) (by simp) hname, hbelow, hnext⟩
  | .paren inner, hn, next, hnext => ⟨by simp [IsText], inner.plain_outlineOnto hn .nothing trivial, hnext⟩
  | .binary left op right, hn, next, hnext => by
    obtain ⟨hleft, hright⟩ := List.forall_mem_append.mp hn
    exact ⟨isText_sign op, left.plain_outlineOnto hleft _ (right.plain_outlineOnto hright .nothing trivial), hnext⟩

private theorem Expr.plain_outlineAllOnto :
    (es : List Expr) → AllNames (Expr.allNames es) → (next : Outline) → next.Plain →
    (Expr.outlineAllOnto next es).Plain
  | [], _, next, hnext => hnext
  | e :: rest, hn, next, hnext => by
    obtain ⟨he, hrest⟩ := List.forall_mem_append.mp hn
    exact e.plain_outlineOnto he _ (Expr.plain_outlineAllOnto rest hrest next hnext)

end

private theorem plain_outlineOptionOnto {e : Option Expr} {next : Outline} (hn : AllNames (optionNames e))
    (hnext : next.Plain) : (outlineOptionOnto next e).Plain := by
  cases e with
  | none => exact hnext
  | some e => exact e.plain_outlineOnto hn next hnext

mutual

private theorem Stmt.plain_outlineOnto : (s : Stmt) → AllNames s.names → (next : Outline) → next.Plain →
    (s.outlineOnto next).Plain
  | .scope body, hn, next, hnext => ⟨by simp [IsText], Stmt.plain_outlineAllOnto body hn .nothing trivial, hnext⟩
  | .var name init _, hn, next, hnext => by
    obtain ⟨hname, hinit⟩ := List.forall_mem_cons.mp hn
    exact ⟨isText_named (by simp [IsText]) (by simp) hname, plain_outlineOptionOnto hinit trivial, hnext⟩
  | .assign name value _, hn, next, hnext => by
    obtain ⟨hname, hvalue⟩ := List.forall_mem_cons.mp hn
    exact ⟨isText_named (by simp [IsText]) (by simp) hname, value.plain_outlineOnto hvalue .nothing trivial, hnext⟩
  | .write addr value, hn, next, hnext => by
    obtain ⟨haddr, hvalue⟩ := List.forall_mem_append.mp hn
    exact ⟨by simp [IsText], addr.plain_outlineOnto haddr _ (value.plain_outlineOnto hvalue .nothing trivial), hnext⟩
  | .ret value, hn, next, hnext => ⟨by simp [IsText], plain_outlineOptionOnto hn trivial, hnext⟩
  | .cond test body, hn, next, hnext => by
    obtain ⟨htest, hbody⟩ := List.forall_mem_append.mp hn
    exact ⟨by simp [IsText], test.plain_outlineOnto htest _ (body.plain_outlineOnto hbody .nothing trivial), hnext⟩
  | .loop test body, hn, next, hnext => by
    obtain ⟨htest, hbody⟩ := List.forall_mem_append.mp hn
    exact ⟨by simp [IsText], test.plain_outlineOnto htest _ (body.plain_outlineOnto hbody .nothing trivial), hnext⟩
  | .expr value, hn, next, hnext => ⟨by simp [IsText], value.plain_outlineOnto hn .nothing trivial, hnext⟩

private theorem Stmt.plain_outlineAllOnto : (body : List Stmt) → AllNames (Stmt.allNames body) → (next : Outline) →
    next.Plain → (Stmt.outlineAllOnto next body).Plain
  | [], _, next, hnext => hnext
  | s :: rest, hn, next, hnext => by
    obtain ⟨hs, hrest⟩ := List.forall_mem_append.mp hn
    exact s.plain_outlineOnto hs _ (Stmt.plain_outlineAllOnto rest hrest next hnext)

end

private theorem Decl.plain_outlineOnto {decl : Decl} (hn : AllNames decl.names) {next : Outline} (hnext : next.Plain) :
    (decl.outlineOnto next).Plain := by
  cases decl with
  | func name params body offset =>
    obtain ⟨hname, hrest⟩ := List.forall_mem_cons.mp hn
    obtain ⟨hparams, hbody⟩ := List.forall_mem_append.mp hrest
    exact ⟨isText_funcHeading hname hparams, (Stmt.scope body).plain_outlineOnto hbody .nothing trivial, hnext⟩
  | global name => exact ⟨isText_named (by simp [IsText]) (by simp) (hn name (.head _)), trivial, hnext⟩

private theorem Tree.plain_outlineOnto {tree : Tree} (hn : AllNames (Tree.names tree)) :
    (Tree.outlineOnto tree).Plain := by
  induction tree with
  | nil => exact trivial
  | cons decl tree ih =>
    obtain ⟨hdecl, htree⟩ := List.forall_mem_append.mp hn
    exact decl.plain_outlineOnto hdecl (ih htree)

/-- The form of an expression that a text shows, by its first character and by whether a space is in it. -/
private def textForm : List Char → Nat
  | [] => 0
  | c :: rest =>
    if c.isDigit then 1 else if isNameStart c then (if ' ' ∈ rest then 3 else 2) else if c = '(' then 4 else 5

private def Expr.form : Expr → Nat
  | .int _ => 1
  | .var _ _ => 2
  | .call _ _ _ => 3
  | .paren _ => 4
  | .binary _ _ _ => 5

private def Expr.heading : Expr → String
  | .int n => toString n.toNat
  | .var name _ => name
  | .call name _ _ => "call " ++ name
  | .paren _ => "()"
  | .binary _ op _ => op.sign

private theorem textForm_toString (n : Nat) : textForm (toString n).toList = 1 := by
  rw [Text.toList_toString_nat]
  obtain ⟨c, rest, hdigits⟩ := List.exists_cons_of_ne_nil (Nat.toDigits_ne_nil (n := n) (b := 10))
  have hc : c.isDigit = true := Text.isDigit_of_mem_toDigits (n := n) (by rw [hdigits]; exact .head _)
  rw [hdigits, textForm, if_pos hc]

private theorem textForm_name {name : String} (h : isName name.toList = true) : textForm name.toList = 2 := by
  cases hlist : name.toList with
  | nil => simp [hlist, isName] at h
  | cons c rest =>
    rw [hlist, isName, Bool.and_eq_true] at h
    have hdigit : ¬ c.isDigit = true := by
      have hrange := Text.isNameStart_iff.mp h.1
      rw [Char.isDigit_iff_toNat]
      change ¬ (48 ≤ c.toNat ∧ c.toNat ≤ 57)
      omega
    have hspace : ' ' ∉ rest := fun hmem => absurd (List.all_eq_true.mp h.2 ' ' hmem) (by decide)
    rw [textForm, if_neg hdigit, if_pos h.1, if_neg hspace]

private theorem textForm_sign (op : AluOp) : textForm op.sign.toList = 5 := by
  cases op <;> decide

private theorem Expr.textForm_heading {e : Expr} (hn : AllNames e.names) : textForm e.heading.toList = e.form := by
  cases e with
  | int n => exact textForm_toString n.toNat
  | var name offset => exact textForm_name (hn name (.head _))
  | call name args offset =>
    have hstart : isNameStart 'c' = true := by decide
    simp [heading, textForm, form, hstart]
  | paren inner =>
    change textForm "()".toList = 4
    decide
  | binary left op right => exact textForm_sign op

private theorem sign_inj {op op' : AluOp} (h : op.sign = op'.sign) : op = op' := by
  have hfind (op : AluOp) : (AluOp.all.find? fun o => o.sign == op.sign) = some op := by cases op <;> decide
  exact Option.some.inj (by rw [← hfind op, h, hfind op'])

private theorem toString_toNat_inj {n n' : UInt16} (h : toString n.toNat = toString n'.toNat) : n = n' := by
  have hread := congrArg (fun text => Text.readWord? text.toList) h
  simpa only [Text.readWord?_toString, Option.some.injEq] using hread

private theorem Expr.outlineOnto_eq_line (next : Outline) (e : Expr) :
    ∃ below, e.outlineOnto next = .line e.heading below next := by
  cases e <;> exact ⟨_, rfl⟩

private theorem Expr.outlineOnto_ne_nothing (next : Outline) (e : Expr) : e.outlineOnto next ≠ .nothing := by
  cases e <;> simp [outlineOnto]

private theorem Expr.form_eq {e e' : Expr} {next next' : Outline} (hn : AllNames e.names) (hn' : AllNames e'.names)
    (h : e.outlineOnto next = e'.outlineOnto next') : e.form = e'.form := by
  obtain ⟨below, hline⟩ := e.outlineOnto_eq_line next
  obtain ⟨below', hline'⟩ := e'.outlineOnto_eq_line next'
  rw [hline, hline'] at h
  rw [← textForm_heading hn, ← textForm_heading hn', (Outline.line.inj h).1]

private def Stmt.firstWord : Stmt → String
  | .scope _ => "scope"
  | .var _ _ _ => "var"
  | .assign _ _ _ => "assign"
  | .write _ _ => "write"
  | .ret _ => "return"
  | .cond _ _ => "if"
  | .loop _ _ => "while"
  | .expr _ => "expr"

private theorem Stmt.outlineOnto_eq_line (next : Outline) (s : Stmt) : ∃ text below,
    s.outlineOnto next = .line text below next ∧ text.toList.takeWhile (· != ' ') = s.firstWord.toList := by
  cases s <;> refine ⟨_, _, rfl, ?_⟩ <;> simp [firstWord]

private theorem Stmt.outlineOnto_ne_nothing (next : Outline) (s : Stmt) : s.outlineOnto next ≠ .nothing := by
  cases s <;> simp [outlineOnto]

private theorem Stmt.firstWord_eq {s s' : Stmt} {next next' : Outline} (h : s.outlineOnto next = s'.outlineOnto next') :
    s.firstWord = s'.firstWord := by
  obtain ⟨text, below, hline, hword⟩ := s.outlineOnto_eq_line next
  obtain ⟨text', below', hline', hword'⟩ := s'.outlineOnto_eq_line next'
  rw [hline, hline'] at h
  rw [← String.toList_inj, ← hword, ← hword', (Outline.line.inj h).1]

mutual

private theorem Expr.outlineOnto_inj : (e e' : Expr) → AllNames e.names → AllNames e'.names → (next next' : Outline) →
    e.outlineOnto next = e'.outlineOnto next' → e.unplaced = e'.unplaced ∧ next = next'
  | .int n, e', hn, hn', next, next', h => by
    have hform := form_eq hn hn' h
    cases e' with
    | int n' =>
      obtain ⟨htext, -, hnext⟩ := Outline.line.inj h
      rw [toString_toNat_inj htext]
      exact ⟨rfl, hnext⟩
    | _ => simp [form] at hform
  | .var name _, e', hn, hn', next, next', h => by
    have hform := form_eq hn hn' h
    cases e' with
    | var name' _ =>
      obtain ⟨htext, -, hnext⟩ := Outline.line.inj h
      rw [unplaced, unplaced, htext]
      exact ⟨rfl, hnext⟩
    | _ => simp [form] at hform
  | .call name args _, e', hn, hn', next, next', h => by
    have hform := form_eq hn hn' h
    cases e' with
    | call name' args' _ =>
      obtain ⟨htext, hbelow, hnext⟩ := Outline.line.inj h
      have hargs := outlineAllOnto_inj args args' (List.forall_mem_cons.mp hn).2 (List.forall_mem_cons.mp hn').2 hbelow
      rw [unplaced, unplaced, (String.append_right_inj _).mp htext, hargs]
      exact ⟨rfl, hnext⟩
    | _ => simp [form] at hform
  | .paren inner, e', hn, hn', next, next', h => by
    have hform := form_eq hn hn' h
    cases e' with
    | paren inner' =>
      obtain ⟨-, hbelow, hnext⟩ := Outline.line.inj h
      rw [unplaced, unplaced, (outlineOnto_inj inner inner' hn hn' .nothing .nothing hbelow).1]
      exact ⟨rfl, hnext⟩
    | _ => simp [form] at hform
  | .binary left op right, e', hn, hn', next, next', h => by
    have hform := form_eq hn hn' h
    cases e' with
    | binary left' op' right' =>
      obtain ⟨htext, hbelow, hnext⟩ := Outline.line.inj h
      obtain ⟨hnl, hnr⟩ := List.forall_mem_append.mp hn
      obtain ⟨hnl', hnr'⟩ := List.forall_mem_append.mp hn'
      obtain ⟨hleft, hrest⟩ := outlineOnto_inj left left' hnl hnl' _ _ hbelow
      obtain ⟨hright, -⟩ := outlineOnto_inj right right' hnr hnr' _ _ hrest
      rw [unplaced, unplaced, hleft, sign_inj htext, hright]
      exact ⟨rfl, hnext⟩
    | _ => simp [form] at hform

private theorem Expr.outlineAllOnto_inj :
    (es es' : List Expr) → AllNames (Expr.allNames es) → AllNames (Expr.allNames es') →
    Expr.outlineAllOnto .nothing es = Expr.outlineAllOnto .nothing es' → Expr.allUnplaced es = Expr.allUnplaced es'
  | [], [], _, _, _ => rfl
  | [], e' :: _, _, _, h => absurd h.symm (e'.outlineOnto_ne_nothing _)
  | e :: _, [], _, _, h => absurd h (e.outlineOnto_ne_nothing _)
  | e :: rest, e' :: rest', hn, hn', h => by
    obtain ⟨hne, hnr⟩ := List.forall_mem_append.mp hn
    obtain ⟨hne', hnr'⟩ := List.forall_mem_append.mp hn'
    obtain ⟨he, hrest⟩ := outlineOnto_inj e e' hne hne' _ _ h
    rw [allUnplaced, allUnplaced, he, outlineAllOnto_inj rest rest' hnr hnr' hrest]

end

private theorem outlineOptionOnto_inj {e e' : Option Expr} (hn : AllNames (optionNames e))
    (hn' : AllNames (optionNames e')) (h : outlineOptionOnto .nothing e = outlineOptionOnto .nothing e') :
    e.map Expr.unplaced = e'.map Expr.unplaced := by
  cases e with
  | none =>
    cases e' with
    | none => rfl
    | some e' => exact absurd h.symm (e'.outlineOnto_ne_nothing _)
  | some e =>
    cases e' with
    | none => exact absurd h (e.outlineOnto_ne_nothing _)
    | some e' => exact congrArg some (Expr.outlineOnto_inj e e' hn hn' .nothing .nothing h).1

mutual

private theorem Stmt.outlineOnto_inj : (s s' : Stmt) → AllNames s.names → AllNames s'.names → (next next' : Outline) →
    s.outlineOnto next = s'.outlineOnto next' → s.unplaced = s'.unplaced ∧ next = next'
  | .scope body, s', hn, hn', next, next', h => by
    have hword := firstWord_eq h
    cases s' with
    | scope body' =>
      obtain ⟨-, hbelow, hnext⟩ := Outline.line.inj h
      rw [unplaced, unplaced, outlineAllOnto_inj body body' hn hn' hbelow]
      exact ⟨rfl, hnext⟩
    | _ => simp [firstWord] at hword
  | .var name init _, s', hn, hn', next, next', h => by
    have hword := firstWord_eq h
    cases s' with
    | var name' init' _ =>
      obtain ⟨htext, hbelow, hnext⟩ := Outline.line.inj h
      have hinit := outlineOptionOnto_inj (List.forall_mem_cons.mp hn).2 (List.forall_mem_cons.mp hn').2 hbelow
      rw [unplaced, unplaced, (String.append_right_inj _).mp htext, hinit]
      exact ⟨rfl, hnext⟩
    | _ => simp [firstWord] at hword
  | .assign name value _, s', hn, hn', next, next', h => by
    have hword := firstWord_eq h
    cases s' with
    | assign name' value' _ =>
      obtain ⟨htext, hbelow, hnext⟩ := Outline.line.inj h
      have hvalue := Expr.outlineOnto_inj value value' (List.forall_mem_cons.mp hn).2 (List.forall_mem_cons.mp hn').2
        .nothing .nothing hbelow
      rw [unplaced, unplaced, (String.append_right_inj _).mp htext, hvalue.1]
      exact ⟨rfl, hnext⟩
    | _ => simp [firstWord] at hword
  | .write addr value, s', hn, hn', next, next', h => by
    have hword := firstWord_eq h
    cases s' with
    | write addr' value' =>
      obtain ⟨-, hbelow, hnext⟩ := Outline.line.inj h
      obtain ⟨hna, hnv⟩ := List.forall_mem_append.mp hn
      obtain ⟨hna', hnv'⟩ := List.forall_mem_append.mp hn'
      obtain ⟨haddr, hrest⟩ := Expr.outlineOnto_inj addr addr' hna hna' _ _ hbelow
      obtain ⟨hvalue, -⟩ := Expr.outlineOnto_inj value value' hnv hnv' _ _ hrest
      rw [unplaced, unplaced, haddr, hvalue]
      exact ⟨rfl, hnext⟩
    | _ => simp [firstWord] at hword
  | .ret value, s', hn, hn', next, next', h => by
    have hword := firstWord_eq h
    cases s' with
    | ret value' =>
      obtain ⟨-, hbelow, hnext⟩ := Outline.line.inj h
      rw [unplaced, unplaced, outlineOptionOnto_inj hn hn' hbelow]
      exact ⟨rfl, hnext⟩
    | _ => simp [firstWord] at hword
  | .cond test body, s', hn, hn', next, next', h => by
    have hword := firstWord_eq h
    cases s' with
    | cond test' body' =>
      obtain ⟨-, hbelow, hnext⟩ := Outline.line.inj h
      obtain ⟨hnt, hnb⟩ := List.forall_mem_append.mp hn
      obtain ⟨hnt', hnb'⟩ := List.forall_mem_append.mp hn'
      obtain ⟨htest, hrest⟩ := Expr.outlineOnto_inj test test' hnt hnt' _ _ hbelow
      obtain ⟨hbody, -⟩ := outlineOnto_inj body body' hnb hnb' _ _ hrest
      rw [unplaced, unplaced, htest, hbody]
      exact ⟨rfl, hnext⟩
    | _ => simp [firstWord] at hword
  | .loop test body, s', hn, hn', next, next', h => by
    have hword := firstWord_eq h
    cases s' with
    | loop test' body' =>
      obtain ⟨-, hbelow, hnext⟩ := Outline.line.inj h
      obtain ⟨hnt, hnb⟩ := List.forall_mem_append.mp hn
      obtain ⟨hnt', hnb'⟩ := List.forall_mem_append.mp hn'
      obtain ⟨htest, hrest⟩ := Expr.outlineOnto_inj test test' hnt hnt' _ _ hbelow
      obtain ⟨hbody, -⟩ := outlineOnto_inj body body' hnb hnb' _ _ hrest
      rw [unplaced, unplaced, htest, hbody]
      exact ⟨rfl, hnext⟩
    | _ => simp [firstWord] at hword
  | .expr value, s', hn, hn', next, next', h => by
    have hword := firstWord_eq h
    cases s' with
    | expr value' =>
      obtain ⟨-, hbelow, hnext⟩ := Outline.line.inj h
      rw [unplaced, unplaced, (Expr.outlineOnto_inj value value' hn hn' _ _ hbelow).1]
      exact ⟨rfl, hnext⟩
    | _ => simp [firstWord] at hword

private theorem Stmt.outlineAllOnto_inj : (body body' : List Stmt) → AllNames (Stmt.allNames body) →
    AllNames (Stmt.allNames body') → Stmt.outlineAllOnto .nothing body = Stmt.outlineAllOnto .nothing body' →
      Stmt.allUnplaced body = Stmt.allUnplaced body'
  | [], [], _, _, _ => rfl
  | [], s' :: _, _, _, h => absurd h.symm (s'.outlineOnto_ne_nothing _)
  | s :: _, [], _, _, h => absurd h (s.outlineOnto_ne_nothing _)
  | s :: rest, s' :: rest', hn, hn', h => by
    obtain ⟨hns, hnr⟩ := List.forall_mem_append.mp hn
    obtain ⟨hns', hnr'⟩ := List.forall_mem_append.mp hn'
    obtain ⟨hs, hrest⟩ := outlineOnto_inj s s' hns hns' _ _ h
    rw [allUnplaced, allUnplaced, hs, outlineAllOnto_inj rest rest' hnr hnr' hrest]

end

/-- A name is not empty and has no comma, so names are found again between commas. -/
theorem joined_inj {params params' : List String} (hparams : AllNames params) (hparams' : AllNames params')
    (h : ", ".intercalate params = ", ".intercalate params') : params = params' := by
  have hparts {params : List String} (hparams : AllNames params) :
      ∀ part ∈ params.map String.toList, part ≠ [] ∧ ',' ∉ part := by
    intro part hpart
    obtain ⟨param, hparam, rfl⟩ := List.mem_map.mp hpart
    have hname := hparams param hparam
    refine ⟨fun hnil => ?_, notMem_of_isName (by decide) hname⟩
    rw [hnil] at hname
    cases hname
  rw [← String.toList_inj, String.toList_intercalate, String.toList_intercalate] at h
  have hmap := Text.intercalate_inj (hparts hparams) (hparts hparams') h
  exact List.map_injective_iff.mpr (fun _ _ => String.toList_inj.mp) hmap

private theorem funcHeading_inj {name name' : String} {params params' : List String} (hname : isName name.toList = true)
    (hparams : AllNames params) (hparams' : AllNames params')
    (h : funcHeading name params = funcHeading name' params') : name = name' ∧ params = params' := by
  have htext (name : String) (params : List String) : (funcHeading name params).toList =
      "func ".toList ++ (name.toList ++ '(' :: ((", ".intercalate params).toList ++ [')'])) := by
    simp [funcHeading]
  -- the parenthesis that opens the parameters is the only one of its kind
  have hopen : '(' ∉ (", ".intercalate params).toList ++ [')'] := by
    rw [List.mem_append]
    rintro (hmem | hmem)
    · rcases mem_joined hmem with hsep | ⟨param, hparam, hmem⟩
      · simp at hsep
      · exact notMem_of_isName (by decide) (hparams param hparam) hmem
    · simp at hmem
  rw [← String.toList_inj, htext, htext, List.append_cancel_left_eq,
    List.append_cons_inj_of_notMem (notMem_of_isName (by decide) hname) hopen] at h
  obtain ⟨hsame, -, hjoined⟩ := h
  have hparts := String.toList_inj.mp (List.append_cancel_right hjoined)
  exact ⟨String.toList_inj.mp hsame, joined_inj hparams hparams' hparts⟩

private theorem Decl.outlineOnto_inj {decl decl' : Decl} {next next' : Outline} (hn : AllNames decl.names)
    (hn' : AllNames decl'.names) (h : decl.outlineOnto next = decl'.outlineOnto next') :
    decl.unplaced = decl'.unplaced ∧ next = next' := by
  cases decl with
  | func name params body offset =>
    cases decl' with
    | func name' params' body' offset' =>
      obtain ⟨htext, hbelow, hnext⟩ := Outline.line.inj h
      obtain ⟨hname, hrest⟩ := List.forall_mem_cons.mp hn
      obtain ⟨-, hrest'⟩ := List.forall_mem_cons.mp hn'
      obtain ⟨hparams, hbody⟩ := List.forall_mem_append.mp hrest
      obtain ⟨hparams', hbody'⟩ := List.forall_mem_append.mp hrest'
      obtain ⟨rfl, rfl⟩ := funcHeading_inj hname hparams hparams' htext
      have hscope := Stmt.outlineAllOnto_inj body body' hbody hbody' (Outline.line.inj hbelow).2.1
      rw [unplaced, unplaced, hscope]
      exact ⟨rfl, hnext⟩
    | global name' => simp [outlineOnto, funcHeading, ← String.toList_inj] at h
  | global name =>
    cases decl' with
    | func name' params' body' offset' => simp [outlineOnto, funcHeading, ← String.toList_inj] at h
    | global name' =>
      obtain ⟨htext, -, hnext⟩ := Outline.line.inj h
      rw [(String.append_right_inj _).mp htext]
      exact ⟨rfl, hnext⟩

private theorem Tree.outlineOnto_inj {tree tree' : Tree} (hn : AllNames (Tree.names tree))
    (hn' : AllNames (Tree.names tree'))
    (h : Tree.outlineOnto tree = Tree.outlineOnto tree') : Tree.unplaced tree = Tree.unplaced tree' := by
  induction tree generalizing tree' with
  | nil =>
    cases tree' with
    | nil => rfl
    | cons decl' tree' => cases decl' <;> cases h
  | cons decl tree ih =>
    cases tree' with
    | nil => cases decl <;> cases h
    | cons decl' tree' =>
      obtain ⟨hdecl, htree⟩ := List.forall_mem_append.mp hn
      obtain ⟨hdecl', htree'⟩ := List.forall_mem_append.mp hn'
      obtain ⟨hsame, hnext⟩ := Decl.outlineOnto_inj hdecl hdecl' h
      rw [unplaced, unplaced, List.map_cons, List.map_cons, hsame]
      exact congrArg _ (ih htree htree' hnext)

/-- Two sources whose names are names and not reserved words have the same outline only if they are the same but for
offsets. -/
theorem outline_determines_tree {tree tree' : Tree}
    (hn : ∀ name ∈ Tree.names tree, (TokenKind.ident name).Spellable)
    (hn' : ∀ name ∈ Tree.names tree', (TokenKind.ident name).Spellable)
    (h : Tree.outline tree = Tree.outline tree') : Tree.unplaced tree = Tree.unplaced tree' := by
  have hnames : AllNames (Tree.names tree) := fun name hname => (hn name hname).1
  have hnames' : AllNames (Tree.names tree') := fun name hname => (hn' name hname).1
  rw [Tree.outline_eq_unlines, Tree.outline_eq_unlines] at h
  refine Tree.outlineOnto_inj hnames hnames' ?_
  exact Outline.unlines_rows_inj (Tree.plain_outlineOnto hnames) (Tree.plain_outlineOnto hnames') h

/-- A source whose names are the first words of lines. -/
def headingTree (offset : Nat) : Tree :=
  [.global "call",
    .func "expr" ["scope", "call"]
      [.var "scope" (some (.call "assign" [.var "scope" offset, .int 7] offset)) offset, .var "global" none offset,
        .cond (.var "expr" offset) (.scope []), .ret none] offset]

theorem outline_determines_tree_of_headings :
    Tree.outline (headingTree 0) = "global call\nfunc expr(scope, call)\n    scope\n        var scope\n            " ++
      "call assign\n                scope\n                7\n        var global\n        if\n            expr\n" ++
      "            scope\n        return\n" ∧
      Tree.outline (headingTree 0) = Tree.outline (headingTree 9) ∧
        Tree.unplaced (headingTree 0) = Tree.unplaced (headingTree 9) := by
  have hnames (offset : Nat) : ∀ name ∈ Tree.names (headingTree offset), (TokenKind.ident name).Spellable := by
    change ∀ name ∈ ["call", "expr", "scope", "call", "scope", "assign", "scope", "global", "expr"],
      isName name.toList = true ∧ name ∉ Keyword.all.map Keyword.text
    decide
  exact ⟨by decide +kernel, rfl, outline_determines_tree (hnames 0) (hnames 9) rfl⟩

end StackToolchain.Source
