import StackToolchain.Proofs.Text.Reading
import StackToolchain.Source.Comment

/-! The comments of a source.
A source is a sequence of characters of code and of comments. Blanking keeps the code, and puts in the place of a
comment blanks of the same width, with its newlines where they were. -/
namespace StackToolchain

namespace Text

@[simp] theorem byteWidth_nil : byteWidth [] = 0 := rfl

theorem byteWidth_eq_sum (text : List Char) : byteWidth text = (text.map Char.utf8Size).sum := by
  rw [List.sum_eq_foldl, List.foldl_map, byteWidth]

@[simp] theorem byteWidth_cons (c : Char) (text : List Char) : byteWidth (c :: text) = c.utf8Size + byteWidth text := by
  rw [byteWidth_eq_sum, byteWidth_eq_sum, List.map_cons, List.sum_cons]

@[simp] theorem byteWidth_append (text more : List Char) :
    byteWidth (text ++ more) = byteWidth text + byteWidth more := by
  rw [byteWidth_eq_sum, byteWidth_eq_sum, byteWidth_eq_sum, List.map_append, List.sum_append]

theorem byteWidth_toList (s : String) : byteWidth s.toList = s.utf8ByteSize := by
  rw [← String.ofList_toList (s := s), String.utf8ByteSize_ofList, String.toList_ofList, byteWidth_eq_sum]
  induction s.toList with
  | nil => rfl
  | cons c rest ih => rw [List.map_cons, List.sum_cons, ih, String.utf8Len_cons, Nat.add_comm]

def RestAt (text : List Char) (offset : Nat) (rest : List Char) : Prop :=
  ∃ before, text = before ++ rest ∧ byteWidth before = offset

theorem RestAt.drop {text more rest : List Char} {offset : Nat} (h : RestAt text offset (more ++ rest)) :
    RestAt text (offset + byteWidth more) rest := by
  obtain ⟨before, rfl, rfl⟩ := h
  exact ⟨before ++ more, by rw [List.append_assoc], byteWidth_append before more⟩

theorem RestAt.tail {text rest : List Char} {c : Char} {offset : Nat} (h : RestAt text offset (c :: rest)) :
    RestAt text (offset + c.utf8Size) rest := by
  have hdrop : RestAt text (offset + byteWidth [c]) rest := h.drop
  rwa [byteWidth_cons] at hdrop

theorem RestAt.le_byteWidth {text rest : List Char} {offset : Nat} (h : RestAt text offset rest) :
    offset ≤ byteWidth text := by
  obtain ⟨before, rfl, rfl⟩ := h
  rw [byteWidth_append]
  exact Nat.le_add_right _ _

theorem RestAt.isValid {source : String} {rest : List Char} {offset : Nat} (h : RestAt source.toList offset rest) :
    String.Pos.Raw.IsValid source ⟨offset⟩ := by
  obtain ⟨before, hsource, rfl⟩ := h
  refine String.Pos.Raw.isValid_iff_exists_append.mpr ⟨String.ofList before, String.ofList rest, ?_, ?_⟩
  · rw [← String.ofList_append, ← hsource, String.ofList_toList]
  · rw [← String.toList_ofList (l := before), byteWidth_toList, String.toList_ofList]
    rfl

end Text

namespace Source

open Text (isBlank isNameChar byteWidth)

def BeginsBlockMark (text : List Char) : Prop :=
  ['/', '*'] <+: text ∨ ['*', '/'] <+: text

def BeginsMark (text : List Char) : Prop :=
  ['/', '/'] <+: text ∨ BeginsBlockMark text

/-- The rest of a comment with a number of comments open inside it, up to and including the mark that closes it. -/
inductive Closes : Nat → List Char → Prop
  | last : Closes 0 ['*', '/']
  | close {depth text} : Closes depth text → Closes (depth + 1) ('*' :: '/' :: text)
  | opening {depth text} : Closes (depth + 1) text → Closes depth ('/' :: '*' :: text)
  | char {depth c text} : ¬BeginsBlockMark (c :: text) → Closes depth text → Closes depth (c :: text)

inductive Comment : List Char → List Char → Prop
  | line {text rest} : '\n' ∉ text → (rest = [] ∨ rest.head? = some '\n') → Comment ('/' :: '/' :: text) rest
  | block {text rest} : Closes 0 text → Comment ('/' :: '*' :: text) rest

def blanked (text : List Char) : List Char :=
  text.flatMap fun c => if c = '\n' then ['\n'] else blankOf c

inductive Strips : List Char → List Char → Prop
  | nil : Strips [] []
  | code {c rest text} : ¬BeginsMark (c :: rest) → Strips rest text → Strips (c :: rest) (c :: text)
  | comment {comment rest text} : Comment comment rest → Strips rest text →
      Strips (comment ++ rest) (blanked comment ++ text)

theorem BeginsBlockMark.append {text : List Char} (h : BeginsBlockMark text) (rest : List Char) :
    BeginsBlockMark (text ++ rest) :=
  h.imp (·.trans (List.prefix_append text rest)) (·.trans (List.prefix_append text rest))

theorem BeginsMark.append {text : List Char} (h : BeginsMark text) (rest : List Char) : BeginsMark (text ++ rest) :=
  h.imp (·.trans (List.prefix_append text rest)) (·.append rest)

theorem not_beginsBlockMark {c : Char} {rest : List Char} (hopen : ∀ r, c = '/' → rest = '*' :: r → False)
    (hclose : ∀ r, c = '*' → rest = '/' :: r → False) : ¬BeginsBlockMark (c :: rest) := by
  rintro (⟨r, hr⟩ | ⟨r, hr⟩)
  · obtain ⟨hc, hrest⟩ := List.cons.inj hr
    exact hopen r hc.symm hrest.symm
  · obtain ⟨hc, hrest⟩ := List.cons.inj hr
    exact hclose r hc.symm hrest.symm

theorem not_beginsMark {c : Char} {rest : List Char} (hline : ∀ r, c = '/' → rest = '/' :: r → False)
    (hopen : ∀ r, c = '/' → rest = '*' :: r → False) (hclose : ∀ r, c = '*' → rest = '/' :: r → False) :
    ¬BeginsMark (c :: rest) := by
  rintro (⟨r, hr⟩ | h)
  · obtain ⟨hc, hrest⟩ := List.cons.inj hr
    exact hline r hc.symm hrest.symm
  · exact not_beginsBlockMark hopen hclose h

private theorem not_beginsMark_newline (rest : List Char) : ¬BeginsMark ('\n' :: rest) :=
  not_beginsMark (by simp) (by simp) (by simp)

@[simp] theorem blanked_nil : blanked [] = [] := rfl

@[simp] theorem blanked_newline (text : List Char) : blanked ('\n' :: text) = '\n' :: blanked text := rfl

theorem blanked_cons {c : Char} (hc : c ≠ '\n') (text : List Char) :
    blanked (c :: text) = blankOf c ++ blanked text := by
  rw [blanked, List.flatMap_cons, if_neg hc, ← blanked]

@[simp] theorem reverse_blankOf (c : Char) : (blankOf c).reverse = blankOf c :=
  List.reverse_replicate

private theorem isBlank_of_mem_blankOf {c d : Char} (h : d ∈ blankOf c) : isBlank d = true := by
  rw [List.eq_of_mem_replicate h]
  rfl

theorem isBlank_of_mem_blanked {text : List Char} {d : Char} (h : d ∈ blanked text) : isBlank d = true := by
  obtain ⟨c, -, hd⟩ := List.mem_flatMap.mp h
  split at hd
  · rw [List.mem_singleton.mp hd]
    rfl
  · exact isBlank_of_mem_blankOf hd

private theorem byteWidth_blankOf (c : Char) : byteWidth (blankOf c) = c.utf8Size := by
  rw [Text.byteWidth_eq_sum, blankOf, List.map_replicate, List.sum_replicate]
  exact Nat.mul_one _

@[simp] theorem byteWidth_blanked (text : List Char) : byteWidth (blanked text) = byteWidth text := by
  induction text with
  | nil => rfl
  | cons c rest ih =>
    by_cases hc : c = '\n'
    · rw [hc, blanked_newline, Text.byteWidth_cons, Text.byteWidth_cons, ih]
    · rw [blanked_cons hc, Text.byteWidth_append, byteWidth_blankOf, ih, Text.byteWidth_cons]

theorem blankFrom_code {c : Char} {rest : List Char} (h : ¬BeginsMark (c :: rest)) (offset : Nat) (done : List Char) :
    blankFrom .code offset done (c :: rest) = blankFrom .code (offset + c.utf8Size) (c :: done) rest := by
  rw [blankFrom]
  · split
    · rename_i hc
      rw [hc]
      rfl
    · rfl
  · rintro tail rfl rfl
    exact h (.inl ⟨tail, rfl⟩)
  · rintro tail rfl rfl
    exact h (.inr (.inl ⟨tail, rfl⟩))
  · rintro tail rfl rfl
    exact h (.inr (.inr ⟨tail, rfl⟩))

private def Region.Strips : Region → List Char → List Char → Prop
  | .code, source, text => Source.Strips source text
  | .line, source, text => ∃ comment rest text', source = comment ++ rest ∧ text = blanked comment ++ text' ∧
      '\n' ∉ comment ∧ (rest = [] ∨ rest.head? = some '\n') ∧ Source.Strips rest text'
  | .block _ depth, source, text => ∃ comment rest text', source = comment ++ rest ∧ text = blanked comment ++ text' ∧
      Closes depth comment ∧ Source.Strips rest text'

private theorem Region.Strips.newline {region : Region} {source text : List Char}
    (h : region.afterNewline.Strips source text) : region.Strips ('\n' :: source) ('\n' :: text) := by
  cases region with
  | code => exact .code (not_beginsMark_newline source) h
  | line =>
    -- the newline ends the comment and is not part of it
    refine ⟨[], '\n' :: source, '\n' :: text, rfl, rfl, List.not_mem_nil, .inr rfl, ?_⟩
    exact .code (not_beginsMark_newline source) h
  | block opened depth =>
    obtain ⟨comment, rest, text', rfl, rfl, hclose, hrest⟩ := h
    have hmark : ¬BeginsBlockMark ('\n' :: comment) := not_beginsBlockMark (by simp) (by simp)
    exact ⟨'\n' :: comment, rest, text', rfl, rfl, .char hmark hclose, hrest⟩

private theorem Region.Strips.lineChar {c : Char} {source text : List Char} (hc : c ≠ '\n')
    (h : Region.line.Strips source text) : Region.line.Strips (c :: source) (blankOf c ++ text) := by
  obtain ⟨comment, rest, text', rfl, rfl, hline, hend, hrest⟩ := h
  refine ⟨c :: comment, rest, text', rfl, ?_, ?_, hend, hrest⟩
  · rw [blanked_cons hc, List.append_assoc]
  · exact List.not_mem_cons_of_ne_of_not_mem hc.symm hline

private theorem Region.Strips.blockChar {c : Char} {source text : List Char} {opened depth : Nat} (hc : c ≠ '\n')
    (hmark : ¬BeginsBlockMark (c :: source)) (h : (Region.block opened depth).Strips source text) :
    (Region.block opened depth).Strips (c :: source) (blankOf c ++ text) := by
  obtain ⟨comment, rest, text', rfl, rfl, hclose, hrest⟩ := h
  -- the comment is a part of the source, so a mark in it would be one there
  have hmark' : ¬BeginsBlockMark (c :: comment) := fun hshort => hmark (hshort.append rest)
  refine ⟨c :: comment, rest, text', rfl, ?_, .char hmark' hclose, hrest⟩
  rw [blanked_cons hc, List.append_assoc]

private theorem Region.Strips.closing {source text : List Char} {opened depth : Nat}
    (h : (match depth with | 0 => Region.code | depth + 1 => .block opened depth : Region).Strips source text) :
    (Region.block opened depth).Strips ('*' :: '/' :: source) (' ' :: ' ' :: text) := by
  cases depth with
  | zero => exact ⟨['*', '/'], source, text, rfl, rfl, .last, h⟩
  | succ depth =>
    obtain ⟨comment, rest, text', rfl, rfl, hclose, hrest⟩ := h
    exact ⟨'*' :: '/' :: comment, rest, text', rfl, rfl, .close hclose, hrest⟩

private theorem blankFrom_strips {region : Region} {offset : Nat} {done source out : List Char}
    (h : blankFrom region offset done source = .ok out) :
    ∃ text, out = done.reverse ++ text ∧ region.Strips source text := by
  fun_induction blankFrom region offset done source with
  | case1 offset done opened depth => cases h
  | case2 region offset done hregion =>
    refine ⟨[], by rw [← Except.ok.inj h, List.append_nil], ?_⟩
    cases region with
    | code => exact .nil
    | line => exact ⟨[], [], [], rfl, rfl, List.not_mem_nil, .inl rfl, .nil⟩
    | block opened depth => exact absurd rfl (hregion opened depth)
  | case3 region offset done rest ih =>
    obtain ⟨text, rfl, htext⟩ := ih h
    exact ⟨'\n' :: text, by simp, htext.newline⟩
  | case4 offset done c rest hc ih =>
    obtain ⟨text, rfl, htext⟩ := ih h
    exact ⟨blankOf c ++ text, by simp, htext.lineChar hc⟩
  | case5 offset done rest hc ih =>
    obtain ⟨text, rfl, comment, rest, text', rfl, rfl, hline, hend, hrest⟩ := ih h
    exact ⟨' ' :: ' ' :: (blanked comment ++ text'), by simp, .comment (.line hline hend) hrest⟩
  | case6 offset done rest hc ih =>
    obtain ⟨text, rfl, comment, rest, text', rfl, rfl, hclose, hrest⟩ := ih h
    exact ⟨' ' :: ' ' :: (blanked comment ++ text'), by simp, .comment (.block hclose) hrest⟩
  | case7 offset done rest hc => cases h
  | case8 offset done c rest hline hopen hclose hc ih =>
    obtain ⟨text, rfl, htext⟩ := ih h
    exact ⟨c :: text, by simp, .code (not_beginsMark hline hopen hclose) htext⟩
  | case9 offset done opened depth rest hc ih =>
    obtain ⟨text, rfl, comment, rest, text', rfl, rfl, hclose, hrest⟩ := ih h
    exact ⟨' ' :: ' ' :: (blanked comment ++ text'), by simp, '/' :: '*' :: comment, rest, text', rfl, rfl,
      .opening hclose, hrest⟩
  | case10 offset done opened depth rest region hc ih =>
    obtain ⟨text, rfl, htext⟩ := ih h
    exact ⟨' ' :: ' ' :: text, by simp, htext.closing⟩
  | case11 offset done opened depth c rest hopen hclose hc ih =>
    obtain ⟨text, rfl, htext⟩ := ih h
    exact ⟨blankOf c ++ text, by simp, htext.blockChar hc (not_beginsBlockMark hopen hclose)⟩

theorem blankComments_strips {source text : List Char} (h : blankComments source = .ok text) : Strips source text := by
  obtain ⟨text', rfl, htext⟩ := blankFrom_strips h
  exact htext

/-- The place of a comment error is one of the source. -/
theorem blankFrom_error {region : Region} {offset : Nat} {done source text : List Char} {e : CommentError}
    (hregion : ∀ opened depth, region = .block opened depth → ∃ rest, Text.RestAt source opened rest)
    (htext : Text.RestAt source offset text) (h : blankFrom region offset done text = .error e) :
    ∃ rest, Text.RestAt source e.offset rest := by
  fun_induction blankFrom region offset done text with
  | case1 offset done opened depth =>
    cases h
    exact hregion opened depth rfl
  | case2 region offset done _ => cases h
  | case3 region offset done rest ih =>
    refine ih (fun opened depth hr => ?_) htext.tail h
    cases region with
    | block => exact hregion opened depth hr
    | code | line => cases hr
  | case4 offset done c rest _ ih => exact ih (by simp) htext.tail h
  | case5 offset done rest _ ih => exact ih (by simp) htext.tail.tail h
  | case6 offset done rest _ ih =>
    refine ih (fun opened depth hr => ?_) htext.tail.tail h
    cases hr
    exact ⟨_, htext⟩
  | case7 offset done tail _ =>
    cases h
    exact ⟨_, htext⟩
  | case8 offset done c rest _ _ _ _ ih => exact ih (by simp) htext.tail h
  | case9 offset done opened depth rest _ ih =>
    refine ih (fun opened' depth' hr => ?_) htext.tail.tail h
    cases hr
    exact hregion opened depth rfl
  | case10 offset done opened depth rest region _ ih =>
    refine ih (fun opened' depth' hr => ?_) htext.tail.tail h
    cases depth with
    | zero =>
      change Region.code = .block opened' depth' at hr
      cases hr
    | succ depth =>
      change Region.block opened depth = .block opened' depth' at hr
      cases hr
      exact hregion _ _ rfl
  | case11 offset done opened depth c rest _ _ _ ih => exact ih hregion htext.tail h

theorem blankComments_error {source : List Char} {e : CommentError} (h : blankComments source = .error e) :
    ∃ rest, Text.RestAt source e.offset rest :=
  blankFrom_error (by simp) ⟨[], rfl, rfl⟩ h

end Source

end StackToolchain
