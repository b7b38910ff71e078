import StackToolchain.Compiler.Compile
import StackToolchain.Proofs.Source.Lexing
import StackToolchain.Proofs.Source.Spelling

/-! The tokens of a source tile it.
A comment is blanked to at least two blanks, and no spelling has two blanks in it. What the lexer takes for a spelling
therefore stands in the source as it is, and the source is made of these spellings, of blanks and of comments. -/
namespace StackToolchain.Source

open Text (isBlank isNameChar byteWidth RestAt)

private theorem Comment.exists_blanked {comment rest : List Char} (h : Comment comment rest) :
    ∃ more, blanked comment = ' ' :: ' ' :: more := by
  cases h with
  | line _ _ => exact ⟨_, rfl⟩
  | block _ => exact ⟨_, rfl⟩

theorem Comment.ne_nil {comment rest : List Char} (h : Comment comment rest) : comment ≠ [] := by
  cases h <;> exact List.cons_ne_nil _ _

theorem Strips.head_cases {source text : List Char} {c : Char} (h : Strips source (c :: text)) :
    (∃ rest, source = c :: rest ∧ Strips rest text) ∨ c = ' ' ∧ text.head? = some ' ' := by
  generalize hall : c :: text = all at h
  cases h with
  | nil => cases hall
  | code _ hrest =>
    cases hall
    exact .inl ⟨_, rfl, hrest⟩
  | comment hcomment _ =>
    obtain ⟨more, hmore⟩ := hcomment.exists_blanked
    rw [hmore] at hall
    cases hall
    exact .inr ⟨rfl, rfl⟩

private theorem Strips.copies {source word text : List Char} (hword : ∀ c ∈ word, isBlank c = false)
    (h : Strips source (word ++ text)) : ∃ rest, source = word ++ rest ∧ Strips rest text := by
  induction word generalizing source with
  | nil => exact ⟨source, rfl, h⟩
  | cons c more ih =>
    obtain ⟨hc, hmore⟩ := List.forall_mem_cons.mp hword
    rcases h.head_cases with ⟨tail, rfl, htail⟩ | ⟨rfl, -⟩
    · obtain ⟨rest, rfl, hrest⟩ := ih hmore htail
      exact ⟨rest, rfl, hrest⟩
    · cases hc

private theorem Strips.word {source word text : List Char} {kind : TokenKind} (hword : Spelling kind word)
    (h : Strips source (word ++ text)) : ∃ rest, source = word ++ rest ∧ Strips rest text := by
  rcases hword.solid_or_quoted with hsolid | ⟨c, rfl⟩
  · exact h.copies hsolid
  · have hquote {inner after : List Char} (hq : Strips inner ('\'' :: after)) :
        ∃ rest, inner = '\'' :: rest ∧ Strips rest after := by
      rcases hq.head_cases with hq | ⟨hq, -⟩
      · exact hq
      · cases hq
    obtain ⟨inner, rfl, hinner⟩ := hquote h
    -- a comment between the quotes would leave two blanks
    rcases hinner.head_cases with ⟨tail, rfl, htail⟩ | ⟨-, hblank⟩
    · obtain ⟨rest, rfl, hrest⟩ := hquote htail
      exact ⟨rest, rfl, hrest⟩
    · cases hblank

/-- A source that begins at an offset is made of blanks, comments and these spellings. The text beside it has blanks in
the place of comments. -/
inductive Tiles : Nat → List Char → List Char → List Lexeme → Prop
  | nil {offset} : Tiles offset [] [] []
  | blank {offset c rest text lexemes} : isBlank c = true → Tiles (offset + c.utf8Size) rest text lexemes →
      Tiles offset (c :: rest) (c :: text) lexemes
  | comment {offset comment rest text lexemes} : Comment comment rest →
      Tiles (offset + byteWidth comment) rest text lexemes →
      Tiles offset (comment ++ rest) (blanked comment ++ text) lexemes
  | word {offset kind word rest text lexemes} (h : Spelling kind word) : EndsBefore word text →
      Tiles (offset + byteWidth word) rest text lexemes →
      Tiles offset (word ++ rest) (word ++ text) (⟨⟨kind, offset⟩, word, h⟩ :: lexemes)

private theorem Strips.tiles {offset : Nat} {source text : List Char} {lexemes : List Lexeme} (hs : Strips source text)
    (hl : Lexes offset text lexemes) : Tiles offset source text lexemes := by
  -- a comment or a spelling takes more than one character, so the induction is on the length
  induction hn : source.length using Nat.strong_induction_on generalizing offset source text lexemes with
  | _ n ih =>
    subst hn
    have hsource := hs
    cases hs with
    | nil =>
      generalize hall : [] = all at hl
      cases hl with
      | nil => exact .nil
      | blank => cases hall
      | word hword => exact absurd (List.append_eq_nil_iff.mp hall.symm).1 hword.ne_nil
    | comment hcomment hrest =>
      refine .comment hcomment (ih _ ?_ hrest ?_ rfl)
      · have hpos := List.length_pos_of_ne_nil hcomment.ne_nil
        rw [List.length_append]
        omega
      · simpa using hl.of_blanks fun c => isBlank_of_mem_blanked
    | code hmark hrest =>
      generalize hall : _ :: _ = all at hl hsource
      cases hl with
      | nil => cases hall
      | blank hblank htail =>
        cases hall
        exact .blank hblank (ih _ (by simp) hrest htail rfl)
      | word hword hends htail =>
        obtain ⟨rest, heq, hrest⟩ := hsource.word hword
        rw [heq]
        refine .word hword hends (ih _ ?_ hrest htail rfl)
        have hpos := List.length_pos_of_ne_nil hword.ne_nil
        rw [heq, List.length_append]
        omega

namespace Tiles

variable {offset : Nat} {source text : List Char} {lexemes : List Lexeme} (h : Tiles offset source text lexemes)
include h

private theorem byteWidth_eq : byteWidth text = byteWidth source := by
  induction h with
  | nil => rfl
  | blank _ _ ih => rw [Text.byteWidth_cons, Text.byteWidth_cons, ih]
  | comment _ _ ih => rw [Text.byteWidth_append, Text.byteWidth_append, byteWidth_blanked, ih]
  | word _ _ _ ih => rw [Text.byteWidth_append, Text.byteWidth_append, ih]

/-- Spellings stand at or after the beginning, and end before the end or there. -/
theorem bounds : ∀ l ∈ lexemes, offset ≤ l.token.offset ∧
    l.token.offset + byteWidth l.word ≤ offset + byteWidth source := by
  induction h with
  | nil => simp
  | blank _ _ ih =>
    intro l hl
    have hb := ih l hl
    rw [Text.byteWidth_cons]
    omega
  | comment _ _ ih =>
    intro l hl
    have hb := ih l hl
    rw [Text.byteWidth_append]
    omega
  | word _ _ _ ih =>
    intro l hl
    rw [Text.byteWidth_append]
    rcases List.mem_cons.mp hl with rfl | hl
    · simp
    · have hb := ih l hl
      omega

/-- Spellings do not overlap. -/
theorem pairwise : lexemes.Pairwise fun l l' => l.token.offset + byteWidth l.word ≤ l'.token.offset := by
  induction h with
  | nil => exact .nil
  | blank _ _ ih => exact ih
  | comment _ _ ih => exact ih
  | word _ _ htail ih => exact .cons (fun l hl => (htail.bounds l hl).1) ih

private theorem head_eq {c : Char} (hc : source.head? = some c) (hname : isNameChar c = true) :
    text.head? = some c := by
  cases h with
  | nil => cases hc
  | blank => exact hc
  | comment hcomment _ =>
    cases hcomment with
    | line | block =>
      cases hc
      cases hname
  | word hword _ _ =>
    obtain ⟨d, more, rfl, -⟩ := hword.exists_head
    exact hc

end Tiles

def Apart (before rest : List Char) : Prop :=
  ∀ c d, before.getLast? = some c → rest.head? = some d → isNameChar c = true → isNameChar d = false

private theorem apart_append {pre more rest : List Char} (hne : more ≠ []) (h : Apart more rest) :
    Apart (pre ++ more) rest := by
  intro c d hc
  rw [List.getLast?_append_of_ne_nil pre hne] at hc
  exact h c d hc

private theorem apart_blank {c : Char} (hc : isBlank c = true) (rest : List Char) : Apart [c] rest := by
  intro d e hd _ hname
  obtain rfl : c = d := by simpa using hd
  rw [isBlank_of_isNameChar hname] at hc
  cases hc

private theorem Closes.getLast?_eq {depth : Nat} {text : List Char} (h : Closes depth text) :
    text.getLast? = some '/' := by
  induction h with
  | last => rfl
  | close _ ih => simp [List.getLast?_cons, ih]
  | opening _ ih => simp [List.getLast?_cons, ih]
  | char _ _ ih => simp [List.getLast?_cons, ih]

private theorem Comment.apart {comment rest : List Char} (h : Comment comment rest) : Apart comment rest := by
  intro c d hc hd hname
  cases h with
  | line _ hend =>
    rcases hend with rfl | hend
    · cases hd
    · rw [hend] at hd
      cases hd
      rfl
  | block hclose =>
    simp only [List.getLast?_cons, hclose.getLast?_eq] at hc
    cases hc
    cases hname

private theorem Tiles.word_apart {offset : Nat} {word rest text : List Char} {lexemes : List Lexeme} {kind : TokenKind}
    (hword : Spelling kind word) (hends : EndsBefore word text) (h : Tiles offset rest text lexemes) :
    Apart word rest := by
  intro c d hc hd hname
  rcases hword.all_isNameChar_or with hall | ⟨c', hc', hnot⟩
  · -- a name that went on in the source would go on in the text without comments
    by_contra hd'
    rw [Bool.not_eq_false] at hd'
    rw [hends.word_ends hall d (h.head_eq hd hd')] at hd'
    cases hd'
  · rw [hc] at hc'
    cases hc'
    rw [hname] at hnot
    cases hnot

/-- How a spelling stands in a source that begins at an offset, after a text that stands before the source, and in the
source without comments. -/
inductive Lexeme.Stands (l : Lexeme) (pre : List Char) (offset : Nat) : List Char → List Char → Prop
  | intro {before rest before' rest'} : offset + byteWidth before = l.token.offset →
      byteWidth before' = byteWidth before → EndsBefore l.word rest' → Apart (pre ++ before) (l.word ++ rest) →
      Apart l.word rest → Lexeme.Stands l pre offset (before ++ (l.word ++ rest)) (before' ++ (l.word ++ rest'))

private theorem Lexeme.Stands.after {l : Lexeme} {pre source text : List Char} {offset : Nat} {more more' : List Char}
    (hwidth : byteWidth more' = byteWidth more) (h : l.Stands (pre ++ more) (offset + byteWidth more) source text) :
    l.Stands pre offset (more ++ source) (more' ++ text) := by
  obtain ⟨hoffset, hbefore, hends, hpre, hrest⟩ := h
  rw [← List.append_assoc more, ← List.append_assoc more']
  refine ⟨?_, ?_, hends, ?_, hrest⟩
  · rw [Text.byteWidth_append, ← hoffset, Nat.add_assoc]
  · rw [Text.byteWidth_append, Text.byteWidth_append, hwidth, hbefore]
  · rw [← List.append_assoc]
    exact hpre

theorem Tiles.stands {offset : Nat} {source text pre : List Char} {lexemes : List Lexeme}
    (h : Tiles offset source text lexemes) (hpre : Apart pre source) :
    ∀ l ∈ lexemes, l.Stands pre offset source text := by
  induction h generalizing pre with
  | nil => simp
  | @blank offset c rest text _ hblank _ ih =>
    intro l hl
    have hstep : l.Stands (pre ++ [c]) (offset + byteWidth [c]) rest text := by
      rw [Text.byteWidth_cons]
      exact ih (apart_append (List.cons_ne_nil _ _) (apart_blank hblank _)) l hl
    exact hstep.after rfl
  | comment hcomment _ ih =>
    intro l hl
    exact .after (byteWidth_blanked _) (ih (apart_append hcomment.ne_nil hcomment.apart) l hl)
  | @word offset kind word rest text _ hword hends htail ih =>
    intro l hl
    have hapart := htail.word_apart hword hends
    rcases List.mem_cons.mp hl with rfl | hl
    · have hhere : Lexeme.Stands ⟨⟨kind, offset⟩, word, hword⟩ pre offset ([] ++ (word ++ rest))
          ([] ++ (word ++ text)) :=
        .intro rfl rfl hends (by simpa using hpre) hapart
      exact hhere
    · exact .after rfl (ih (apart_append hword.ne_nil hapart) l hl)

theorem append_eq_append_cons {α : Type} {xs ys before after : List α} {c : α} (h : xs ++ ys = before ++ c :: after) :
    (∃ more, before = xs ++ more ∧ ys = more ++ c :: after) ∨ ∃ more, xs = before ++ c :: more := by
  rcases List.append_eq_append_iff.mp h with ⟨more, hbefore, hys⟩ | ⟨more, hxs, hafter⟩
  · exact .inl ⟨more, hbefore, hys⟩
  · cases more with
    | nil => exact .inl ⟨[], by simpa using hxs.symm, by simpa using hafter.symm⟩
    | cons d more =>
      obtain ⟨rfl, -⟩ := List.cons.inj hafter
      exact .inr ⟨more, hxs⟩

theorem blanked_append (text more : List Char) : blanked (text ++ more) = blanked text ++ blanked more :=
  List.flatMap_append

/-- The character after a text is in a spelling, or it is a blank, or it is blanked. -/
private def Covered (offset : Nat) (text : List Char) (lexemes : List Lexeme) (before : List Char) (c : Char) : Prop :=
  (∃ l ∈ lexemes, l.token.offset ≤ offset + byteWidth before ∧
    offset + byteWidth before + c.utf8Size ≤ l.token.offset + byteWidth l.word) ∨ isBlank c = true ∨
    ∃ before' after', text = before' ++ blankOf c ++ after' ∧ byteWidth before' = byteWidth before

private theorem Covered.after {offset : Nat} {text more more' before : List Char} {lexemes : List Lexeme} {c : Char}
    (hwidth : byteWidth more' = byteWidth more) (h : Covered (offset + byteWidth more) text lexemes before c) :
    Covered offset (more' ++ text) lexemes (more ++ before) c := by
  rcases h with ⟨l, hl, hfrom, hto⟩ | hblank | ⟨before', after', rfl, hbefore⟩
  · refine .inl ⟨l, hl, ?_⟩
    rw [Text.byteWidth_append]
    omega
  · exact .inr (.inl hblank)
  · refine .inr (.inr ⟨more' ++ before', after', by simp only [List.append_assoc], ?_⟩)
    rw [Text.byteWidth_append, Text.byteWidth_append, hwidth, hbefore]

private theorem Covered.cons {offset : Nat} {text before : List Char} {lexemes : List Lexeme} {c : Char} (l : Lexeme)
    (h : Covered offset text lexemes before c) : Covered offset text (l :: lexemes) before c := by
  rcases h with ⟨l', hl', hrange⟩ | h
  · exact .inl ⟨l', List.mem_cons_of_mem l hl', hrange⟩
  · exact .inr h

private theorem Tiles.covers {offset : Nat} {source text before after : List Char} {lexemes : List Lexeme} {c : Char}
    (h : Tiles offset source text lexemes) (hsource : source = before ++ c :: after) :
    Covered offset text lexemes before c := by
  induction h generalizing before with
  | nil => simp at hsource
  | @blank offset d rest text lexemes hblank _ ih =>
    cases before with
    | nil =>
      cases hsource
      exact .inr (.inl hblank)
    | cons e before =>
      cases hsource
      have hstep : Covered (offset + byteWidth [d]) text lexemes before c := by
        rw [Text.byteWidth_cons]
        exact ih rfl
      exact hstep.after rfl
  | @comment offset comment rest text lexemes _ _ ih =>
    rcases append_eq_append_cons hsource with ⟨more, rfl, hrest⟩ | ⟨more, rfl⟩
    · exact (ih hrest).after (byteWidth_blanked _)
    · refine .inr ?_
      by_cases hc : c = '\n'
      · rw [hc]
        exact .inl rfl
      · refine .inr ⟨blanked before, blanked more ++ text, ?_, byteWidth_blanked before⟩
        rw [blanked_append, blanked_cons hc]
        simp only [List.append_assoc]
  | @word offset kind word rest text lexemes _ _ _ ih =>
    rcases append_eq_append_cons hsource with ⟨more, rfl, hrest⟩ | ⟨more, rfl⟩
    · exact ((ih hrest).after rfl).cons _
    · refine .inl ⟨_, List.mem_cons_self, Nat.le_add_right _ _, ?_⟩
      show offset + byteWidth before + c.utf8Size ≤ offset + byteWidth (before ++ c :: more)
      rw [Text.byteWidth_append, Text.byteWidth_cons]
      omega

private theorem byteWidth_pos {word : List Char} (h : word ≠ []) : 0 < byteWidth word := by
  obtain ⟨c, more, rfl⟩ := List.exists_cons_of_ne_nil h
  rw [Text.byteWidth_cons]
  have hc := c.utf8Size_pos
  omega

theorem tokenize_tiles {source : String} {tokens : List Token} (h : tokenize source = .ok tokens) :
    ∃ text lexemes, stripped source = .ok text ∧ Tiles 0 source.toList text lexemes ∧
      tokens = lexemes.map Lexeme.token ++ [⟨.endOfInput, source.utf8ByteSize⟩] := by
  obtain ⟨text, hstripped, hlexed⟩ := bind_eq_ok.mp h
  obtain ⟨lexemes, htokens, hlexes⟩ := lex_lexes (mapError_eq_ok.mp hlexed)
  have htiles := (blankComments_strips (mapError_eq_ok.mp hstripped)).tiles hlexes
  refine ⟨text, lexemes, hstripped, htiles, ?_⟩
  rw [htokens, htiles.byteWidth_eq, Text.byteWidth_toList]

private theorem Tiles.increasing {source : String} {text : List Char} {lexemes : List Lexeme}
    (h : Tiles 0 source.toList text lexemes) :
    List.Pairwise (fun t u : Token => t.offset < u.offset)
      (lexemes.map Lexeme.token ++ [⟨.endOfInput, source.utf8ByteSize⟩]) := by
  have hpos (l : Lexeme) : 0 < byteWidth l.word := byteWidth_pos l.spelling.ne_nil
  rw [List.pairwise_append, List.pairwise_map]
  refine ⟨h.pairwise.imp ?_, List.pairwise_singleton _ _, ?_⟩
  · intro l l' hl
    have := hpos l
    omega
  · intro t ht u hu
    obtain ⟨l, hl, rfl⟩ := List.mem_map.mp ht
    obtain rfl := List.mem_singleton.mp hu
    have hbound := (h.bounds l hl).2
    rw [Text.byteWidth_toList] at hbound
    have := hpos l
    show l.token.offset < source.utf8ByteSize
    omega

theorem Tiles.restAt {source text : List Char} {lexemes : List Lexeme} (h : Tiles 0 source text lexemes) :
    ∀ l ∈ lexemes, (∃ rest, RestAt source l.token.offset (l.word ++ rest)) ∧
      ∃ rest, RestAt text l.token.offset (l.word ++ rest) ∧ EndsBefore l.word rest := by
  intro l hl
  have hstart : Apart [] source := by simp [Apart]
  obtain ⟨hoffset, hwidth, hends, -, -⟩ := h.stands hstart l hl
  rw [Nat.zero_add] at hoffset
  exact ⟨⟨_, _, rfl, hoffset⟩, _, ⟨_, rfl, hwidth.trans hoffset⟩, hends⟩

private theorem Covered.byte {text before : List Char} {lexemes : List Lexeme} {c : Char} {byte : Nat}
    (h : Covered 0 text lexemes before c) (hfrom : byteWidth before ≤ byte)
    (hto : byte < byteWidth before + c.utf8Size) :
    (∃ l ∈ lexemes, l.token.offset ≤ byte ∧ byte < l.token.offset + byteWidth l.word) ∨ isBlank c = true ∨
      ∃ rest, RestAt text byte (' ' :: rest) := by
  rcases h with ⟨l, hl, hrange⟩ | hblank | ⟨before', after', rfl, hbefore⟩
  · exact .inl ⟨l, hl, by omega, by omega⟩
  · exact .inr (.inl hblank)
  · -- the byte is one of the spaces in the place of the character
    obtain ⟨k, rfl⟩ := Nat.exists_eq_add_of_le hfrom
    obtain ⟨j, hj⟩ := Nat.exists_eq_add_of_lt (Nat.lt_of_add_lt_add_left hto)
    have hspaces : blankOf c = List.replicate k ' ' ++ ' ' :: List.replicate j ' ' := by
      rw [blankOf, hj, Nat.add_assoc, ← List.replicate_append_replicate, List.replicate_succ]
    refine .inr (.inr ⟨List.replicate j ' ' ++ after', before' ++ List.replicate k ' ', ?_, ?_⟩)
    · rw [hspaces]
      simp only [List.append_assoc, List.cons_append]
    · rw [Text.byteWidth_append, hbefore, Text.byteWidth_eq_sum (List.replicate k ' '), List.map_replicate,
        List.sum_replicate]
      exact congrArg _ (Nat.mul_one k)

/-- The tokens of a source are its spellings in order and then the end, each at the byte where it stands. In the source
without comments each spelling is as long as it goes. What is in no spelling is a blank or was blanked. -/
theorem tokens_tile_source {source : String} {tokens : List Token} (h : tokenize source = .ok tokens) :
    ∃ (text : List Char) (lexemes : List Lexeme), stripped source = .ok text ∧
      tokens = lexemes.map Lexeme.token ++ [⟨.endOfInput, source.utf8ByteSize⟩] ∧
      (∀ t ∈ lexemes.map Lexeme.token, t.kind ≠ .endOfInput) ∧
      tokens.Pairwise (fun t u => t.offset < u.offset) ∧
      (∀ l ∈ lexemes, String.Pos.Raw.IsValid source ⟨l.token.offset⟩ ∧
        (∃ rest, RestAt source.toList l.token.offset (l.word ++ rest)) ∧
        ∃ rest, RestAt text l.token.offset (l.word ++ rest) ∧ EndsBefore l.word rest) ∧
      ∀ before c after byte, source.toList = before ++ c :: after → byteWidth before ≤ byte →
        byte < byteWidth before + c.utf8Size →
        (∃ l ∈ lexemes, l.token.offset ≤ byte ∧ byte < l.token.offset + byteWidth l.word) ∨ isBlank c = true ∨
          ∃ rest, RestAt text byte (' ' :: rest) := by
  obtain ⟨text, lexemes, hstripped, htiles, rfl⟩ := tokenize_tiles h
  refine ⟨text, lexemes, hstripped, rfl, ?_, ?_, ?_, ?_⟩
  · intro t ht
    obtain ⟨l, -, rfl⟩ := List.mem_map.mp ht
    exact l.spelling.ne_endOfInput
  · exact htiles.increasing
  · intro l hl
    obtain ⟨⟨rest, hrest⟩, htext⟩ := htiles.restAt l hl
    exact ⟨hrest.isValid, ⟨rest, hrest⟩, htext⟩
  · intro before c after byte hsource hfrom hto
    exact (htiles.covers hsource).byte hfrom hto

def tiledSource : String :=
  "x<=' '/*é*/-0x1_F//y"

def tiledTokens : List Token :=
  [⟨.ident "x", 0⟩, ⟨.punct .atMost, 1⟩, ⟨.number 32, 3⟩, ⟨.punct .minus, 12⟩, ⟨.number 31, 13⟩, ⟨.endOfInput, 21⟩]

theorem tokens_tile_source_of_comments :
    tokenize tiledSource = .ok tiledTokens ∧ ∃ lexemes : List Lexeme,
      tiledTokens = lexemes.map Lexeme.token ++ [⟨.endOfInput, tiledSource.utf8ByteSize⟩] ∧
      ∀ l ∈ lexemes, ∃ rest, RestAt tiledSource.toList l.token.offset (l.word ++ rest) := by
  have htokens : tokenize tiledSource = .ok tiledTokens := by
    apply tokenize_of_lexWithin
    simp only [tiledSource, String.reduceToList]
    exact ⟨_, rfl, rfl⟩
  obtain ⟨text, lexemes, -, heq, -, -, hstands, -⟩ := tokens_tile_source htokens
  exact ⟨htokens, lexemes, heq, fun l hl => (hstands l hl).2.1⟩

end StackToolchain.Source
