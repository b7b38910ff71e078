import StackToolchain.Proofs.Source.Blanking

/-! The grammar of comments.
A source is read from the left into segments: characters of code, comments to the end of the line, and nested comments,
which hold characters and nested comments again. Blanking counts the comments that are open in place of this recursion.
It gives a result for the sources that are read to their end, and otherwise names the place where the reading is
stuck. -/
namespace StackToolchain.Source

open Text (byteWidth)

/-- The text of a nested comment behind the mark that opens it: characters that begin no mark and nested comments, then
the mark that closes it. -/
inductive BlockTail : List Char → Prop
  | close : BlockTail ['*', '/']
  | char {c text} : ¬BeginsBlockMark (c :: text) → BlockTail text → BlockTail (c :: text)
  | comment {inner text} : BlockTail inner → BlockTail text → BlockTail ('/' :: '*' :: (inner ++ text))

/-- What follows a text does not make a mark at its front, if the text has a second character. -/
theorem not_beginsBlockMark_append {c : Char} {text : List Char} (h : ¬BeginsBlockMark (c :: text)) (hne : text ≠ [])
    (rest : List Char) : ¬BeginsBlockMark (c :: (text ++ rest)) := by
  intro hlong
  exact h (hlong.of_append hne (List.append_nil (c :: (text ++ rest))))

/-- A nested comment is closed when its marks are counted, and inside others it closes one of them. -/
theorem BlockTail.closes {inner : List Char} (h : BlockTail inner) :
    Closes 0 inner ∧ ∀ {depth rest}, Closes depth rest → Closes (depth + 1) (inner ++ rest) := by
  induction h with
  | close => exact ⟨.last, .close⟩
  | @char c text hmark _ ih =>
    refine ⟨.char hmark ih.1, fun {depth rest} hrest => ?_⟩
    exact .char (not_beginsBlockMark_append hmark ih.1.ne_nil rest) (ih.2 hrest)
  | comment _ _ ihinner ihtext =>
    refine ⟨.opening (ihinner.2 ihtext.1), fun {depth rest} hrest => ?_⟩
    rw [List.cons_append, List.cons_append, List.append_assoc]
    exact .opening (ihinner.2 (ihtext.2 hrest))

/-- Marks that close a number of comments end as many nested comments, one after the other. -/
theorem Closes.tails {depth : Nat} {text : List Char} (h : Closes depth text) :
    ∃ (first : List Char) (others : List (List Char)), text = first ++ others.flatten ∧ BlockTail first ∧
      (∀ other ∈ others, BlockTail other) ∧ others.length = depth := by
  induction h with
  | last => exact ⟨['*', '/'], [], rfl, .close, by simp, rfl⟩
  | close _ ih =>
    obtain ⟨first, others, rfl, hfirst, hothers, hlen⟩ := ih
    exact ⟨['*', '/'], first :: others, rfl, .close, List.forall_mem_cons.mpr ⟨hfirst, hothers⟩, congrArg (· + 1) hlen⟩
  | opening _ ih =>
    obtain ⟨first, others, rfl, hfirst, hothers, hlen⟩ := ih
    -- the first two make the nested comment that was opened and what follows it
    obtain ⟨second, others, rfl⟩ := List.exists_cons_of_length_eq_add_one hlen
    obtain ⟨hsecond, hothers⟩ := List.forall_mem_cons.mp hothers
    refine ⟨'/' :: '*' :: (first ++ second), others, ?_, .comment hfirst hsecond, hothers, Nat.succ.inj hlen⟩
    simp
  | @char depth c text hmark _ ih =>
    obtain ⟨first, others, rfl, hfirst, hothers, hlen⟩ := ih
    exact ⟨c :: first, others, rfl, .char (fun hshort => hmark (hshort.append _)) hfirst, hothers, hlen⟩

private theorem closes_zero_iff {text : List Char} : Closes 0 text ↔ BlockTail text := by
  refine ⟨fun h => ?_, fun h => h.closes.1⟩
  obtain ⟨first, others, rfl, hfirst, -, hlen⟩ := h.tails
  rw [List.length_eq_zero_iff.mp hlen, List.flatten_nil, List.append_nil]
  exact hfirst

inductive Segment where
  | code (c : Char)
  | comment (text : List Char)

namespace Segment

def text : Segment → List Char
  | .code c => [c]
  | .comment text => text

private def replacement : Segment → List Char
  | .code c => [c]
  | .comment text => blanked text

/-- The bytes that stand in the place of those of a segment: in a comment spaces, but for the newlines. -/
def replacementBytes : Segment → List UInt8
  | .code c => String.utf8EncodeChar c
  | .comment text => (bytesOf text).map fun b => if b = 0x0A then b else 0x20

inductive Before : Segment → List Char → Prop
  | code {c rest} : ¬BeginsMark (c :: rest) → Before (.code c) rest
  | line {text rest} : '\n' ∉ text → (rest = [] ∨ rest.head? = some '\n') → Before (.comment ('/' :: '/' :: text)) rest
  | block {text rest} : BlockTail text → Before (.comment ('/' :: '*' :: text)) rest

end Segment

inductive Reads : List Char → List Segment → List Char → Prop
  | stop {rest} : Reads rest [] rest
  | next {s more segments rest} : s.Before more → Reads more segments rest → Reads (s.text ++ more) (s :: segments) rest

private theorem bytesOf_blanked (text : List Char) :
    bytesOf (blanked text) = (bytesOf text).map fun b => if b = 0x0A then b else 0x20 := by
  induction text with
  | nil => rfl
  | cons c text ih =>
    by_cases hc : c = '\n'
    · rw [hc, blanked_newline, bytesOf_cons, bytesOf_cons, List.map_append, ih]
      rfl
    · have hspaces : ∀ b ∈ String.utf8EncodeChar c, (if b = 0x0A then b else 0x20) = 0x20 := by
        intro b hb
        rw [if_neg]
        rintro rfl
        exact newline_not_mem_utf8EncodeChar hc hb
      rw [blanked_cons hc, bytesOf_append, bytesOf_cons, List.map_append, ih, bytesOf_blankOf,
        List.map_congr_left hspaces, List.map_const']

/-- Blanking passes a text before a rest: it puts another text in its place and goes on in a region. -/
private def Region.Passes (region : Region) (text out : List Char) (region' : Region) (rest : List Char) : Prop :=
  ∀ offset done, blankFrom region offset done (text ++ rest) =
    blankFrom region' (offset + byteWidth text) (out.reverse ++ done) rest

private theorem Region.Passes.trans {region region' region'' : Region} {text text' out out' rest : List Char}
    (h : region.Passes text out region' (text' ++ rest)) (h' : region'.Passes text' out' region'' rest) :
    region.Passes (text ++ text') (out ++ out') region'' rest := by
  intro offset done
  rw [List.append_assoc, h, h', Text.byteWidth_append, List.reverse_append, List.append_assoc, Nat.add_assoc]

private theorem passes_code {c : Char} {rest : List Char} (h : ¬BeginsMark (c :: rest)) :
    Region.code.Passes [c] [c] .code rest := by
  intro offset done
  rw [List.singleton_append, blankFrom_code h, Text.byteWidth_cons, Text.byteWidth_nil, Nat.add_zero]
  rfl

private theorem passes_line {text rest : List Char} (h : '\n' ∉ text) (hend : rest = [] ∨ rest.head? = some '\n') :
    Region.line.Passes text (blanked text) .code rest := by
  induction text with
  | nil =>
    rcases hend with rfl | hend
    · exact fun offset done => rfl
    · obtain ⟨more, rfl⟩ := List.head?_eq_some_iff.mp hend
      exact fun offset done => rfl
  | cons c text ih =>
    obtain ⟨hc, htext⟩ := not_or.mp (mt List.mem_cons.mpr h)
    have hchar : Region.line.Passes [c] (blankOf c) .line (text ++ rest) := by
      intro offset done
      rw [List.singleton_append, blankFrom, if_neg (Ne.symm hc), reverse_blankOf, Text.byteWidth_cons,
        Text.byteWidth_nil, Nat.add_zero]
    rw [blanked_cons (Ne.symm hc)]
    exact hchar.trans (ih htext)

private theorem passes_blockChar {c : Char} {rest : List Char} (h : ¬BeginsBlockMark (c :: rest)) (opened depth : Nat) :
    (Region.block opened depth).Passes [c] (blanked [c]) (.block opened depth) rest := by
  intro offset done
  rw [List.singleton_append, blankFrom]
  · split
    · rename_i hc
      rw [hc]
      rfl
    · rename_i hc
      rw [blanked_cons hc, blanked_nil, List.append_nil, reverse_blankOf, Text.byteWidth_cons, Text.byteWidth_nil,
        Nat.add_zero]
  · rintro tail rfl rfl
    exact h (.inl ⟨tail, rfl⟩)
  · rintro tail rfl rfl
    exact h (.inr ⟨tail, rfl⟩)

private theorem Closes.passes {depth : Nat} {text : List Char} (h : Closes depth text) (opened : Nat)
    (rest : List Char) : (Region.block opened depth).Passes text (blanked text) .code rest := by
  induction h with
  | last => exact fun offset done => rfl
  | @close depth text _ ih =>
    have hmark : (Region.block opened (depth + 1)).Passes ['*', '/'] [' ', ' '] (.block opened depth) (text ++ rest) :=
      fun offset done => rfl
    exact hmark.trans ih
  | @opening depth text _ ih =>
    have hmark : (Region.block opened depth).Passes ['/', '*'] [' ', ' '] (.block opened (depth + 1)) (text ++ rest) :=
      fun offset done => rfl
    exact hmark.trans ih
  | @char depth c text hmark hrest ih =>
    have hlong := not_beginsBlockMark_append hmark hrest.ne_nil rest
    have hchar := (passes_blockChar hlong opened depth).trans ih
    rwa [← blanked_append] at hchar

private theorem Segment.Before.passes {s : Segment} {rest : List Char} (h : s.Before rest) :
    Region.code.Passes s.text s.replacement .code rest := by
  cases h with
  | code hmark => exact passes_code hmark
  | @line text _ hline hend =>
    have hmark : Region.code.Passes ['/', '/'] [' ', ' '] .line (text ++ rest) := fun offset done => rfl
    exact hmark.trans (passes_line hline hend)
  | @block text _ htail =>
    intro offset done
    -- the region of a nested comment keeps the offset of the mark that opened it
    calc blankFrom .code offset done ('/' :: '*' :: text ++ rest)
        = blankFrom (.block offset 0) (offset + byteWidth ['/', '*']) ([' ', ' '].reverse ++ done) (text ++ rest) := rfl
      _ = blankFrom .code (offset + byteWidth ['/', '*'] + byteWidth text)
            ((blanked text).reverse ++ ([' ', ' '].reverse ++ done)) rest := htail.closes.1.passes offset rest _ _
      _ = blankFrom .code (offset + byteWidth (['/', '*'] ++ text)) (([' ', ' '] ++ blanked text).reverse ++ done)
            rest := by
        rw [Text.byteWidth_append, List.reverse_append, List.append_assoc, Nat.add_assoc]

private theorem Reads.passes {source rest : List Char} {segments : List Segment} (h : Reads source segments rest) :
    source = segments.flatMap Segment.text ++ rest ∧
      Region.code.Passes (segments.flatMap Segment.text) (segments.flatMap Segment.replacement) .code rest := by
  induction h with
  | stop => exact ⟨rfl, fun offset done => rfl⟩
  | next hs _ ih =>
    obtain ⟨rfl, hsegments⟩ := ih
    exact ⟨(List.append_assoc _ _ _).symm, hs.passes.trans hsegments⟩

/-- A text that does not close its comments is blanked to its end. -/
theorem blankFrom_unterminated {region : Region} {opened depth offset : Nat} {done text : List Char}
    (hregion : region = .block opened depth) (h : ∀ front rest, text = front ++ rest → ¬Closes depth front) :
    blankFrom region offset done text = .error (.unterminated opened) := by
  fun_induction blankFrom region offset done text generalizing depth with
  | case1 offset done opened' depth' =>
    cases hregion
    rfl
  | case2 region offset done hother => exact absurd hregion (hother opened depth)
  | case3 region offset done rest ih =>
    subst hregion
    refine ih rfl fun front rest' hrest hfront => ?_
    exact h ('\n' :: front) rest' (by rw [hrest]; rfl) (.char (not_beginsBlockMark (by simp) (by simp)) hfront)
  | case4 | case5 | case6 | case7 | case8 => cases hregion
  | case9 offset done opened' depth' rest _ ih =>
    cases hregion
    refine ih rfl fun front rest' hrest hfront => ?_
    exact h ('/' :: '*' :: front) rest' (by rw [hrest]; rfl) (.opening hfront)
  | case10 offset done opened' depth' rest region _ =>
    rename_i ih
    cases hregion
    cases depth' with
    | zero => exact absurd .last (h ['*', '/'] rest rfl)
    | succ depth =>
      refine ih rfl fun front rest' hrest hfront => ?_
      exact h ('*' :: '/' :: front) rest' (by rw [hrest]; rfl) (.close hfront)
  | case11 offset done opened' depth' c rest hopen hclose _ ih =>
    cases hregion
    refine ih rfl fun front rest' hrest hfront => ?_
    subst hrest
    refine h (c :: front) rest' rfl (.char (fun hshort => ?_) hfront)
    exact not_beginsBlockMark hopen hclose (hshort.append rest')

inductive Stuck : List Char → String → Prop
  | unopened {rest} : Stuck ('*' :: '/' :: rest) "closed unopened multiline comment"
  | unterminated {rest} : (∀ text more, BlockTail text → rest ≠ text ++ more) →
      Stuck ('/' :: '*' :: rest) "unterminated multiline comment"

private theorem Stuck.blankFrom_eq {rest : List Char} {message : String} (h : Stuck rest message) (offset : Nat)
    (done : List Char) :
    ∃ e, blankFrom .code offset done rest = .error e ∧ e.message = message ∧ e.offset = offset := by
  cases h with
  | unopened => exact ⟨.unopened offset, rfl, rfl, rfl⟩
  | @unterminated rest hrest =>
    refine ⟨.unterminated offset, ?_, rfl, rfl⟩
    show blankFrom (.block offset 0) (offset + 2) (' ' :: ' ' :: done) rest = _
    exact blankFrom_unterminated rfl fun front more heq hfront => hrest front more (closes_zero_iff.mp hfront) heq

private theorem exists_lineEnd (text : List Char) :
    ∃ line rest, text = line ++ rest ∧ '\n' ∉ line ∧ (rest = [] ∨ rest.head? = some '\n') := by
  induction text with
  | nil => exact ⟨[], [], rfl, List.not_mem_nil, .inl rfl⟩
  | cons c text ih =>
    by_cases hc : c = '\n'
    · exact ⟨[], c :: text, rfl, List.not_mem_nil, .inr (congrArg some hc)⟩
    · obtain ⟨line, rest, rfl, hline, hrest⟩ := ih
      exact ⟨c :: line, rest, rfl, List.not_mem_cons_of_ne_of_not_mem (Ne.symm hc) hline, hrest⟩

private theorem exists_segment (source : List Char) : source = [] ∨ (∃ message, Stuck source message) ∨
    ∃ (s : Segment) (more : List Char), source = s.text ++ more ∧ s.Before more := by
  cases source with
  | nil => exact .inl rfl
  | cons c rest =>
    right
    by_cases hmark : BeginsMark (c :: rest)
    · rcases hmark with ⟨tail, htail⟩ | ⟨tail, htail⟩ | ⟨tail, htail⟩
      · obtain ⟨line, more, rfl, hline, hmore⟩ := exists_lineEnd tail
        exact .inr ⟨.comment ('/' :: '/' :: line), more, htail.symm, .line hline hmore⟩
      · rw [← htail]
        by_cases hblock : ∃ text more, BlockTail text ∧ tail = text ++ more
        · obtain ⟨text, more, htext, rfl⟩ := hblock
          exact .inr ⟨.comment ('/' :: '*' :: text), more, rfl, .block htext⟩
        · exact .inl ⟨_, .unterminated fun text more htext heq => hblock ⟨text, more, htext, heq⟩⟩
      · rw [← htail]
        exact .inl ⟨_, .unopened⟩
    · exact .inr ⟨.code c, rest, rfl, .code hmark⟩

private theorem Segment.Before.text_ne_nil {s : Segment} {rest : List Char} (h : s.Before rest) : s.text ≠ [] := by
  cases h <;> exact List.cons_ne_nil _ _

/-- Every source is read up to its end or up to a place where the reading is stuck. -/
theorem exists_reads (source : List Char) :
    ∃ segments rest, Reads source segments rest ∧ (rest = [] ∨ ∃ message, Stuck rest message) := by
  induction hlen : source.length using Nat.strong_induction_on generalizing source with
  | _ n ih =>
    rcases exists_segment source with rfl | hstuck | ⟨s, more, rfl, hs⟩
    · exact ⟨[], [], .stop, .inl rfl⟩
    · exact ⟨[], source, .stop, .inr hstuck⟩
    · have hpos := List.length_pos_of_ne_nil hs.text_ne_nil
      have hshorter : more.length < n := by
        rw [← hlen, List.length_append]
        omega
      obtain ⟨segments, rest, hreads, hrest⟩ := ih more.length hshorter more rfl
      exact ⟨s :: segments, rest, .next hs hreads, hrest⟩

private theorem Reads.blankComments_eq {source : List Char} {segments : List Segment} (h : Reads source segments []) :
    blankComments source = .ok (segments.flatMap Segment.replacement) := by
  obtain ⟨rfl, hpasses⟩ := h.passes
  rw [blankComments, hpasses]
  show Except.ok (_ ++ []).reverse = _
  rw [List.append_nil, List.reverse_reverse]

private theorem Reads.blankComments_error {source rest : List Char} {segments : List Segment} {message : String}
    (h : Reads source segments rest) (hstuck : Stuck rest message) :
    ∃ e, blankComments source = .error e ∧ e.message = message ∧
      e.offset = byteWidth (segments.flatMap Segment.text) := by
  obtain ⟨rfl, hpasses⟩ := h.passes
  rw [blankComments, hpasses, Nat.zero_add]
  exact hstuck.blankFrom_eq _ _

private theorem CommentError.eq_of_message {e e' : CommentError} (hmessage : e.message = e'.message)
    (hoffset : e.offset = e'.offset) : e = e' := by
  cases e <;> cases e' <;> simp_all [message, offset]

private theorem blankComments_eq_ok {source text : List Char} : blankComments source = .ok text ↔
    ∃ segments, Reads source segments [] ∧ text = segments.flatMap Segment.replacement := by
  constructor
  · intro h
    obtain ⟨segments, rest, hreads, rfl | ⟨message, hstuck⟩⟩ := exists_reads source
    · rw [hreads.blankComments_eq] at h
      exact ⟨segments, hreads, (Except.ok.inj h).symm⟩
    · obtain ⟨e, he, -⟩ := hreads.blankComments_error hstuck
      rw [he] at h
      cases h
  · rintro ⟨segments, hreads, rfl⟩
    exact hreads.blankComments_eq

private theorem blankComments_eq_error {source : List Char} {e : CommentError} : blankComments source = .error e ↔
    ∃ segments rest, Reads source segments rest ∧ Stuck rest e.message ∧
      e.offset = byteWidth (segments.flatMap Segment.text) := by
  constructor
  · intro h
    obtain ⟨segments, rest, hreads, rfl | ⟨message, hstuck⟩⟩ := exists_reads source
    · rw [hreads.blankComments_eq] at h
      cases h
    · obtain ⟨e', he', rfl, hoffset⟩ := hreads.blankComments_error hstuck
      rw [h] at he'
      cases he'
      exact ⟨segments, rest, hreads, hstuck, hoffset⟩
  · rintro ⟨segments, rest, hreads, hstuck, hoffset⟩
    obtain ⟨e', he', hmessage, hoffset'⟩ := hreads.blankComments_error hstuck
    rw [he', CommentError.eq_of_message hmessage (hoffset'.trans hoffset.symm)]

private theorem bytesOf_replacement (segments : List Segment) :
    bytesOf (segments.flatMap Segment.replacement) = segments.flatMap Segment.replacementBytes := by
  rw [bytesOf, List.flatMap_assoc]
  refine List.flatMap_congr fun s _ => ?_
  cases s with
  | code c => exact List.append_nil _
  | comment text => exact bytesOf_blanked text

private theorem bytesOf_inj {text text' : List Char} : bytesOf text = bytesOf text' ↔ text = text' := by
  refine ⟨fun h => ?_, fun h => h ▸ rfl⟩
  have hdata : (String.ofList text).toUTF8.data = (String.ofList text').toUTF8.data := by
    rw [data_toUTF8, data_toUTF8, String.toList_ofList, String.toList_ofList, h]
  have htoUTF8 : (String.ofList text).toByteArray = (String.ofList text').toByteArray := ByteArray.ext hdata
  exact String.ofList_injective (String.toByteArray_inj.mp htoUTF8)

/-- Comments are blanked in the sources that are read to their end as code, comments to the end of the line and nested
comments, and what is blanked are the bytes of the comments but for the newlines. In all other sources there is an
error at the place where the reading is stuck: a mark that closes no comment, or one that opens a comment which is not
closed. -/
theorem comments_follow_nested_grammar (source : String) :
    ((∃ text, blankComments source.toList = .ok text) ↔ ∃ segments, Reads source.toList segments []) ∧
      (∀ text : String, blankComments source.toList = .ok text.toList ↔ ∃ segments, Reads source.toList segments [] ∧
        text.toUTF8.data.toList = segments.flatMap Segment.replacementBytes) ∧
      ∀ e, blankComments source.toList = .error e ↔ ∃ segments rest, Reads source.toList segments rest ∧
        Stuck rest e.message ∧ e.offset = byteWidth (segments.flatMap Segment.text) := by
  refine ⟨⟨?_, ?_⟩, fun text => ?_, fun e => blankComments_eq_error⟩
  · rintro ⟨text, htext⟩
    obtain ⟨segments, hreads, -⟩ := blankComments_eq_ok.mp htext
    exact ⟨segments, hreads⟩
  · rintro ⟨segments, hreads⟩
    exact ⟨_, hreads.blankComments_eq⟩
  · rw [blankComments_eq_ok]
    refine exists_congr fun segments => and_congr_right fun _ => ?_
    rw [← bytesOf_inj, bytesOf_replacement, data_toUTF8]

end StackToolchain.Source
