import StackToolchain.Proofs.Source.Respelling

/-! Blanking keeps places.
Byte by byte, a source without its comments is the source, with spaces in the place of what stood in a comment and was
no newline. A source divides into code and comments in one way only, so that being outside of all comments is a matter
of the source alone. No mark of a comment is left, and blanking once more changes nothing. -/
namespace StackToolchain.Source

open Text (isBlank byteWidth RestAt)

def bytesOf (text : List Char) : List UInt8 :=
  text.flatMap String.utf8EncodeChar

@[simp] theorem bytesOf_nil : bytesOf [] = [] := rfl

@[simp] theorem bytesOf_cons (c : Char) (text : List Char) :
    bytesOf (c :: text) = String.utf8EncodeChar c ++ bytesOf text :=
  List.flatMap_cons

@[simp] theorem bytesOf_append (text more : List Char) : bytesOf (text ++ more) = bytesOf text ++ bytesOf more :=
  List.flatMap_append

theorem data_toUTF8 (s : String) : s.toUTF8.data = (bytesOf s.toList).toArray := by
  rw [← String.ofList_toList (s := s), String.toUTF8_eq_toByteArray, String.toByteArray_ofList, String.toList_ofList]
  exact List.data_toByteArray

private theorem utf8ByteSize_eq_length (s : String) : s.utf8ByteSize = (bytesOf s.toList).length := by
  have hsize := congrArg Array.size (data_toUTF8 s)
  rw [List.size_toArray] at hsize
  rw [← String.size_toByteArray, ← String.toUTF8_eq_toByteArray]
  exact hsize

/-- Only a newline has the byte of a newline: the bytes of a character that has several are all high. -/
theorem newline_not_mem_utf8EncodeChar {c : Char} (hc : c ≠ '\n') : 0x0A ∉ String.utf8EncodeChar c := by
  have hval : c.val.toNat ≠ 0x0A := by
    intro h
    apply hc
    exact Char.ext (UInt32.toNat_inj.mp h)
  have hlow (n : Nat) (hn : n % 256 ≠ 0x0A) : (0x0A : UInt8) ≠ UInt8.ofNat n := by
    intro h
    apply hn
    have := congrArg UInt8.toNat h
    simpa using this.symm
  unfold String.utf8EncodeChar
  simp only
  split_ifs <;> simp only [List.mem_cons, List.not_mem_nil, or_false, not_or]
  · exact hlow _ (by omega)
  · exact ⟨hlow _ (by omega), hlow _ (by omega)⟩
  · exact ⟨hlow _ (by omega), hlow _ (by omega), hlow _ (by omega)⟩
  · exact ⟨hlow _ (by omega), hlow _ (by omega), hlow _ (by omega), hlow _ (by omega)⟩

private theorem forall₂_getElem? {α β : Type} {R : α → β → Prop} {l : List α} {l' : List β}
    (h : List.Forall₂ R l l') (k : Nat) :
    (l[k]? = none ∧ l'[k]? = none) ∨ ∃ a b, l[k]? = some a ∧ l'[k]? = some b ∧ R a b := by
  induction h generalizing k with
  | nil => exact .inl ⟨rfl, rfl⟩
  | cons hab _ ih =>
    cases k with
    | zero => exact .inr ⟨_, _, rfl, rfl, hab⟩
    | succ k => exact ih k

/-- What a byte of the source may become: itself, or a space unless it is a newline. -/
private def KeepsByte (b b' : UInt8) : Prop :=
  b' = b ∨ b' = 0x20 ∧ b ≠ 0x0A

private theorem forall₂_keepsByte_refl (bytes : List UInt8) : List.Forall₂ KeepsByte bytes bytes :=
  List.forall₂_same.mpr fun _ _ => .inl rfl

theorem bytesOf_blankOf (c : Char) : bytesOf (blankOf c) = List.replicate (String.utf8EncodeChar c).length 0x20 := by
  rw [String.length_utf8EncodeChar, bytesOf, blankOf, List.flatMap_replicate]
  exact List.flatten_replicate_singleton

private theorem forall₂_keepsByte_blankOf {c : Char} (hc : c ≠ '\n') :
    List.Forall₂ KeepsByte (String.utf8EncodeChar c) (bytesOf (blankOf c)) := by
  have hnewline := newline_not_mem_utf8EncodeChar hc
  rw [bytesOf_blankOf]
  generalize String.utf8EncodeChar c = bytes at hnewline
  induction bytes with
  | nil => exact .nil
  | cons b bytes ih =>
    obtain ⟨hb, hbytes⟩ := not_or.mp (mt List.mem_cons.mpr hnewline)
    exact .cons (.inr ⟨rfl, Ne.symm hb⟩) (ih hbytes)

private theorem forall₂_keepsByte_blanked (comment : List Char) :
    List.Forall₂ KeepsByte (bytesOf comment) (bytesOf (blanked comment)) := by
  induction comment with
  | nil => exact .nil
  | cons c comment ih =>
    by_cases hc : c = '\n'
    · rw [hc, blanked_newline, bytesOf_cons, bytesOf_cons]
      exact List.rel_append (forall₂_keepsByte_refl _) ih
    · rw [blanked_cons hc, bytesOf_cons, bytesOf_append]
      exact List.rel_append (forall₂_keepsByte_blankOf hc) ih

private theorem Strips.keepsBytes {source text : List Char} (h : Strips source text) :
    List.Forall₂ KeepsByte (bytesOf source) (bytesOf text) := by
  induction h with
  | nil => exact .nil
  | code _ _ ih =>
    rw [bytesOf_cons, bytesOf_cons]
    exact List.rel_append (forall₂_keepsByte_refl _) ih
  | comment _ _ ih =>
    rw [bytesOf_append, bytesOf_append]
    exact List.rel_append (forall₂_keepsByte_blanked _) ih

theorem Closes.ne_nil {depth : Nat} {text : List Char} (h : Closes depth text) : text ≠ [] := by
  cases h <;> exact List.cons_ne_nil _ _

/-- A mark at the front of a longer text is one of the text, if this goes on after its first character. -/
theorem BeginsBlockMark.of_append {c : Char} {mark text rest rest' : List Char} (hmark : BeginsBlockMark mark)
    (hne : text ≠ []) (h : mark ++ rest = c :: (text ++ rest')) : BeginsBlockMark (c :: text) := by
  obtain ⟨d, more, rfl⟩ := List.exists_cons_of_ne_nil hne
  have hlong := hmark.append rest
  rw [h] at hlong
  simpa [BeginsBlockMark] using hlong

private theorem Closes.unique {depth : Nat} {text text' rest rest' : List Char} (h : Closes depth text)
    (h' : Closes depth text') (heq : text ++ rest = text' ++ rest') : text = text' := by
  have hclose {more : List Char} : BeginsBlockMark ('*' :: '/' :: more) := .inr ⟨more, rfl⟩
  have hopen {more : List Char} : BeginsBlockMark ('/' :: '*' :: more) := .inl ⟨more, rfl⟩
  induction h generalizing text' with
  | last =>
    cases h' with
    | last => rfl
    | opening => cases heq
    | char hmark hrest => exact absurd (hclose.of_append hrest.ne_nil heq) hmark
  | close _ ih =>
    cases h' with
    | close hrest => rw [ih hrest (List.cons.inj (List.cons.inj heq).2).2]
    | opening => cases heq
    | char hmark hrest => exact absurd (hclose.of_append hrest.ne_nil heq) hmark
  | opening _ ih =>
    cases h' with
    | last => cases heq
    | close => cases heq
    | opening hrest => rw [ih hrest (List.cons.inj (List.cons.inj heq).2).2]
    | char hmark hrest => exact absurd (hopen.of_append hrest.ne_nil heq) hmark
  | char hmark hrest ih =>
    cases h' with
    | last => exact absurd (hclose.of_append hrest.ne_nil heq.symm) hmark
    | close => exact absurd (hclose.of_append hrest.ne_nil heq.symm) hmark
    | opening => exact absurd (hopen.of_append hrest.ne_nil heq.symm) hmark
    | char _ hrest' =>
      obtain ⟨rfl, htail⟩ := List.cons.inj heq
      rw [ih hrest' htail]

/-- A comment to the end of the line is over at the first newline. -/
theorem eq_of_append_eq_of_newline {text text' rest rest' : List Char} (h : '\n' ∉ text) (h' : '\n' ∉ text')
    (hend : rest = [] ∨ rest.head? = some '\n') (hend' : rest' = [] ∨ rest'.head? = some '\n')
    (heq : text ++ rest = text' ++ rest') : text = text' := by
  have hstop {c : Char} {more tail : List Char} (hmore : '\n' ∉ c :: more)
      (htail : c :: tail = [] ∨ (c :: tail).head? = some '\n') : False := by
    rcases htail with htail | htail
    · cases htail
    · cases htail
      exact hmore List.mem_cons_self
  induction text generalizing text' with
  | nil =>
    cases text' with
    | nil => rfl
    | cons c text' =>
      obtain rfl : rest = c :: (text' ++ rest') := heq
      exact (hstop h' hend).elim
  | cons c text ih =>
    cases text' with
    | nil =>
      obtain rfl : c :: (text ++ rest) = rest' := heq
      exact (hstop h hend').elim
    | cons d text' =>
      obtain ⟨rfl, htail⟩ := List.cons.inj heq
      rw [ih (List.not_mem_of_not_mem_cons h) (List.not_mem_of_not_mem_cons h') htail]

private theorem Comment.unique {comment comment' rest rest' : List Char} (h : Comment comment rest)
    (h' : Comment comment' rest') (heq : comment ++ rest = comment' ++ rest') : comment = comment' := by
  cases h with
  | line hline hend =>
    cases h' with
    | line hline' hend' =>
      rw [eq_of_append_eq_of_newline hline hline' hend hend' (List.cons.inj (List.cons.inj heq).2).2]
    | block => cases heq
  | block hclose =>
    cases h' with
    | line => cases heq
    | block hclose' => rw [hclose.unique hclose' (List.cons.inj (List.cons.inj heq).2).2]

private theorem Comment.beginsMark {comment rest : List Char} (h : Comment comment rest) :
    BeginsMark (comment ++ rest) := by
  cases h with
  | line => exact .inl ⟨_, rfl⟩
  | block => exact .inr (.inl ⟨_, rfl⟩)

private theorem Strips.code_inv {c : Char} {rest text : List Char} (hmark : ¬BeginsMark (c :: rest))
    (h : Strips (c :: rest) text) : ∃ text', text = c :: text' ∧ Strips rest text' := by
  generalize hall : c :: rest = all at h
  cases h with
  | nil => cases hall
  | code _ hrest =>
    cases hall
    exact ⟨_, rfl, hrest⟩
  | comment hcomment _ =>
    rw [hall] at hmark
    exact absurd hcomment.beginsMark hmark

private theorem Strips.comment_inv {comment rest text : List Char} (hcomment : Comment comment rest)
    (h : Strips (comment ++ rest) text) : ∃ text', text = blanked comment ++ text' ∧ Strips rest text' := by
  have hmark := hcomment.beginsMark
  generalize hall : comment ++ rest = all at h hmark
  cases h with
  | nil => exact absurd (List.append_eq_nil_iff.mp hall).1 hcomment.ne_nil
  | code hcode _ => exact absurd hmark hcode
  | comment hcomment' hrest =>
    obtain rfl := hcomment.unique hcomment' hall
    cases List.append_cancel_left hall
    exact ⟨_, rfl, hrest⟩

/-- A character between two texts is outside of all comments: what stands before it is code and whole comments, and it
begins none itself. -/
inductive Outside : List Char → Char → List Char → Prop
  | here {c after} : ¬BeginsMark (c :: after) → Outside [] c after
  | code {d before c after} : ¬BeginsMark (d :: (before ++ c :: after)) → Outside before c after →
      Outside (d :: before) c after
  | comment {comment before c after} : Comment comment (before ++ c :: after) → Outside before c after →
      Outside (comment ++ before) c after

private theorem restAt_append {more more' text before rest : List Char} (hwidth : byteWidth more' = byteWidth more)
    (h : RestAt text (byteWidth before) rest) : RestAt (more' ++ text) (byteWidth (more ++ before)) rest := by
  obtain ⟨front, rfl, hfront⟩ := h
  refine ⟨more' ++ front, by rw [List.append_assoc], ?_⟩
  rw [Text.byteWidth_append, Text.byteWidth_append, hwidth, hfront]

private theorem Strips.keeps_outside {before after text : List Char} {c : Char} (hout : Outside before c after)
    (h : Strips (before ++ c :: after) text) : ∃ after', RestAt text (byteWidth before) (c :: after') := by
  induction hout generalizing text with
  | here hmark =>
    obtain ⟨text', rfl, -⟩ := h.code_inv hmark
    exact ⟨text', [], rfl, rfl⟩
  | @code d before c after hmark _ ih =>
    obtain ⟨text', rfl, hrest⟩ := Strips.code_inv hmark h
    obtain ⟨after', hafter⟩ := ih hrest
    exact ⟨after', restAt_append (Eq.refl (byteWidth [d])) hafter⟩
  | @comment comment before c after hcomment _ ih =>
    rw [List.append_assoc] at h
    obtain ⟨text', rfl, hrest⟩ := Strips.comment_inv hcomment h
    obtain ⟨after', hafter⟩ := ih hrest
    exact ⟨after', restAt_append (byteWidth_blanked comment) hafter⟩

private theorem Strips.outside_or_blanked {source before after text : List Char} {c : Char} (h : Strips source text)
    (hsource : source = before ++ c :: after) :
    Outside before c after ∨ c = '\n' ∨ ∃ after', RestAt text (byteWidth before) (blankOf c ++ after') := by
  induction h generalizing before with
  | nil => simp at hsource
  | @code d rest text hmark _ ih =>
    cases before with
    | nil =>
      cases hsource
      exact .inl (.here hmark)
    | cons e before =>
      obtain ⟨rfl, rfl⟩ := List.cons.inj hsource
      rcases ih rfl with hout | hc | ⟨after', hafter⟩
      · exact .inl (.code hmark hout)
      · exact .inr (.inl hc)
      · exact .inr (.inr ⟨after', restAt_append (Eq.refl (byteWidth [d])) hafter⟩)
  | @comment comment rest text hcomment _ ih =>
    rcases append_eq_append_cons hsource with ⟨more, rfl, rfl⟩ | ⟨more, rfl⟩
    · rcases ih rfl with hout | hc | ⟨after', hafter⟩
      · exact .inl (.comment hcomment hout)
      · exact .inr (.inl hc)
      · exact .inr (.inr ⟨after', restAt_append (byteWidth_blanked comment) hafter⟩)
    · by_cases hc : c = '\n'
      · exact .inr (.inl hc)
      · refine .inr (.inr ⟨blanked more ++ text, blanked before, ?_, byteWidth_blanked before⟩)
        rw [blanked_append, blanked_cons hc, List.append_assoc, List.append_assoc]

private theorem Strips.noMark {source text : List Char} (h : Strips source text) : text.IsChain NoMark := by
  induction h with
  | nil => exact .nil
  | @code c rest text hmark hrest ih =>
    refine List.isChain_cons.mpr ⟨fun d hd => ?_, ih⟩
    obtain ⟨more, rfl⟩ := List.head?_eq_some_iff.mp hd
    rcases hrest.head_cases with ⟨tail, rfl, -⟩ | ⟨rfl, -⟩
    · -- the next character is code as well, so the two stand side by side in the source
      exact fun hpair => hmark (hpair.append tail)
    · exact noMark_of_isBlank rfl
  | comment _ _ ih => exact noMark_blanks_append (fun c => isBlank_of_mem_blanked) ih

private theorem not_infix_of_noMark {c d : Char} {text : List Char} (h : text.IsChain NoMark)
    (hmark : BeginsMark [c, d]) : ¬[c, d] <:+: text := by
  intro hpair
  have hchain : [c, d].IsChain NoMark := List.IsChain.infix h hpair
  exact List.isChain_pair.mp hchain hmark

private theorem blankComments_of_noMark {text : List Char} (h : text.IsChain NoMark) : blankComments text = .ok text :=
  blankFrom_of_noMark h 0 []

/-- A source without its comments is as long as the source, with the newlines where they were and every other byte as
it was or a space. What is outside of all comments stays at its place and what is inside is blanked. No mark of a
comment is left, so that there is nothing to blank any more. -/
theorem blanking_keeps_places {source text : String} (h : blankComments source.toList = .ok text.toList) :
    text.utf8ByteSize = source.utf8ByteSize ∧
      (∀ k : Nat, text.toUTF8.data[k]? = some 0x0A ↔ source.toUTF8.data[k]? = some 0x0A) ∧
      (∀ (k : Nat) (b : UInt8), text.toUTF8.data[k]? = some b → source.toUTF8.data[k]? = some b ∨ b = 0x20) ∧
      (∀ before c after, source.toList = before ++ c :: after →
        (Outside before c after → ∃ after', RestAt text.toList (byteWidth before) (c :: after')) ∧
          (¬Outside before c after →
            c = '\n' ∨ ∃ after', RestAt text.toList (byteWidth before) (blankOf c ++ after'))) ∧
      (¬['/', '/'] <:+: text.toList ∧ ¬['/', '*'] <:+: text.toList ∧ ¬['*', '/'] <:+: text.toList) ∧
      blankComments text.toList = .ok text.toList := by
  have hstrips := blankComments_strips h
  have hbytes := hstrips.keepsBytes
  have hnoMark := hstrips.noMark
  simp only [data_toUTF8, List.getElem?_toArray]
  refine ⟨?_, ?_, ?_, ?_, ⟨?_, ?_, ?_⟩, blankComments_of_noMark hnoMark⟩
  · rw [utf8ByteSize_eq_length, utf8ByteSize_eq_length, hbytes.length_eq]
  · intro k
    rcases forall₂_getElem? hbytes k with ⟨hsource, htext⟩ | ⟨b, b', hsource, htext, hkeeps⟩
    · rw [hsource, htext]
    · rw [hsource, htext]
      rcases hkeeps with rfl | ⟨rfl, hnewline⟩
      · rfl
      · simpa using hnewline
  · intro k b hb
    rcases forall₂_getElem? hbytes k with ⟨-, htext⟩ | ⟨b', b'', hsource, htext, hkeeps⟩
    · rw [htext] at hb
      cases hb
    · rw [htext] at hb
      cases hb
      rcases hkeeps with rfl | ⟨hspace, -⟩
      · exact .inl hsource
      · exact .inr hspace
  · intro before c after hsource
    rw [hsource] at hstrips
    refine ⟨fun hout => hstrips.keeps_outside hout, fun hin => ?_⟩
    exact (hstrips.outside_or_blanked rfl).resolve_left hin
  · exact not_infix_of_noMark hnoMark (.inl ⟨[], rfl⟩)
  · exact not_infix_of_noMark hnoMark (.inr (.inl ⟨[], rfl⟩))
  · exact not_infix_of_noMark hnoMark (.inr (.inr ⟨[], rfl⟩))

def adjacentComments : String :=
  "x/**//*é\n*/y//*z"

def adjacentBlanked : String :=
  "x        \n  y    "

theorem blanking_keeps_places_of_adjacent_comments :
    blankComments adjacentComments.toList = .ok adjacentBlanked.toList ∧
      adjacentBlanked.utf8ByteSize = adjacentComments.utf8ByteSize ∧
      (∃ after, RestAt adjacentBlanked.toList 12 ('y' :: after)) ∧
      blankComments adjacentBlanked.toList = .ok adjacentBlanked.toList := by
  have hblank : blankComments adjacentComments.toList = .ok adjacentBlanked.toList := by
    simp only [adjacentComments, adjacentBlanked, String.reduceToList]
    rfl
  have hsource : adjacentComments.toList =
      'x' :: (['/', '*', '*', '/'] ++ (['/', '*', 'é', '\n', '*', '/'] ++ [])) ++ 'y' :: ['/', '/', '*', 'z'] := by
    simp only [adjacentComments, String.reduceToList]
    rfl
  have hclose : Closes 0 ['é', '\n', '*', '/'] :=
    .char (not_beginsBlockMark (by simp) (by simp)) (.char (not_beginsBlockMark (by simp) (by simp)) .last)
  have houtside : Outside ('x' :: (['/', '*', '*', '/'] ++ (['/', '*', 'é', '\n', '*', '/'] ++ []))) 'y'
      ['/', '/', '*', 'z'] :=
    .code (not_beginsMark (by simp) (by simp) (by simp)) (.comment (.block .last)
      (.comment (.block hclose) (.here (not_beginsMark (by simp) (by simp) (by simp)))))
  obtain ⟨hsize, -, -, hplaces, -, hagain⟩ := blanking_keeps_places hblank
  exact ⟨hblank, hsize, (hplaces _ _ _ hsource).1 houtside, hagain⟩

end StackToolchain.Source
