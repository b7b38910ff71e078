import StackToolchain.Proofs.Source.Tiling

/-! Lexing undoes spelling.
The lexer finds every division of a text into blanks and spellings that are as long as they go. Spellings with blanks
between them are such a division, and they hold no mark of a comment. -/
namespace StackToolchain.Source

open Text (isBlank isName isNameStart isNameChar byteWidth)

theorem digitValue?_lt {radix d : Nat} {c : Char} (h : Text.digitValue? radix c = some d) : d < radix := by
  simp only [Text.digitValue?, Option.ite_none_right_eq_some, Option.some.injEq] at h
  obtain ⟨hlt, rfl⟩ := h
  exact hlt

private theorem readOnto_of_values {radix limit value : Nat} {digits : List Char} {values : List Nat}
    (hvalues : digits.map (Text.digitValue? radix) = values.map some)
    (hlimit : value * radix ^ values.length + Nat.ofDigits radix values.reverse < limit) :
    Text.readOnto radix limit value digits =
      .ok (value * radix ^ values.length + Nat.ofDigits radix values.reverse) := by
  induction digits generalizing value values with
  | nil =>
    obtain rfl : values = [] := List.map_eq_nil_iff.mp hvalues.symm
    simp [Text.readOnto]
  | cons c rest ih =>
    cases values with
    | nil => cases hvalues
    | cons d values =>
      obtain ⟨hd, hrest⟩ := List.cons.inj hvalues
      have hradix : 0 < radix := Nat.zero_lt_of_lt (digitValue?_lt hd)
      have hstep : value * radix ^ (d :: values).length + Nat.ofDigits radix (d :: values).reverse =
          (value * radix + d) * radix ^ values.length + Nat.ofDigits radix values.reverse := by
        rw [List.reverse_cons, Nat.ofDigits_append, List.length_reverse, Nat.ofDigits_singleton, List.length_cons]
        ring
      rw [hstep] at hlimit ⊢
      -- what is read so far is not above the whole
      have hle : value * radix + d ≤ (value * radix + d) * radix ^ values.length :=
        Nat.le_mul_of_pos_right _ (Nat.pow_pos hradix)
      rw [Text.readOnto, hd]
      show (if value * radix + d < limit then Text.readOnto radix limit (value * radix + d) rest else _) = _
      rw [if_pos (by omega), ih hrest hlimit]

private theorem Denotes.readDigits {radix limit n : Nat} {digits : List Char} (h : Denotes radix digits n)
    (hn : n < limit) : Text.readDigits radix limit (digits.filter (· != '_')) = .ok n := by
  obtain ⟨values, hne, hvalues, rfl⟩ := h
  have hdigits : (digits.filter (· != '_')).isEmpty = false := by
    rw [List.isEmpty_eq_false_iff]
    intro hnil
    rw [hnil] at hvalues
    exact hne (List.map_eq_nil_iff.mp hvalues.symm)
  have hread : Text.readOnto radix limit 0 (digits.filter (· != '_')) = .ok (Nat.ofDigits radix values.reverse) := by
    simpa using @readOnto_of_values radix limit 0 _ values hvalues (by simpa using hn)
  rw [Text.readDigits, hdigits]
  exact hread

theorem Numeral.denotes_announced {word : List Char} {n : Nat} (h : Numeral word n) :
    Denotes (Text.announcedRadix word).1 (Text.announcedRadix word).2 n := by
  cases h with
  | hexadecimal h => exact h
  | binary h => exact h
  | decimal h =>
    -- a letter after the zero is no decimal digit
    have hletter {c : Char} {rest : List Char} (hc : c ≠ '_') (hnone : Text.digitValue? 10 c = none) :
        ¬Denotes 10 ('0' :: c :: rest) n := by
      rintro ⟨values, -, hvalues, -⟩
      have hmem : none ∈ values.map some := by
        rw [← hvalues, List.mem_map]
        exact ⟨c, by simp [hc], hnone⟩
      simp at hmem
    unfold Text.announcedRadix
    split
    · exact absurd h (hletter (by decide) (by decide))
    · exact absurd h (hletter (by decide) (by decide))
    · exact h

/-- A word is read as the number that it denotes. -/
theorem readInteger_eq_ok {word : List Char} {n : UInt16} : readInteger word = .ok n ↔ Numeral word n.toNat := by
  refine ⟨readInteger_numeral, fun h => ?_⟩
  have hn : n.toNat < 0x10000 := n.toNat_lt
  unfold readInteger
  simp only [h.denotes_announced.readDigits (Nat.lt_trans hn (by decide : 0x10000 < 0x100000000)), if_pos hn,
    Nat.toUInt16_eq, UInt16.ofNat_toNat]

private theorem Punct.ofChar?_eq_some {c : Char} {p : Punct} : Punct.ofChar? c = some p ↔ p.text.toList = [c] := by
  refine ⟨Punct.text_of_ofChar?, fun h => ?_⟩
  cases p <;> simp [Punct.text] at h <;> subst h <;> rfl

private theorem readPunct?_of_text {p : Punct} {c : Char} {more rest : List Char} (h : p.text.toList = c :: more)
    (hends : EndsBefore (c :: more) rest) : readPunct? c (more ++ rest) = some (p, more.length) := by
  unfold readPunct?
  cases more with
  | nil =>
    have hnone : rest.head?.bind (Punct.ofPair? c) = none := by
      rw [Option.bind_eq_none_iff]
      intro d hd
      rw [Option.eq_none_iff_forall_ne_some]
      exact fun q hq => hends.mark_ends d hd q (Punct.ofPair?_eq_some.mp hq)
    rw [List.nil_append, hnone, Punct.ofChar?_eq_some.mpr h]
    rfl
  | cons d more =>
    have hlen := p.length_text_le
    rw [h] at hlen
    obtain rfl : more = [] := List.length_eq_zero_iff.mp (by simpa using hlen)
    rw [List.cons_append, List.head?_cons, Option.bind_some, Punct.ofPair?_eq_some.mpr h]
    rfl

private theorem readPunct?_eq_none {c : Char} {rest : List Char} (h : ∀ p : Punct, c ∉ p.text.toList) :
    readPunct? c rest = none := by
  cases hread : readPunct? c rest with
  | none => rfl
  | some read =>
    obtain ⟨p, more⟩ := read
    exact absurd (by simp [(readPunct?_spelling hread).1]) (h p)

private theorem takeWhile_word {word rest : List Char} (hword : word.all isNameChar = true)
    (hrest : ∀ c, rest.head? = some c → isNameChar c = false) : (word ++ rest).takeWhile isNameChar = word := by
  rw [List.takeWhile_append_of_pos (List.all_eq_true.mp hword)]
  cases rest with
  | nil => simp
  | cons c rest => simp [hrest c rfl]

private theorem wordKind_keyword (k : Keyword) : wordKind k.text = .keyword k := by
  cases k <;> rfl

private theorem wordKind_ident {name : String} (h : ∀ k : Keyword, k.text ≠ name) : wordKind name = .ident name := by
  have hnone : Keyword.ofText? name = none := List.find?_eq_none.mpr fun k _ => by simpa using h k
  rw [wordKind, hnone]

private theorem isNameStart_not_isDigit {c : Char} (h : isNameStart c = true) : c.isDigit = false := by
  have hrange := Text.isNameStart_iff.mp h
  rw [Bool.eq_false_iff, ne_eq, Char.isDigit_iff_toNat]
  change ¬(48 ≤ c.toNat ∧ c.toNat ≤ 57)
  omega

private theorem readToken_name {name : String} {c : Char} {more rest : List Char} (hchars : name.toList = c :: more)
    (hname : isName name.toList = true) (hends : EndsBefore (c :: more) rest) :
    readToken c (more ++ rest) = .ok (wordKind name, more.length) := by
  have hall := Text.all_isNameChar_of_isName hname
  rw [hchars] at hname hall
  obtain ⟨hstart, hmore⟩ := Bool.and_eq_true_iff.mp hname
  have hquote : c ≠ '\'' := by
    rintro rfl
    cases hstart
  have hpunct : readPunct? c (more ++ rest) = none := by
    refine readPunct?_eq_none fun p hmem => ?_
    rw [List.all_cons, (p.mem_text c hmem).1] at hall
    cases hall
  have hword : String.ofList (c :: more) = name := by rw [← hchars, String.ofList_toList]
  unfold readToken
  simp only [hpunct, takeWhile_word hmore (hends.word_ends hall), isNameStart_not_isDigit hstart, hquote, hstart, hword,
    Bool.false_eq_true, if_true, if_false]

theorem readToken_digit {c : Char} {more rest : List Char} (hdigit : c.isDigit = true)
    (hmore : more.all isNameChar = true) (hrest : ∀ d, rest.head? = some d → isNameChar d = false) :
    readToken c (more ++ rest) = readInteger (c :: more) >>= fun n => .ok (.number n, more.length) := by
  have hpunct : readPunct? c (more ++ rest) = none := by
    refine readPunct?_eq_none fun p hmem => ?_
    have hname := (p.mem_text c hmem).1
    rw [Text.isNameChar_iff.mpr (.inr hdigit)] at hname
    cases hname
  unfold readToken
  simp only [hpunct, takeWhile_word hmore hrest, hdigit, if_true]
  rfl

private theorem charConstant_eq_ok {c : Char} {n : UInt16} (h : c.toNat = n.toNat) : charConstant c = .ok n := by
  have hn : n.toNat < 0x10000 := n.toNat_lt
  rw [charConstant, h, if_pos hn, Nat.toUInt16_eq, UInt16.ofNat_toNat]

private theorem readChar_plain {c : Char} {n : UInt16} {rest : List Char} (hc : c ≠ '\\') (hn : c.toNat = n.toNat) :
    readChar (c :: '\'' :: rest) = .ok (n, 2) := by
  unfold readChar
  split
  · rename_i heq
    exact absurd (List.cons.inj heq).1 hc
  · rename_i heq
    exact absurd (List.cons.inj heq).1 hc
  · rename_i heq
    cases heq
    rw [charConstant_eq_ok hn]
    rfl
  · rename_i hother
    exact absurd rfl (hother _ _)

private theorem readChar_escape {c d : Char} {n : UInt16} {rest : List Char} (hc : (c, d) ∈ escapes)
    (hn : d.toNat = n.toNat) : readChar ('\\' :: c :: '\'' :: rest) = .ok (n, 3) := by
  simp only [readChar, escaped?_eq_some.mpr hc, charConstant_eq_ok hn]
  rfl

private theorem readToken_quoted {n : UInt16} {rest : List Char} {more : Nat} (h : readChar rest = .ok (n, more)) :
    readToken '\'' rest = .ok (.number n, more) := by
  have hpunct : readPunct? '\'' rest = none := readPunct?_eq_none fun p hmem => (p.mem_text _ hmem).2.2 rfl
  unfold readToken
  simp only [hpunct]
  rw [if_neg (by decide), if_pos trivial, h]
  rfl

/-- A spelling that is as long as it goes is read as the token it spells. -/
theorem Spelling.readToken_eq {kind : TokenKind} {c : Char} {more rest : List Char} (h : Spelling kind (c :: more))
    (hends : EndsBefore (c :: more) rest) : readToken c (more ++ rest) = .ok (kind, more.length) := by
  generalize hword : c :: more = word at h
  cases h with
  | punct p =>
    unfold readToken
    rw [readPunct?_of_text hword.symm hends]
  | keyword k =>
    rw [← wordKind_keyword k]
    exact readToken_name hword.symm k.isName_text hends
  | ident hname hkeyword =>
    rw [← wordKind_ident hkeyword]
    exact readToken_name hword.symm hname hends
  | numeral hdigit hall hn =>
    cases hword
    have hchars : (c :: more).all isNameChar = true := by
      rw [List.all_cons, hall, Text.isNameChar_iff.mpr (.inr hdigit)]
      rfl
    rw [readToken_digit hdigit hall (hends.word_ends hchars), readInteger_eq_ok.mpr hn]
    rfl
  | character hc hn =>
    cases hword
    exact readToken_quoted (readChar_plain hc hn)
  | escape hc hn =>
    cases hword
    exact readToken_quoted (readChar_escape hc hn)

/-- The lexer finds every division into blanks and spellings. -/
theorem Lexes.lexFrom_eq {offset : Nat} {text : List Char} {lexemes : List Lexeme} (h : Lexes offset text lexemes)
    (done : List Token) : lexFrom offset done text =
      .ok (done.reverse ++ lexemes.map Lexeme.token ++ [⟨.endOfInput, offset + byteWidth text⟩]) := by
  induction h generalizing done with
  | nil =>
    rw [lexFrom]
    simp
  | blank hblank _ ih =>
    rw [lexFrom, if_pos hblank, ih, Text.byteWidth_cons, Nat.add_assoc]
  | word hword hends _ ih =>
    obtain ⟨c, more, rfl, hc⟩ := hword.exists_head
    rw [List.cons_append, lexFrom, hc, hword.readToken_eq hends]
    simp only [Bool.false_eq_true, if_false, List.take_left, List.drop_left, ih]
    simp [Nat.add_assoc]

def NoMark (c d : Char) : Prop :=
  ¬BeginsMark [c, d]

private theorem noMark_of_left {c d : Char} (hslash : c ≠ '/') (hstar : c ≠ '*') : NoMark c d :=
  not_beginsMark (fun _ hc => absurd hc hslash) (fun _ hc => absurd hc hslash) (fun _ hc => absurd hc hstar)

private theorem noMark_of_right {c d : Char} (hslash : d ≠ '/') (hstar : d ≠ '*') : NoMark c d :=
  not_beginsMark (fun _ _ hd => hslash (List.cons.inj hd).1) (fun _ _ hd => hstar (List.cons.inj hd).1)
    (fun _ _ hd => hslash (List.cons.inj hd).1)

theorem blankFrom_of_noMark {text : List Char} (h : text.IsChain NoMark) (offset : Nat) (done : List Char) :
    blankFrom .code offset done text = .ok (done.reverse ++ text) := by
  induction text generalizing offset done with
  | nil =>
    rw [List.append_nil]
    rfl
  | cons c rest ih =>
    have hmark : ¬BeginsMark (c :: rest) := by
      cases rest with
      | nil => exact not_beginsMark (by simp) (by simp) (by simp)
      | cons d tail =>
        have hpair : ¬BeginsMark [c, d] := (List.isChain_cons_cons.mp h).1
        simpa [BeginsMark, BeginsBlockMark] using hpair
    rw [blankFrom_code hmark, ih h.tail, List.reverse_cons, List.append_assoc, List.singleton_append]

private theorem noMark_names {word : List Char} (h : word.all isNameChar = true) : word.IsChain NoMark := by
  induction word with
  | nil => exact .nil
  | cons c rest ih =>
    rw [List.all_cons, Bool.and_eq_true] at h
    refine List.isChain_cons.mpr ⟨fun d _ => noMark_of_left ?_ ?_, ih h.2⟩
    · rintro rfl
      cases h.1
    · rintro rfl
      cases h.1

private theorem Spelling.noMark {kind : TokenKind} {word : List Char} (h : Spelling kind word) :
    word.IsChain NoMark := by
  cases h with
  | punct p => cases p <;> simp [Punct.text] <;> exact noMark_of_left (by decide) (by decide)
  | keyword k => exact noMark_names (Text.all_isNameChar_of_isName k.isName_text)
  | ident hname _ => exact noMark_names (Text.all_isNameChar_of_isName hname)
  | numeral hdigit hall _ =>
    refine noMark_names ?_
    rw [List.all_cons, hall, Text.isNameChar_iff.mpr (.inr hdigit)]
    rfl
  | character =>
    refine .cons_cons (noMark_of_left (by decide) (by decide)) (.cons_cons ?_ (.singleton _))
    exact noMark_of_right (by decide) (by decide)
  | escape =>
    refine .cons_cons (noMark_of_left (by decide) (by decide)) (.cons_cons ?_ (.cons_cons ?_ (.singleton _)))
    · exact noMark_of_left (by decide) (by decide)
    · exact noMark_of_right (by decide) (by decide)

theorem noMark_of_isBlank {c d : Char} (h : isBlank d = true) : NoMark c d := by
  refine noMark_of_right ?_ ?_
  · rintro rfl
    cases h
  · rintro rfl
    cases h

private theorem EndsBefore.of_blank {word rest : List Char} (h : ∀ c, rest.head? = some c → isBlank c = true) :
    EndsBefore word rest where
  word_ends := by
    intro _ c hc
    rw [Bool.eq_false_iff]
    intro hname
    exact absurd (h c hc) (by rw [isBlank_of_isNameChar hname]; decide)
  mark_ends := by
    intro c hc p hp
    have hmem : c ∈ p.text.toList := by simp [hp]
    exact absurd (h c hc) (by rw [(p.mem_text c hmem).2.1]; decide)

theorem noMark_blanks_append {blanks text : List Char} (hblanks : ∀ c ∈ blanks, isBlank c = true)
    (h : text.IsChain NoMark) : (blanks ++ text).IsChain NoMark := by
  induction blanks with
  | nil => exact h
  | cons c rest ih =>
    obtain ⟨hc, hrest⟩ := List.forall_mem_cons.mp hblanks
    refine List.isChain_cons.mpr ⟨fun d _ => noMark_of_left ?_ ?_, ih hrest⟩
    · rintro rfl
      cases hc
    · rintro rfl
      cases hc

private theorem Lexes.blanks_append {offset : Nat} {blanks text : List Char} {lexemes : List Lexeme}
    (hblanks : ∀ c ∈ blanks, isBlank c = true) (h : Lexes (offset + byteWidth blanks) text lexemes) :
    Lexes offset (blanks ++ text) lexemes := by
  induction blanks generalizing offset with
  | nil => exact h
  | cons c rest ih =>
    obtain ⟨hc, hrest⟩ := List.forall_mem_cons.mp hblanks
    refine .blank hc (ih hrest ?_)
    rwa [Text.byteWidth_cons, ← Nat.add_assoc] at h

def TokenKind.spelling : TokenKind → String
  | .punct p => p.text
  | .keyword k => k.text
  | .ident name => name
  | .number n => toString n.toNat
  | .endOfInput => ""

/-- The tokens that have a spelling: all but the end, and of names those that are names and not reserved. -/
def TokenKind.Spellable : TokenKind → Prop
  | .ident name => isName name.toList = true ∧ name ∉ Keyword.all.map Keyword.text
  | .endOfInput => False
  | _ => True

private theorem spelling_toDigits (n : UInt16) : Spelling (.number n) (Nat.toDigits 10 n.toNat) := by
  have hdigits : ∀ c ∈ Nat.toDigits 10 n.toNat, c.isDigit = true := fun c => Text.isDigit_of_mem_toDigits
  have hfilter : (Nat.toDigits 10 n.toNat).filter (· != '_') = Nat.toDigits 10 n.toNat := by
    refine List.filter_eq_self.mpr fun c hc => ?_
    rw [bne_iff_ne]
    rintro rfl
    cases hdigits _ hc
  have hdenotes : Denotes 10 (Nat.toDigits 10 n.toNat) n.toNat := by
    refine @readDigits_denotes 10 (n.toNat + 1) _ _ ?_
    rw [hfilter]
    exact Text.readDigits_toDigits (Nat.lt_succ_self _)
  have hne : Nat.toDigits 10 n.toNat ≠ [] := by simp
  obtain ⟨c, rest, heq⟩ := List.exists_cons_of_ne_nil hne
  rw [heq] at hdigits hdenotes ⊢
  obtain ⟨hc, hrest⟩ := List.forall_mem_cons.mp hdigits
  exact .numeral hc (List.all_eq_true.mpr fun d hd => Text.isNameChar_iff.mpr (.inr (hrest d hd))) (.decimal hdenotes)

private theorem TokenKind.Spellable.spells {kind : TokenKind} (h : kind.Spellable) :
    Spelling kind kind.spelling.toList := by
  cases kind with
  | punct p => exact .punct p
  | keyword k => exact .keyword k
  | ident name =>
    refine .ident h.1 fun k hk => h.2 ?_
    rw [← hk]
    cases k <;> decide
  | number n =>
    rw [TokenKind.spelling, Text.toList_toString_nat]
    exact spelling_toDigits n
  | endOfInput => cases h

structure SpacedToken where
  kind : TokenKind
  gap : String
  spellable : kind.Spellable
  blank : ∀ c ∈ gap.toList, isBlank c = true

def spelled (tokens : List SpacedToken) : String :=
  String.join (tokens.map fun t => t.kind.spelling ++ t.gap)

def Separated (tokens : List SpacedToken) : Prop :=
  ∀ t ∈ tokens.dropLast, t.gap ≠ ""

@[simp] theorem spelled_nil : spelled [] = "" := rfl

@[simp] theorem toList_spelled_cons (t : SpacedToken) (tokens : List SpacedToken) :
    (spelled (t :: tokens)).toList = t.kind.spelling.toList ++ (t.gap.toList ++ (spelled tokens).toList) := by
  simp [spelled]

@[simp] theorem utf8ByteSize_spelled_cons (t : SpacedToken) (tokens : List SpacedToken) :
    (spelled (t :: tokens)).utf8ByteSize =
      t.kind.spelling.utf8ByteSize + t.gap.utf8ByteSize + (spelled tokens).utf8ByteSize := by
  simp [← Text.byteWidth_toList, Nat.add_assoc]

namespace Separated

variable {t : SpacedToken} {tokens : List SpacedToken} (h : Separated (t :: tokens))
include h

private theorem tail : Separated tokens := by
  cases tokens with
  | nil => simp [Separated]
  | cons u more => exact fun v hv => h v (List.mem_cons_of_mem t hv)

private theorem head_isBlank : ∀ c, (t.gap.toList ++ (spelled tokens).toList).head? = some c → isBlank c = true := by
  intro c hc
  refine t.blank c ?_
  cases tokens with
  | nil =>
    rw [spelled_nil, String.toList_empty, List.append_nil] at hc
    exact List.mem_of_head? hc
  | cons u more =>
    have hne : t.gap.toList ≠ [] := fun hnil => h t List.mem_cons_self (String.toList_eq_nil_iff.mp hnil)
    rw [List.head?_append_of_ne_nil _ hne] at hc
    exact List.mem_of_head? hc

end Separated

private theorem spelled_noMark {tokens : List SpacedToken} (h : Separated tokens) :
    (spelled tokens).toList.IsChain NoMark := by
  induction tokens with
  | nil => exact .nil
  | cons t tokens ih =>
    rw [toList_spelled_cons]
    refine t.spellable.spells.noMark.append (noMark_blanks_append t.blank (ih h.tail)) ?_
    exact fun c _ d hd => noMark_of_isBlank (h.head_isBlank d hd)

private theorem spelled_lexes {tokens : List SpacedToken} (h : Separated tokens) (offset : Nat) :
    ∃ lexemes, Lexes offset (spelled tokens).toList lexemes ∧ lexemes.map Lexeme.token =
      tokens.mapIdx fun i t => ⟨t.kind, offset + (spelled (tokens.take i)).utf8ByteSize⟩ := by
  induction tokens generalizing offset with
  | nil => exact ⟨[], .nil, rfl⟩
  | cons t tokens ih =>
    have hword := t.spellable.spells
    obtain ⟨lexemes, hlexes, htokens⟩ :=
      ih h.tail (offset + byteWidth t.kind.spelling.toList + byteWidth t.gap.toList)
    refine ⟨⟨⟨t.kind, offset⟩, _, hword⟩ :: lexemes, ?_, ?_⟩
    · rw [toList_spelled_cons]
      exact .word hword (.of_blank h.head_isBlank) (.blanks_append t.blank hlexes)
    · rw [List.map_cons, htokens, List.mapIdx_cons]
      simp [Text.byteWidth_toList, Nat.add_assoc]

/-- Tokens spelled with blanks between them are read back, each at the byte where its spelling was put, and then the
end. -/
theorem lexing_undoes_spelling {lead : String} {tokens : List SpacedToken}
    (hlead : ∀ c ∈ lead.toList, isBlank c = true) (hgaps : Separated tokens) :
    tokenize (lead ++ spelled tokens) = .ok
      (tokens.mapIdx (fun i t => ⟨t.kind, (lead ++ spelled (tokens.take i)).utf8ByteSize⟩) ++
        [⟨.endOfInput, (lead ++ spelled tokens).utf8ByteSize⟩]) := by
  obtain ⟨lexemes, hlexes, htokens⟩ := spelled_lexes hgaps (0 + byteWidth lead.toList)
  have hstrip : stripped (lead ++ spelled tokens) = .ok (lead ++ spelled tokens).toList := by
    rw [stripped, blankComments, String.toList_append,
      blankFrom_of_noMark (noMark_blanks_append hlead (spelled_noMark hgaps))]
    rfl
  rw [tokenize, hstrip]
  show lexed _ = _
  rw [lexed, lex, String.toList_append, (hlexes.blanks_append hlead).lexFrom_eq, htokens, ← String.toList_append,
    Text.byteWidth_toList]
  simp [Except.mapError, Text.byteWidth_toList]

def spacedTokens : List SpacedToken :=
  [⟨.ident "iff", "\n", ⟨by decide, by decide⟩, by simp [isBlank]⟩,
    ⟨.punct .slash, "\u3000", trivial, by simp [isBlank]⟩,
    ⟨.punct .star, " \t", trivial, by simp [isBlank]⟩,
    ⟨.punct .less, " ", trivial, by simp [isBlank]⟩,
    ⟨.punct .assign, "\r\n", trivial, by simp [isBlank]⟩,
    ⟨.number 65535, "", trivial, by simp⟩]

theorem lexing_undoes_spelling_of_split_marks :
    spelled spacedTokens = "iff\n/\u3000* \t< =\r\n65535" ∧ Separated spacedTokens ∧
      tokenize (" " ++ spelled spacedTokens) = .ok
        [⟨.ident "iff", 1⟩, ⟨.punct .slash, 5⟩, ⟨.punct .star, 9⟩, ⟨.punct .less, 12⟩, ⟨.punct .assign, 14⟩,
          ⟨.number 65535, 17⟩, ⟨.endOfInput, 22⟩] := by
  have hgaps : Separated spacedTokens := by
    unfold Separated
    decide
  refine ⟨by decide, hgaps, (lexing_undoes_spelling (by simp [isBlank]) hgaps).trans ?_⟩
  rfl

end StackToolchain.Source
