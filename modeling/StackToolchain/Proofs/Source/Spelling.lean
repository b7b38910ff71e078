import StackToolchain.Proofs.Assembly.Encoding
import StackToolchain.Proofs.Source.Comments
import StackToolchain.Proofs.Source.Names
import StackToolchain.Source.Lexer

/-! The spellings of tokens.
The lexer cuts a text into blanks and spellings. A spelling is taken as long as it goes: the character behind a word
cannot go on with it, and the one behind a mark does not make a longer mark. -/
namespace StackToolchain.Source

open Text (isBlank isName isNameStart isNameChar byteWidth)

/-- Digits of a radix, the first one worth the most, denote a number. Underscores do not count. -/
def Denotes (radix : Nat) (digits : List Char) (n : Nat) : Prop :=
  ∃ values : List Nat, values ≠ [] ∧ (digits.filter (· != '_')).map (Text.digitValue? radix) = values.map some ∧
    Nat.ofDigits radix values.reverse = n

inductive Numeral : List Char → Nat → Prop
  | decimal {digits n} : Denotes 10 digits n → Numeral digits n
  | hexadecimal {digits n} : Denotes 16 digits n → Numeral ('0' :: 'x' :: digits) n
  | binary {digits n} : Denotes 2 digits n → Numeral ('0' :: 'b' :: digits) n

private theorem readOnto_denotes {radix limit value n : Nat} {digits : List Char}
    (h : Text.readOnto radix limit value digits = .ok n) :
    ∃ values : List Nat, digits.map (Text.digitValue? radix) = values.map some ∧
      n = value * radix ^ values.length + Nat.ofDigits radix values.reverse := by
  induction digits generalizing value with
  | nil =>
    cases h
    exact ⟨[], rfl, by simp⟩
  | cons c rest ih =>
    rw [Text.readOnto] at h
    cases hd : Text.digitValue? radix c with
    | none => simp [hd] at h
    | some d =>
      simp only [hd] at h
      split at h
      · obtain ⟨values, hvalues, rfl⟩ := ih h
        refine ⟨d :: values, by rw [List.map_cons, hd, hvalues, List.map_cons], ?_⟩
        rw [List.reverse_cons, Nat.ofDigits_append, List.length_reverse, Nat.ofDigits_singleton, List.length_cons]
        ring
      · cases h

theorem readDigits_denotes {radix limit n : Nat} {digits : List Char}
    (h : Text.readDigits radix limit (digits.filter (· != '_')) = .ok n) : Denotes radix digits n := by
  rw [Text.readDigits] at h
  split at h
  · cases h
  · rename_i hne
    obtain ⟨values, hvalues, hn⟩ := readOnto_denotes h
    refine ⟨values, ?_, hvalues, by simpa using hn.symm⟩
    rintro rfl
    have hnil : digits.filter (· != '_') = [] := List.map_eq_nil_iff.mp hvalues
    exact hne (by rw [hnil]; rfl)

theorem announcedRadix_numeral {word : List Char} {n : Nat}
    (h : Denotes (Text.announcedRadix word).1 (Text.announcedRadix word).2 n) : Numeral word n := by
  unfold Text.announcedRadix at h
  split at h
  · exact .hexadecimal h
  · exact .binary h
  · exact .decimal h

theorem readInteger_numeral {word : List Char} {n : UInt16} (h : readInteger word = .ok n) : Numeral word n.toNat := by
  unfold readInteger at h
  simp only at h
  split at h
  · cases h
  · cases h
  · rename_i value hvalue
    split at h
    · rename_i hlt
      cases h
      rw [Nat.toUInt16_eq, UInt16.toNat_ofNat_of_lt' hlt]
      exact announcedRadix_numeral (readDigits_denotes hvalue)
    · cases h

def escapes : List (Char × Char) :=
  [('n', '\n'), ('t', '\t'), ('r', '\r'), ('0', '\x00'), ('\\', '\\'), ('\'', '\'')]

inductive Spelling : TokenKind → List Char → Prop
  | punct (p : Punct) : Spelling (.punct p) p.text.toList
  | keyword (k : Keyword) : Spelling (.keyword k) k.text.toList
  | ident {name} : isName name.toList = true → (∀ k : Keyword, k.text ≠ name) → Spelling (.ident name) name.toList
  | numeral {c rest n} : c.isDigit = true → rest.all isNameChar = true → Numeral (c :: rest) n.toNat →
      Spelling (.number n) (c :: rest)
  | character {c n} : c ≠ '\\' → c.toNat = n.toNat → Spelling (.number n) ['\'', c, '\'']
  | escape {c d n} : (c, d) ∈ escapes → d.toNat = n.toNat → Spelling (.number n) ['\'', '\\', c, '\'']

/-- A spelling ends before a rest: what comes next does not go on with a word, and does not make a longer mark. -/
structure EndsBefore (word rest : List Char) : Prop where
  word_ends : word.all isNameChar = true → ∀ c, rest.head? = some c → isNameChar c = false
  mark_ends : ∀ c, rest.head? = some c → ∀ p : Punct, p.text.toList ≠ word ++ [c]

theorem Punct.ofPair?_eq_some {c d : Char} {p : Punct} : Punct.ofPair? c d = some p ↔ p.text.toList = [c, d] := by
  constructor
  · intro h
    unfold Punct.ofPair? at h
    split at h <;> cases h <;> simp [Punct.text]
  · intro h
    cases p <;> simp [Punct.text] at h <;> obtain ⟨rfl, rfl⟩ := h <;> rfl

theorem Punct.text_of_ofChar? {c : Char} {p : Punct} (h : Punct.ofChar? c = some p) : p.text.toList = [c] := by
  unfold Punct.ofChar? at h
  split at h <;> cases h <;> simp [Punct.text]

theorem Punct.length_text_le (p : Punct) : p.text.toList.length ≤ 2 := by
  cases p <;> simp [Punct.text]

theorem Punct.mem_text (p : Punct) :
    ∀ c ∈ p.text.toList, isNameChar c = false ∧ isBlank c = false ∧ c ≠ '\'' := by
  cases p <;> simp only [Punct.text, String.reduceToList, List.mem_cons, List.not_mem_nil, or_false, forall_eq_or_imp,
    forall_eq] <;> decide

theorem Keyword.isName_text (k : Keyword) : isName k.text.toList = true := by
  cases k <;> simp only [Keyword.text, String.reduceToList] <;> decide

theorem readPunct?_spelling {c : Char} {rest : List Char} {p : Punct} {more : Nat}
    (h : readPunct? c rest = some (p, more)) :
    p.text.toList = c :: rest.take more ∧ EndsBefore (c :: rest.take more) (rest.drop more) := by
  have hword {word : List Char} (hw : p.text.toList = c :: word) : ¬(c :: word).all isNameChar = true := by
    rw [List.all_cons, (p.mem_text c (by simp [hw])).1]
    simp
  unfold readPunct? at h
  split at h
  · rename_i q hq
    cases h
    obtain ⟨d, hd, hpair⟩ := Option.bind_eq_some_iff.mp hq
    obtain ⟨rest', rfl⟩ := List.head?_eq_some_iff.mp hd
    have htext := Punct.ofPair?_eq_some.mp hpair
    refine ⟨htext, ⟨fun hall => absurd hall (hword htext), fun e _ q hq => ?_⟩⟩
    -- no mark has three characters
    have hlen := q.length_text_le
    simp [hq] at hlen
  · rename_i hnone
    obtain ⟨q, hq, hmore⟩ := Option.map_eq_some_iff.mp h
    cases hmore
    have htext := Punct.text_of_ofChar? hq
    refine ⟨htext, ⟨fun hall => absurd hall (hword htext), fun d hd q hq => ?_⟩⟩
    rw [List.drop_zero] at hd
    rw [hd, Option.bind_some] at hnone
    have hpair : Punct.ofPair? c d = some q := Punct.ofPair?_eq_some.mpr hq
    rw [hpair] at hnone
    cases hnone

private theorem EndsBefore.of_word {c : Char} {more rest : List Char} (hc : ∀ p : Punct, c ∉ p.text.toList)
    (h : (c :: more).all isNameChar = true → ∀ d, rest.head? = some d → isNameChar d = false) :
    EndsBefore (c :: more) rest where
  word_ends := h
  mark_ends := by
    intro d hd p hp
    exact hc p (by simp [hp])

private theorem take_takeWhile (rest : List Char) :
    rest.take (rest.takeWhile isNameChar).length = rest.takeWhile isNameChar :=
  (List.prefix_iff_eq_take.mp (List.takeWhile_prefix isNameChar)).symm

private theorem drop_takeWhile (rest : List Char) :
    rest.drop (rest.takeWhile isNameChar).length = rest.dropWhile isNameChar := by
  calc rest.drop (rest.takeWhile isNameChar).length
      = (rest.takeWhile isNameChar ++ rest.dropWhile isNameChar).drop (rest.takeWhile isNameChar).length := by
        rw [List.takeWhile_append_dropWhile]
    _ = rest.dropWhile isNameChar := List.drop_left

private theorem endsBefore_dropWhile {c : Char} {rest : List Char} (hc : isNameChar c = true) :
    EndsBefore (c :: rest.takeWhile isNameChar) (rest.dropWhile isNameChar) := by
  refine .of_word ?_ ?_
  · intro p hmem
    rw [(p.mem_text c hmem).1] at hc
    cases hc
  · intro _ d hd
    have hnot := List.head?_dropWhile_not isNameChar rest
    rw [hd] at hnot
    exact hnot

private theorem wordKind_spelling {word : String} (h : isName word.toList = true) :
    Spelling (wordKind word) word.toList := by
  unfold wordKind
  cases hk : Keyword.ofText? word with
  | some k =>
    have htext : k.text = word := by simpa using List.find?_some hk
    rw [← htext]
    exact .keyword k
  | none =>
    refine .ident h fun k => ?_
    have hall := List.find?_eq_none.mp hk k (by cases k <;> decide)
    simpa using hall

theorem escaped?_eq_some {c d : Char} : escaped? c = some d ↔ (c, d) ∈ escapes := by
  constructor
  · intro h
    unfold escaped? at h
    split at h <;> cases h <;> decide
  · intro h
    have hall : ∀ e ∈ escapes, escaped? e.1 = some e.2 := by decide
    exact hall (c, d) h

private theorem readChar_spelling {rest : List Char} {n : UInt16} {more : Nat} (h : readChar rest = .ok (n, more)) :
    Spelling (.number n) ('\'' :: rest.take more) := by
  have hconstant {c : Char} {m : UInt16} (hc : charConstant c = .ok m) : c.toNat = m.toNat := by
    unfold charConstant at hc
    split at hc
    · rename_i hlt
      cases hc
      rw [Nat.toUInt16_eq, UInt16.toNat_ofNat_of_lt' hlt]
    · cases hc
  unfold readChar at h
  split at h
  · split at h
    · cases h
    · rename_i d hd
      obtain ⟨m, hm, he⟩ := bind_eq_ok.mp h
      cases he
      exact .escape (escaped?_eq_some.mp hd) (hconstant hm)
  · cases h
  · rename_i c _ _ hc
    obtain ⟨m, hm, he⟩ := bind_eq_ok.mp h
    cases he
    exact .character hc (hconstant hm)
  · cases h

private theorem readToken_spelling {c : Char} {rest : List Char} {kind : TokenKind} {more : Nat}
    (h : readToken c rest = .ok (kind, more)) :
    Spelling kind (c :: rest.take more) ∧ EndsBefore (c :: rest.take more) (rest.drop more) := by
  unfold readToken at h
  split at h
  · rename_i p more' hp
    cases h
    obtain ⟨htext, hends⟩ := readPunct?_spelling hp
    exact ⟨htext ▸ .punct p, hends⟩
  · split_ifs at h with hdigit hquote hstart
    · obtain ⟨n, hn, he⟩ := bind_eq_ok.mp h
      cases he
      rw [take_takeWhile, drop_takeWhile]
      exact ⟨.numeral hdigit List.all_takeWhile (readInteger_numeral hn),
        endsBefore_dropWhile (Text.isNameChar_iff.mpr (.inr hdigit))⟩
    · obtain ⟨⟨n, more'⟩, hn, he⟩ := bind_eq_ok.mp h
      cases he
      subst hquote
      refine ⟨readChar_spelling hn, .of_word (fun p hmem => (p.mem_text _ hmem).2.2 rfl) fun hall => ?_⟩
      rw [List.all_cons] at hall
      cases hall
    · cases h
      rw [take_takeWhile, drop_takeWhile]
      have hname : isName (String.ofList (c :: rest.takeWhile isNameChar)).toList = true := by
        rw [String.toList_ofList, isName, hstart, List.all_takeWhile]
        rfl
      have hspelling := wordKind_spelling hname
      rw [String.toList_ofList] at hspelling
      exact ⟨hspelling, endsBefore_dropWhile (Text.isNameChar_iff.mpr (.inl hstart))⟩

theorem isBlank_of_isNameChar {c : Char} (h : isNameChar c = true) : isBlank c = false := by
  have hplain := Text.isPlain_of_isNameChar h
  rw [Text.isPlain, Bool.and_eq_true, Bool.not_eq_true'] at hplain
  exact hplain.1

private theorem isBlank_of_mem_escapes {c d : Char} (h : (c, d) ∈ escapes) : isBlank c = false := by
  have hall : ∀ e ∈ escapes, isBlank e.1 = false := by decide
  exact hall (c, d) h

namespace Spelling

variable {kind : TokenKind} {word : List Char} (h : Spelling kind word)
include h

theorem ne_endOfInput : kind ≠ .endOfInput := by
  rintro rfl
  cases h

theorem ne_nil : word ≠ [] := by
  cases h with
  | punct p => cases p <;> simp [Punct.text]
  | keyword k => cases k <;> simp [Keyword.text]
  | ident hname _ =>
    intro hnil
    rw [hnil] at hname
    cases hname
  | numeral | character | escape => exact List.cons_ne_nil _ _

theorem all_isNameChar_or : word.all isNameChar = true ∨ ∃ c, word.getLast? = some c ∧ isNameChar c = false := by
  cases h with
  | keyword k => exact .inl (Text.all_isNameChar_of_isName k.isName_text)
  | ident hname _ => exact .inl (Text.all_isNameChar_of_isName hname)
  | numeral hdigit hall _ =>
    refine .inl ?_
    rw [List.all_cons, hall, Text.isNameChar_iff.mpr (.inr hdigit)]
    rfl
  | punct p =>
    obtain ⟨c, hc⟩ := Option.isSome_iff_exists.mp (List.getLast?_isSome.mpr (Spelling.punct p).ne_nil)
    exact .inr ⟨c, hc, (p.mem_text c (List.mem_of_getLast? hc)).1⟩
  | character | escape => exact .inr ⟨'\'', rfl, rfl⟩

/-- There is no blank in a spelling, but for one between quotes. -/
theorem solid_or_quoted : (∀ c ∈ word, isBlank c = false) ∨ ∃ c, word = ['\'', c, '\''] := by
  have hnames {w : List Char} (hw : w.all isNameChar = true) : ∀ c ∈ w, isBlank c = false :=
    fun c hc => isBlank_of_isNameChar (List.all_eq_true.mp hw c hc)
  cases h with
  | punct p => exact .inl fun c hc => (p.mem_text c hc).2.1
  | keyword k => exact .inl (hnames (Text.all_isNameChar_of_isName k.isName_text))
  | ident hname _ => exact .inl (hnames (Text.all_isNameChar_of_isName hname))
  | numeral hdigit hall _ =>
    refine .inl (hnames ?_)
    rw [List.all_cons, hall, Text.isNameChar_iff.mpr (.inr hdigit)]
    rfl
  | character => exact .inr ⟨_, rfl⟩
  | escape hc _ =>
    refine .inl ?_
    simp only [List.forall_mem_cons]
    exact ⟨rfl, rfl, isBlank_of_mem_escapes hc, rfl, by simp⟩

theorem exists_head : ∃ c more, word = c :: more ∧ isBlank c = false := by
  rcases h.solid_or_quoted with hsolid | ⟨c, rfl⟩
  · obtain ⟨c, more, rfl⟩ := List.exists_cons_of_ne_nil h.ne_nil
    exact ⟨c, more, rfl, hsolid c List.mem_cons_self⟩
  · exact ⟨'\'', [c, '\''], rfl, rfl⟩

end Spelling

structure Lexeme where
  token : Token
  word : List Char
  spelling : Spelling token.kind word

/-- A text that begins at an offset is made of blanks and of these spellings, each as long as it goes. -/
inductive Lexes : Nat → List Char → List Lexeme → Prop
  | nil {offset} : Lexes offset [] []
  | blank {offset c rest lexemes} : isBlank c = true → Lexes (offset + c.utf8Size) rest lexemes →
      Lexes offset (c :: rest) lexemes
  | word {offset kind word rest lexemes} (h : Spelling kind word) : EndsBefore word rest →
      Lexes (offset + byteWidth word) rest lexemes →
      Lexes offset (word ++ rest) (⟨⟨kind, offset⟩, word, h⟩ :: lexemes)

private theorem lexFrom_lexes {offset : Nat} {done tokens : List Token} {text : List Char}
    (h : lexFrom offset done text = .ok tokens) :
    ∃ lexemes, tokens = done.reverse ++ lexemes.map Lexeme.token ++ [⟨.endOfInput, offset + byteWidth text⟩] ∧
      Lexes offset text lexemes := by
  fun_induction lexFrom offset done text with
  | case1 offset done => exact ⟨[], by simpa using (Except.ok.inj h).symm, .nil⟩
  | case2 offset done c rest hblank ih =>
    obtain ⟨lexemes, rfl, hlexes⟩ := ih h
    refine ⟨lexemes, ?_, .blank hblank hlexes⟩
    rw [Text.byteWidth_cons, Nat.add_assoc]
  | case3 offset done c rest hblank fault hr => cases h
  | case4 offset done c rest hblank kind more hr ih =>
    obtain ⟨lexemes, rfl, hlexes⟩ := ih h
    obtain ⟨hspelling, hends⟩ := readToken_spelling hr
    have htext : c :: rest = c :: rest.take more ++ rest.drop more := by
      rw [List.cons_append, List.take_append_drop]
    refine ⟨⟨⟨kind, offset⟩, c :: rest.take more, hspelling⟩ :: lexemes, ?_, ?_⟩
    · rw [htext, Text.byteWidth_append, Nat.add_assoc]
      simp
    · rw [htext]
      exact .word hspelling hends hlexes

theorem lex_lexes {text : List Char} {tokens : List Token} (h : lex text = .ok tokens) :
    ∃ lexemes, tokens = lexemes.map Lexeme.token ++ [⟨.endOfInput, byteWidth text⟩] ∧ Lexes 0 text lexemes := by
  obtain ⟨lexemes, htokens, hlexes⟩ := lexFrom_lexes h
  exact ⟨lexemes, by simpa using htokens, hlexes⟩

theorem Lexes.of_blanks {offset : Nat} {blanks text : List Char} {lexemes : List Lexeme}
    (hblanks : ∀ c ∈ blanks, isBlank c = true) (h : Lexes offset (blanks ++ text) lexemes) :
    Lexes (offset + byteWidth blanks) text lexemes := by
  induction blanks generalizing offset with
  | nil => exact h
  | cons c rest ih =>
    obtain ⟨hc, hrest⟩ := List.forall_mem_cons.mp hblanks
    rw [Text.byteWidth_cons, ← Nat.add_assoc]
    apply ih hrest
    generalize hall : c :: rest ++ text = all at h
    cases h with
    | nil => cases hall
    | blank _ htail =>
      cases hall
      exact htail
    | word hspelling _ _ =>
      obtain ⟨d, more, rfl, hd⟩ := hspelling.exists_head
      obtain rfl : c = d := (List.cons.inj hall).1
      rw [hc] at hd
      cases hd

end StackToolchain.Source
