import StackToolchain.Proofs.Compiler.Spacing
import StackToolchain.Proofs.Source.Tiling

/-! Errors point into the source.
Comment marks are found in the source, characters that begin no token in the source without comments, and all other
errors are located at tokens. An error about a name is located at a token with this name. -/
namespace StackToolchain

open Text (isBlank isName isNameChar byteWidth RestAt)

def CompileError.subject? : CompileError → Option String
  | .undefinedSymbol name _ => some name
  | .wrongKind name _ _ => some name
  | .arityMismatch name _ _ _ => some name
  | _ => none

namespace Source

private theorem Strips.restAt {source text rest : List Char} {c : Char} {offset : Nat} (h : Strips source text)
    (hat : RestAt text offset (c :: rest)) (hc : isBlank c = false) : ∃ rest', RestAt source offset (c :: rest') := by
  obtain ⟨before, htext, rfl⟩ := hat
  induction h generalizing before with
  | nil => simp at htext
  | @code d source text _ _ ih =>
    cases before with
    | nil =>
      cases htext
      exact ⟨source, [], rfl, rfl⟩
    | cons e before =>
      cases htext
      obtain ⟨rest', before', hsource, hwidth⟩ := ih before rfl
      exact ⟨rest', d :: before', by rw [hsource]; rfl, by rw [Text.byteWidth_cons, Text.byteWidth_cons, hwidth]⟩
  | @comment comment source text _ _ ih =>
    rcases append_eq_append_cons htext with ⟨more, rfl, hmore⟩ | ⟨more, hmore⟩
    · obtain ⟨rest', before', hsource, hwidth⟩ := ih more hmore
      refine ⟨rest', comment ++ before', by rw [hsource, List.append_assoc], ?_⟩
      rw [Text.byteWidth_append, Text.byteWidth_append, byteWidth_blanked, hwidth]
    · have hmem : c ∈ blanked comment := by
        rw [hmore]
        exact List.mem_append_right before List.mem_cons_self
      have hblank := isBlank_of_mem_blanked hmem
      rw [hc] at hblank
      cases hblank

private theorem lexFrom_error {offset : Nat} {done : List Token} {text rest : List Char} {e : SyntaxError}
    (hrest : RestAt text offset rest) (h : lexFrom offset done rest = .error e) :
    ∃ c rest', RestAt text e.offset (c :: rest') ∧ isBlank c = false := by
  fun_induction lexFrom offset done rest with
  | case1 offset done => cases h
  | case2 offset done c rest _ ih => exact ih hrest.tail h
  | case3 offset done c rest hblank fault _ =>
    cases h
    exact ⟨c, rest, hrest, by simpa using hblank⟩
  | case4 offset done c rest _ kind more _ ih =>
    refine ih ?_ h
    apply RestAt.drop
    rw [List.cons_append, List.take_append_drop]
    exact hrest

private theorem tokenize_error {source : String} {e : CompileError} (h : tokenize source = .error e) :
    e.subject? = none ∧ ∃ offset rest, e.offset? = some offset ∧ RestAt source.toList offset rest := by
  rw [tokenize, stripped] at h
  cases hblank : blankComments source.toList with
  | error err =>
    rw [hblank] at h
    cases h
    obtain ⟨rest, hrest⟩ := blankComments_error hblank
    exact ⟨rfl, err.offset, rest, rfl, hrest⟩
  | ok text =>
    rw [hblank] at h
    replace h : lexed text = .error e := h
    rw [lexed] at h
    cases hlex : lex text with
    | ok tokens =>
      rw [hlex] at h
      cases h
    | error err =>
      rw [hlex] at h
      cases h
      obtain ⟨c, rest, hrest, hc⟩ := lexFrom_error ⟨[], rfl, rfl⟩ hlex
      obtain ⟨rest', hrest'⟩ := (blankComments_strips hblank).restAt hrest hc
      exact ⟨rfl, err.offset, c :: rest', rfl, hrest'⟩

private theorem Spelling.eq_of_ident {name : String} {word : List Char} (h : Spelling (.ident name) word) :
    word = name.toList ∧ isName word = true := by
  cases h with
  | ident hname _ => exact ⟨rfl, hname⟩

private theorem Tiles.name_alone {source text : List Char} {lexemes : List Lexeme} {l : Lexeme} {name : String}
    (h : Tiles 0 source text lexemes) (hl : l ∈ lexemes) (hkind : l.token.kind = .ident name) :
    ∃ before after, source = before ++ (name.toList ++ after) ∧ byteWidth before = l.token.offset ∧
      (∀ c, before.getLast? = some c → isNameChar c = false) ∧ ∀ c, after.head? = some c → isNameChar c = false := by
  have hstart : Apart [] source := by simp [Apart]
  have hspelling := l.spelling
  rw [hkind] at hspelling
  obtain ⟨hword, hname⟩ := hspelling.eq_of_ident
  obtain ⟨hoffset, -, -, hbefore, hafter⟩ := h.stands hstart l hl
  rename_i before after _ _
  obtain ⟨d, more, hd⟩ := List.exists_cons_of_ne_nil l.spelling.ne_nil
  have hall : ∀ c ∈ l.word, isNameChar c = true := List.all_eq_true.mp (Text.all_isNameChar_of_isName hname)
  refine ⟨before, after, by rw [hword], by rw [← hoffset, Nat.zero_add], fun c hc => ?_, fun c hc => ?_⟩
  · by_contra hnot
    rw [Bool.not_eq_false] at hnot
    have hdiff := hbefore c d hc (by rw [hd]; rfl) hnot
    rw [hall d (by simp [hd])] at hdiff
    cases hdiff
  · obtain ⟨last, hlast⟩ := Option.isSome_iff_exists.mp (List.getLast?_isSome.mpr l.spelling.ne_nil)
    exact hafter last c hlast hc (hall last (List.mem_of_getLast? hlast))

private theorem restAt_of_mem_tokenize {source : String} {tokens : List Token} {t : Token}
    (h : tokenize source = .ok tokens) (ht : t ∈ tokens) : ∃ rest, RestAt source.toList t.offset rest := by
  obtain ⟨text, lexemes, -, htiles, rfl⟩ := tokenize_tiles h
  rcases List.mem_append.mp ht with ht | ht
  · obtain ⟨l, hl, rfl⟩ := List.mem_map.mp ht
    obtain ⟨⟨rest, hrest⟩, -⟩ := htiles.restAt l hl
    exact ⟨_, hrest⟩
  · obtain rfl := List.mem_singleton.mp ht
    exact ⟨[], source.toList, (List.append_nil _).symm, Text.byteWidth_toList source⟩

private theorem name_alone_of_mem_tokenize {source name : String} {tokens : List Token} {offset : Nat}
    (h : tokenize source = .ok tokens) (ht : ⟨.ident name, offset⟩ ∈ tokens) :
    ∃ before after, source.toList = before ++ (name.toList ++ after) ∧ byteWidth before = offset ∧
      (∀ c, before.getLast? = some c → isNameChar c = false) ∧ ∀ c, after.head? = some c → isNameChar c = false := by
  obtain ⟨text, lexemes, -, htiles, rfl⟩ := tokenize_tiles h
  rcases List.mem_append.mp ht with ht | ht
  · obtain ⟨l, hl, htoken⟩ := List.mem_map.mp ht
    have hoffset : l.token.offset = offset := by rw [htoken]
    rw [← hoffset]
    exact htiles.name_alone hl (by rw [htoken])
  · cases List.mem_singleton.mp ht

end Source

open Source

private def Source.Pairing.same (tokens : List Token) : Pairing where
  rel t u := t = u ∧ t ∈ tokens
  kind_eq h := by rw [h.1]

private theorem CompileError.Matches.subject {R : Pairing} {e e' : CompileError} {name : String} {offset : Nat}
    (h : e.Matches R e') (hname : e.subject? = some name) (hoffset : e.offset? = some offset) :
    ∃ offset', R.rel ⟨.ident name, offset⟩ ⟨.ident name, offset'⟩ := by
  have hrel {o o' : Option Nat} (ho : Option.Rel (R.rewording.offset name) o o') (hsome : o = some offset) :
      ∃ offset', R.rel ⟨.ident name, offset⟩ ⟨.ident name, offset'⟩ := by
    subst hsome
    cases ho with
    | some hr => exact ⟨_, hr⟩
  cases h with
  | syntactic => cases hname
  | assembly => cases hname
  | semantic he =>
    cases he with
    | undefinedSymbol ho | wrongKind ho | arityMismatch ho =>
      cases hname
      exact hrel ho hoffset
    | frameOverflow => cases hname

private theorem compileWith_error_token {g : Grammar} {format : Format} {source : String} {tokens : List Token}
    {e : CompileError} {offset : Nat} (h : tokenize source = .ok tokens) (he : compileWith g format source = .error e)
    (ho : e.offset? = some offset) :
    (∃ t ∈ tokens, t.offset = offset) ∧ ∀ name, e.subject? = some name → ⟨.ident name, offset⟩ ∈ tokens := by
  have hsame : List.Forall₂ (Pairing.same tokens).rel tokens tokens := List.forall₂_same.mpr fun t ht => ⟨rfl, ht⟩
  have hout := compileWith_matches g format h h hsame
  rw [he] at hout
  cases hout with
  | error hmatches =>
    constructor
    · have hrel := hmatches.offset_rel
      rw [ho] at hrel
      cases hrel with
      | some hplace =>
        obtain ⟨t, -, ⟨-, ht⟩, hoffset, -⟩ := hplace
        exact ⟨t, ht, hoffset⟩
    · intro name hname
      obtain ⟨offset', -, hmem⟩ := hmatches.subject hname ho
      exact hmem

/-- An error with an offset is located between two characters of the source, and an error about a name at this name,
where it stands as a whole. -/
theorem errors_are_located (g : Grammar) (format : Format) {source : String} {e : CompileError} {offset : Nat}
    (h : compileWith g format source = .error e) (ho : e.offset? = some offset) :
    offset ≤ source.utf8ByteSize ∧ String.Pos.Raw.IsValid source ⟨offset⟩ ∧
      ∀ name, e.subject? = some name → ∃ before after, source.toList = before ++ (name.toList ++ after) ∧
        byteWidth before = offset ∧ (∀ c, before.getLast? = some c → isNameChar c = false) ∧
        ∀ c, after.head? = some c → isNameChar c = false := by
  have hplace {rest : List Char} (hrest : RestAt source.toList offset rest) :
      offset ≤ source.utf8ByteSize ∧ String.Pos.Raw.IsValid source ⟨offset⟩ :=
    ⟨Text.byteWidth_toList source ▸ hrest.le_byteWidth, hrest.isValid⟩
  cases htokens : tokenize source with
  | error err =>
    have hsame : compileWith g format source = .error err := by
      rw [compileWith, generateSource, parseSource, htokens]
      rfl
    rw [h] at hsame
    cases hsame
    obtain ⟨hsubject, offset', rest, ho', hrest⟩ := tokenize_error htokens
    rw [ho] at ho'
    cases ho'
    obtain ⟨hle, hvalid⟩ := hplace hrest
    refine ⟨hle, hvalid, fun name hname => ?_⟩
    rw [hsubject] at hname
    cases hname
  | ok tokens =>
    obtain ⟨⟨t, ht, rfl⟩, hnames⟩ := compileWith_error_token htokens h ho
    obtain ⟨rest, hrest⟩ := restAt_of_mem_tokenize htokens ht
    obtain ⟨hle, hvalid⟩ := hplace hrest
    exact ⟨hle, hvalid, fun name hname => name_alone_of_mem_tokenize htokens (hnames name hname)⟩

theorem errors_are_located_after_comments :
    compileWith .standard .binary wideSource = .error (.undefinedSymbol "x" (some 30)) ∧
      String.Pos.Raw.IsValid wideSource ⟨30⟩ ∧
      ∃ before after, wideSource.toList = before ++ ("x".toList ++ after) ∧ byteWidth before = 30 := by
  have herror : compileWith .standard .binary wideSource = .error (.undefinedSymbol "x" (some 30)) := by
    rw [compileWith, generateSource, parseSource, tokenize_wide]
    rfl
  obtain ⟨-, hvalid, hname⟩ := errors_are_located .standard .binary herror rfl
  obtain ⟨before, after, hsource, hwidth, -⟩ := hname "x" rfl
  exact ⟨herror, hvalid, before, after, hsource, hwidth⟩

end StackToolchain
