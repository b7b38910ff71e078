import StackToolchain.Proofs.Source.ParsedTokens

/-! The names of a source are names of listings.
The lexer makes a name of a letter or an underscore and of letters, digits and underscores behind it, and the parser
takes the names of declarations from tokens. -/
namespace StackToolchain.Source

open Text (isName isNameStart isNameChar)

def Named (tokens : List Token) : Prop :=
  ∀ name, .ident name ∈ tokens.map Token.kind → isName name.toList = true

private theorem wordKind_eq_ident {word name : String} (h : wordKind word = .ident name) : name = word := by
  unfold wordKind at h
  split at h <;> cases h
  rfl

private theorem readToken_isName {c : Char} {rest : List Char} {name : String} {more : Nat}
    (h : readToken c rest = .ok (.ident name, more)) : isName name.toList = true := by
  unfold readToken at h
  split at h
  · cases h
  · split_ifs at h with hdigit hquote hstart
    · obtain ⟨n, -, h⟩ := bind_eq_ok.mp h
      cases h
    · obtain ⟨r, -, h⟩ := bind_eq_ok.mp h
      cases h
    · have hk := (Prod.mk.inj (Except.ok.inj h)).1
      rw [wordKind_eq_ident hk, String.toList_ofList, isName, hstart, List.all_takeWhile]
      rfl

private theorem lexFrom_named {offset : Nat} {done tokens : List Token} {text : List Char} (hd : Named done)
    (h : lexFrom offset done text = .ok tokens) : Named tokens := by
  fun_induction lexFrom offset done text with
  | case1 offset done =>
    cases h
    intro name hname
    exact hd name (by simpa using hname)
  | case2 offset done c rest hb ih => exact ih hd h
  | case3 offset done c rest hb fault hr => cases h
  | case4 offset done c rest hb kind more hr ih =>
    refine ih ?_ h
    intro name hname
    rcases List.mem_cons.mp hname with hname | hname
    · obtain rfl : kind = .ident name := hname.symm
      exact readToken_isName hr
    · exact hd name hname

theorem lex_named {text : List Char} {tokens : List Token} (h : lex text = .ok tokens) : Named tokens :=
  lexFrom_named (by simp [Named]) h

def Decl.name : Decl → String
  | .func name _ _ _ => name
  | .global name => name

private theorem Decl.name_mem_unparse (decl : Decl) : .ident decl.name ∈ decl.unparse := by
  cases decl <;> simp [Decl.name, Decl.unparse]

theorem parse_isName {tokens : List Token} {tree : Tree} (hn : Named tokens)
    (h : Grammar.standard.parse tokens = .ok tree) : ∀ decl ∈ tree, isName decl.name.toList = true := by
  intro decl hdecl
  obtain ⟨c', ⟨passed, hkinds, hc⟩, -, -⟩ := parse_passes h
  have htokens : tokens = passed ++ c'.rest := (Cursor.mk.inj hc).1
  have hmem : .ident decl.name ∈ Tree.unparse tree := List.mem_flatMap.mpr ⟨decl, hdecl, decl.name_mem_unparse⟩
  refine hn decl.name ?_
  rw [htokens, List.map_append, hkinds]
  exact List.mem_append_left _ hmem

end StackToolchain.Source
