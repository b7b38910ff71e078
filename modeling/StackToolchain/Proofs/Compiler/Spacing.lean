import StackToolchain.Proofs.Compiler.Assembling
import StackToolchain.Proofs.Compiler.RewordedCode
import StackToolchain.Proofs.Source.Lexing
import StackToolchain.Proofs.Source.MatchingTokens

/-! Blanks and comments between tokens do not matter.
After the tokens a source is seen through their kinds. Its offsets go into errors, and into nothing else that is made
of it. -/
namespace StackToolchain

open Source

@[simp] theorem renamedLabel_id (label : String) : renamedLabel id label = label := by
  rcases renamedLabel_cases id label with ⟨stem, -, name, rfl, hr⟩ | ⟨-, hr⟩
  · exact hr
  · exact hr

private theorem Generated.rename_id (g : Generated) : g.rename id = g := by
  have hlabel : renamedLabel id = id := funext renamedLabel_id
  have hoperand : Operand.rename id = id := by funext a; cases a <;> rfl
  have hinst (i : Instruction) : i.rename id = i := by rw [Instruction.rename, hoperand, List.map_id]
  have hline : Line.rename id = id := by funext line; cases line <;> simp [Line.rename, hinst]
  have hslot : FrameSlot.rename id = id := rfl
  have hframe : Frame.rename id = id := by funext frame; simp [Frame.rename, hslot]
  rw [Generated.rename, Program.rename, Table.rename, hlabel, hline, hframe]
  simp

variable {R : Pairing}

/-- Two errors are the same but for their offsets, which are those of paired tokens. -/
inductive CompileError.Matches (R : Pairing) : CompileError → CompileError → Prop
  | syntactic {e e'} : e.Matches R e' → CompileError.Matches R (.source e) (.source e')
  | semantic {e e'} : e.Reworded R.rewording e' → CompileError.Matches R e e'
  | assembly {e} : CompileError.Matches R (.assembly e) (.assembly e)

private theorem generate_matches {tree tree' : Tree} (h : Tree.Reworded R.rewording tree tree') :
    Alike (CompileError.Matches R) Eq (generate tree) (generate tree') := by
  have hout := generate_renders (w := R.rewording) Function.injective_id rfl h
  generalize generate tree = x at hout
  generalize generate tree' = y at hout
  cases hout with
  | ok hg => exact .ok (hg.trans (Generated.rename_id _)).symm
  | error he => exact .error (.semantic he)

private theorem Generated.finish_alike (format : Format) (g : Generated) :
    Alike (CompileError.Matches R) Eq (g.finish format) (g.finish format) := by
  -- what is left to do does not depend on the source, so the two runs are one
  have hstage {α : Type} (x : Except AssemblyError α) :
      Alike (CompileError.Matches R) Eq (x.mapError .assembly) (x.mapError .assembly) := by
    cases x with
    | ok a => exact .ok rfl
    | error e => exact .error .assembly
  refine (hstage _).bind ?_
  rintro labels _ rfl
  cases format with
  | binary => exact (hstage _).map fun _ _ hb => by rw [hb]
  | text => exact .ok rfl

theorem compileWith_matches (g : Grammar) (format : Format) {source source' : String} {tokens tokens' : List Token}
    (h : tokenize source = .ok tokens) (h' : tokenize source' = .ok tokens')
    (hpairs : List.Forall₂ R.rel tokens tokens') :
    Alike (CompileError.Matches R) Eq (compileWith g format source) (compileWith g format source') := by
  rw [compileWith, compileWith, generateSource, generateSource, parseSource, parseSource, h, h']
  have hparse : Alike (CompileError.Matches R) (Tree.Reworded R.rewording) (parseTokens g tokens)
      (parseTokens g tokens') :=
    (g.parse_matches hpairs).mapError fun _ _ he => .syntactic he
  refine (hparse.bind fun tree tree' htree => generate_matches htree).bind ?_
  rintro generated _ rfl
  exact generated.finish_alike format

def CompileError.unplaced : CompileError → CompileError
  | .comment (.unopened _) => .comment (.unopened 0)
  | .comment (.unterminated _) => .comment (.unterminated 0)
  | .source e => .source { e with offset := 0 }
  | .undefinedSymbol name _ => .undefinedSymbol name none
  | .wrongKind name use _ => .wrongKind name use none
  | .arityMismatch name expected got _ => .arityMismatch name expected got none
  | .frameOverflow function => .frameOverflow function
  | .assembly e => .assembly e

private theorem CompileError.message_unplaced (e : CompileError) : e.unplaced.message = e.message := by
  cases e with
  | comment e => cases e <;> rfl
  | _ => rfl

private theorem CompileError.Matches.unplaced_eq {e e' : CompileError} (h : e.Matches R e') :
    e.unplaced = e'.unplaced := by
  cases h with
  | syntactic he =>
    simp only [CompileError.unplaced, he.fault_eq]
  | semantic he => cases he <;> rfl
  | assembly => rfl

private theorem Pairing.places_of_rel {name : String} {o o' : Option Nat}
    (h : Option.Rel (R.rewording.offset name) o o') : Option.Rel R.Places o o' := by
  cases h with
  | none => exact .none
  | some h => exact .some ⟨_, _, h, rfl, rfl⟩

theorem CompileError.Matches.offset_rel {e e' : CompileError} (h : e.Matches R e') :
    Option.Rel R.Places e.offset? e'.offset? := by
  cases h with
  | syntactic he => exact .some he.places
  | semantic he =>
    cases he with
    | undefinedSymbol ho => exact Pairing.places_of_rel ho
    | wrongKind ho => exact Pairing.places_of_rel ho
    | arityMismatch ho => exact Pairing.places_of_rel ho
    | frameOverflow => exact .none
  | assembly => exact .none

private def Pairing.atIndex (tokens tokens' : List Token) : Pairing where
  rel t u := t.kind = u.kind ∧ ∃ i : Nat, tokens[i]? = some t ∧ tokens'[i]? = some u
  kind_eq h := h.1

private theorem Pairing.forall₂_atIndex {tokens tokens' : List Token}
    (h : tokens.map Token.kind = tokens'.map Token.kind) :
    List.Forall₂ (Pairing.atIndex tokens tokens').rel tokens tokens' := by
  have hlen : tokens.length = tokens'.length := by simpa using congrArg List.length h
  rw [List.forall₂_iff_get]
  refine ⟨hlen, fun i hi hi' => ⟨?_, i, ?_, ?_⟩⟩
  · have hkind := congrArg (fun kinds => kinds[i]?) h
    simpa [hi, hi'] using hkind
  · simp [hi]
  · simp [hi']

/-- Two sources with the same kinds of tokens in order compile to the same image or listing with the same symbols, or
both fail: with the same error but for its offset, and at the tokens of one index if the error has an offset. -/
theorem spacing_is_immaterial (g : Grammar) (format : Format) {source source' : String} {tokens tokens' : List Token}
    (h : tokenize source = .ok tokens) (h' : tokenize source' = .ok tokens')
    (hkinds : tokens.map Token.kind = tokens'.map Token.kind) :
    (∃ compiled, compileWith g format source = .ok compiled ∧ compileWith g format source' = .ok compiled) ∨
      ∃ e e', compileWith g format source = .error e ∧ compileWith g format source' = .error e' ∧
        e.unplaced = e'.unplaced ∧ e.message = e'.message ∧
        (e.offset? = none ∧ e'.offset? = none ∨
          ∃ (i : Nat) (t t' : Token), tokens[i]? = some t ∧ tokens'[i]? = some t' ∧ e.offset? = some t.offset ∧
            e'.offset? = some t'.offset) := by
  have hout := compileWith_matches g format h h' (Pairing.forall₂_atIndex hkinds)
  generalize compileWith g format source = x at hout
  generalize compileWith g format source' = y at hout
  cases hout with
  | ok hc => exact .inl ⟨_, rfl, by rw [hc]⟩
  | error he =>
    rename_i e e'
    have hsame := he.unplaced_eq
    refine .inr ⟨e, e', rfl, rfl, hsame, ?_, ?_⟩
    · rw [← e.message_unplaced, hsame, e'.message_unplaced]
    · have hoffset := he.offset_rel
      generalize e.offset? = o at hoffset
      generalize e'.offset? = o' at hoffset
      cases hoffset with
      | none => exact .inl ⟨rfl, rfl⟩
      | some hplace =>
        obtain ⟨t, t', ⟨-, i, ht, ht'⟩, rfl, rfl⟩ := hplace
        exact .inr ⟨i, t, t', ht, ht', rfl, rfl⟩

def denseSource : String :=
  "func main()\x7bx=1;\x7d"

def wideSource : String :=
  "// é\nfunc main ( )\t\x7b /* x */ x = 1 ; \x7d"

def denseTokens : List Token :=
  [⟨.keyword .func, 0⟩, ⟨.ident "main", 5⟩, ⟨.punct .lparen, 9⟩, ⟨.punct .rparen, 10⟩, ⟨.punct .lbrace, 11⟩,
    ⟨.ident "x", 12⟩, ⟨.punct .assign, 13⟩, ⟨.number 1, 14⟩, ⟨.punct .semicolon, 15⟩, ⟨.punct .rbrace, 16⟩,
    ⟨.endOfInput, 17⟩]

def wideTokens : List Token :=
  [⟨.keyword .func, 6⟩, ⟨.ident "main", 11⟩, ⟨.punct .lparen, 16⟩, ⟨.punct .rparen, 18⟩, ⟨.punct .lbrace, 20⟩,
    ⟨.ident "x", 30⟩, ⟨.punct .assign, 32⟩, ⟨.number 1, 34⟩, ⟨.punct .semicolon, 36⟩, ⟨.punct .rbrace, 38⟩,
    ⟨.endOfInput, 39⟩]

private theorem tokenize_dense : tokenize denseSource = .ok denseTokens := by
  apply tokenize_of_lexWithin
  simp only [denseSource, String.reduceToList]
  exact ⟨_, rfl, rfl⟩

theorem tokenize_wide : tokenize wideSource = .ok wideTokens := by
  apply tokenize_of_lexWithin
  simp only [wideSource, String.reduceToList]
  exact ⟨_, rfl, rfl⟩

theorem spacing_is_immaterial_of_comments :
    denseTokens.map Token.kind = wideTokens.map Token.kind ∧
      compileWith .standard .binary denseSource = .error (.undefinedSymbol "x" (some 12)) ∧
      ∃ e, compileWith .standard .binary wideSource = .error e ∧ e.unplaced = .undefinedSymbol "x" none := by
  have herror : compileWith .standard .binary denseSource = .error (.undefinedSymbol "x" (some 12)) := by
    rw [compileWith, generateSource, parseSource, tokenize_dense]
    rfl
  refine ⟨rfl, herror, ?_⟩
  rcases spacing_is_immaterial .standard .binary tokenize_dense tokenize_wide rfl with
    ⟨_, hok, -⟩ | ⟨e, e', he, he', hsame, -⟩
  · rw [herror] at hok
    cases hok
  · rw [herror] at he
    cases he
    exact ⟨e', he', hsame.symm⟩

end StackToolchain
