import StackToolchain.Compiler.Compile

/-! Lexing with a bound on the number of steps.
The lexer goes on with what a token leaves, which is shorter. As many steps as there are characters are therefore
enough, and the bounded form can be evaluated. -/
namespace StackToolchain.Source

open Text (isBlank byteWidth)

def lexWithin : Nat → Nat → List Token → List Char → Except SyntaxError (List Token)
  | _, offset, done, [] => .ok ((⟨.endOfInput, offset⟩ :: done).reverse)
  | 0, offset, _, c :: _ => .error ⟨offset, .unexpectedChar c⟩
  | steps + 1, offset, done, c :: rest =>
    if isBlank c then lexWithin steps (offset + c.utf8Size) done rest
    else
      match readToken c rest with
      | .error fault => .error ⟨offset, fault⟩
      | .ok (kind, more) =>
        lexWithin steps (offset + byteWidth (c :: rest.take more)) (⟨kind, offset⟩ :: done) (rest.drop more)

private theorem lexWithin_eq_lexFrom {steps offset : Nat} {done : List Token} {text : List Char}
    (h : text.length ≤ steps) : lexWithin steps offset done text = lexFrom offset done text := by
  induction steps generalizing offset done text with
  | zero =>
    obtain rfl := List.length_eq_zero_iff.mp (Nat.le_zero.mp h)
    rw [lexWithin, lexFrom]
  | succ steps ih =>
    cases text with
    | nil => rw [lexWithin, lexFrom]
    | cons c rest =>
      have hrest : rest.length ≤ steps := Nat.le_of_succ_le_succ h
      rw [lexWithin, lexFrom]
      split
      · exact ih hrest
      · cases readToken c rest with
        | error fault => rfl
        | ok token =>
          -- a token takes its first character and perhaps more
          refine ih ?_
          rw [List.length_drop]
          omega

theorem lexWithin_eq_lex (text : List Char) : lexWithin text.length 0 [] text = lex text :=
  lexWithin_eq_lexFrom (Nat.le_refl _)

theorem tokenize_of_lexWithin {source : String} {tokens : List Token}
    (h : ∃ text, blankComments source.toList = .ok text ∧ lexWithin text.length 0 [] text = .ok tokens) :
    tokenize source = .ok tokens := by
  obtain ⟨text, htext, hlex⟩ := h
  rw [lexWithin_eq_lex] at hlex
  rw [tokenize, stripped, htext]
  show lexed text = .ok tokens
  rw [lexed, hlex]
  rfl

end StackToolchain.Source
