import StackToolchain.Proofs.Source.Agreement

/-! Where syntax errors are reported.
The parser refuses a source at the first token that no source can have there. What stands before it is the beginning
of a source, because every stack that the machine comes to can still be emptied; and nothing behind it matters,
because the machine looks at no token before its turn. -/
namespace StackToolchain.Source

variable {stack rest : List Pending} {k : TokenKind}

def TokenKind.closesValue (k : TokenKind) : Bool :=
  k ≠ .punct .lparen ∧ k ≠ .punct .assign ∧ k.isOperator = false

private def unplacedTokens (kinds : List TokenKind) : List Token :=
  kinds.map (⟨·, 0⟩)

/-- Tokens that empty a stack, whatever follows the last of them. -/
def Completes (kinds : List TokenKind) (stack : List Pending) : Prop :=
  ∀ last, judge last stack (unplacedTokens kinds) = .ok ()

private theorem Completes.enter {part : Pending} {parts : List Pending} {kinds : List TokenKind}
    (h : part.respond k = .enter parts) (hk : Completes kinds (parts ++ stack)) :
    Completes (k :: kinds) (part :: stack) := by
  intro last
  simpa [unplacedTokens, judge, advance, h] using hk last

private theorem Completes.leave {part : Pending} {kinds : List TokenKind} (h : part.respond k = .leave)
    (hk : Completes (k :: kinds) stack) : Completes (k :: kinds) (part :: stack) := by
  intro last
  simpa [unplacedTokens, judge, advance, h] using hk last

private theorem respond_operands (h : k.isOperator = false) : Pending.operands.respond k = .leave := by
  cases k with
  | punct p =>
    have hp : p.operator? = none := by simpa [TokenKind.isOperator] using h
    simp [Pending.respond, hp]
  | _ => rfl

/-- A part that can be completed whatever stands above it. The parenthesis after the name of a function would make
that name a call, but there the name is behind the parser. -/
def Pending.completable : Pending → Bool
  | .openParameters => false
  | .mark p _ => (TokenKind.punct p).closesValue
  | _ => true

/-- Such parts can be emptied. The first token closes a value, so that what may be left out above them is over. -/
theorem exists_completion (h : stack.all Pending.completable = true) :
    ∃ k kinds, k.closesValue = true ∧ Completes (k :: kinds) stack := by
  induction stack with
  | nil => exact ⟨.endOfInput, [], rfl, fun _ => rfl⟩
  | cons part stack ih =>
    rw [List.all_cons, Bool.and_eq_true] at h
    obtain ⟨k, kinds, hk, hc⟩ := ih h.2
    have hk' : k ≠ .punct .lparen ∧ k ≠ .punct .assign ∧ k.isOperator = false := of_decide_eq_true hk
    have hops : Completes (k :: kinds) (.operands :: stack) := .leave (respond_operands hk'.2.2) hc
    cases part with
    | value message => exact ⟨.number 0, k :: kinds, rfl, .enter rfl hc⟩
    | callee => exact ⟨k, kinds, hk, .leave (if_neg hk'.1) hc⟩
    | assignee => exact ⟨k, kinds, hk, .leave (by simp [Pending.respond, hk']) hc⟩
    | operands => exact ⟨k, kinds, hk, hops⟩
    | arguments => exact ⟨.punct .rparen, k :: kinds, rfl, .enter rfl hc⟩
    | moreArguments => exact ⟨.punct .rparen, k :: kinds, rfl, .enter rfl hc⟩
    | mark p message => exact ⟨.punct p, k :: kinds, h.1, .enter (if_pos rfl) hc⟩
    | name message => exact ⟨.ident "x", k :: kinds, rfl, .enter rfl hc⟩
    | initializer => exact ⟨k, kinds, hk, .leave (if_neg hk'.2.1) hc⟩
    | optional => exact ⟨.number 0, k :: kinds, rfl, .enter rfl hops⟩
    | statement => exact ⟨.punct .lbrace, .punct .rbrace :: k :: kinds, rfl, .enter rfl (.enter rfl hc)⟩
    | statements => exact ⟨.punct .rbrace, k :: kinds, rfl, .enter rfl hc⟩
    | functionName =>
      have hbody : Completes (.punct .lbrace :: .punct .rbrace :: k :: kinds)
          (.mark .lbrace "expected '\x7b' to open the function body" :: .statements :: stack) :=
        .enter rfl (.enter rfl hc)
      exact ⟨.ident "x", _, rfl, .enter rfl (.enter (k := .punct .lparen) rfl (.enter (k := .punct .rparen) rfl hbody))⟩
    | openParameters => cases h.1
    | parameters => exact ⟨.punct .rparen, k :: kinds, rfl, .enter rfl hc⟩
    | moreParameters => exact ⟨.punct .rparen, k :: kinds, rfl, .enter rfl hc⟩
    | declarations => exact ⟨.endOfInput, [], rfl, fun _ => rfl⟩

/-- Stacks whose parts can be completed, where only a part on top may wait for the parameters of a function. -/
private def Viable (stack : List Pending) : Prop :=
  stack.all Pending.completable = true ∨ ∃ rest, stack = .openParameters :: rest ∧ rest.all Pending.completable = true

private theorem Viable.tail {part : Pending} (h : Viable (part :: stack)) : stack.all Pending.completable = true := by
  rcases h with h | ⟨rest, hs, h⟩
  · exact (Bool.and_eq_true _ _ ▸ h).2
  · cases hs
    exact h

private theorem Viable.exists_completion (h : Viable stack) : ∃ kinds, Completes kinds stack := by
  rcases h with h | ⟨rest, rfl, h⟩
  · obtain ⟨k, kinds, -, hc⟩ := Source.exists_completion h
    exact ⟨_, hc⟩
  · have hall : List.all
        (.parameters :: .mark .lbrace "expected '\x7b' to open the function body" :: .statements :: rest)
        Pending.completable = true := h
    obtain ⟨k, kinds, -, hc⟩ := Source.exists_completion hall
    exact ⟨_, .enter (k := .punct .lparen) rfl hc⟩

section
variable {part : Pending} {parts behind : List Pending} {message : String}

private theorem valueResponse_completable (hb : behind.all Pending.completable = true)
    (h : valueResponse message behind k = .enter parts) : parts.all Pending.completable = true := by
  cases k with
  | number n =>
    cases h
    exact hb
  | ident name =>
    cases h
    exact hb
  | punct p =>
    by_cases hp : p = .lparen
    · subst hp
      cases h
      exact hb
    · cases p <;> contradiction
  | _ => cases h

private theorem statementResponse_completable (hb : behind.all Pending.completable = true)
    (h : statementResponse behind k = .enter parts) : parts.all Pending.completable = true := by
  have hb' : List.all (.operands :: .mark .semicolon "expected ';'" :: behind) Pending.completable = true := hb
  unfold statementResponse at h
  split at h
  case h_10 => exact valueResponse_completable hb' h
  all_goals
    cases h
    try exact hb

/-- What a token puts on the stack can be completed there. -/
theorem respond_viable (h : part.respond k = .enter parts) :
    parts.all Pending.completable = true ∨ parts = [.openParameters] := by
  cases part with
  | value message => exact .inl (valueResponse_completable rfl h)
  | statement => exact .inl (statementResponse_completable rfl h)
  | arguments =>
    rw [Pending.respond] at h
    split_ifs at h
    · cases h
      exact .inl rfl
    · exact .inl (valueResponse_completable rfl h)
  | optional =>
    rw [Pending.respond] at h
    split_ifs at h
    exact .inl (valueResponse_completable rfl h)
  | statements =>
    rw [Pending.respond] at h
    split_ifs at h
    · cases h
      exact .inl rfl
    · exact .inl (statementResponse_completable rfl h)
  | operands =>
    cases k with
    | punct p =>
      rw [Pending.respond] at h
      split at h <;> cases h
      exact .inl rfl
    | _ => cases h
  | functionName =>
    cases k <;> cases h
    exact .inr rfl
  | name message =>
    cases k <;> cases h
    exact .inl rfl
  | parameters =>
    cases k with
    | ident name =>
      cases h
      exact .inl rfl
    | punct p =>
      simp only [Pending.respond] at h
      split_ifs at h
      cases h
      exact .inl rfl
    | _ => cases h
  | declarations =>
    cases k with
    | keyword k =>
      cases k <;> cases h
      · exact .inl rfl
      · exact .inl rfl
    | _ => cases h
  | _ =>
    rw [Pending.respond] at h
    split_ifs at h <;> cases h <;> exact .inl rfl

private theorem respond_endOfInput : part.respond .endOfInput ≠ .enter parts := by
  cases part <;> (intro h; cases h)

end

private theorem advance_viable {stack' : List Pending} (h : Viable stack) (ha : advance stack k = .continued stack') :
    Viable stack' := by
  induction stack with
  | nil => cases ha
  | cons part stack ih =>
    have htail := h.tail
    rw [advance] at ha
    cases hr : part.respond k with
    | refuse message => simp [hr] at ha
    | accept => simp [hr] at ha
    | leave =>
      rw [hr] at ha
      exact ih (.inl htail) ha
    | enter parts =>
      rw [hr] at ha
      cases ha
      rcases respond_viable hr with hp | rfl
      · exact .inl (by rw [List.all_append, hp, htail]; rfl)
      · exact .inr ⟨stack, rfl, htail⟩

/-- The machine never goes past the end. -/
theorem advance_endOfInput {stack' : List Pending} : advance stack .endOfInput ≠ .continued stack' := by
  induction stack with
  | nil => simp [advance]
  | cons part stack ih =>
    rw [advance]
    split
    · simp
    · simp
    · rename_i hr
      exact absurd hr respond_endOfInput
    · exact ih

/-- A token that is refused is refused whatever follows it. -/
theorem judge_refused {t : Token} {message : String} (h : advance stack t.kind = .refused message) (us : List Token)
    (last : Nat) : judge last stack (t :: us) = .error ⟨t.offset, .unmet message⟩ := by
  simp [judge, h]

private theorem judge_error {last : Nat} {ts : List Token} {t : Token} {e : SyntaxError} (h : Viable stack)
    (ht : t.kind = .endOfInput) (he : judge last stack (ts ++ [t]) = .error e) :
    ∃ n ≤ ts.length, ((ts ++ [t])[n]?).map Token.offset = some e.offset ∧
      (∃ us, ∀ last, judge last stack (ts.take n ++ us) = .ok ()) ∧
        ∀ us last, judge last stack ((ts ++ [t]).take (n + 1) ++ us) = .error e := by
  obtain ⟨kinds, hkinds⟩ := h.exists_completion
  induction ts generalizing stack kinds with
  | nil =>
    cases ha : advance stack t.kind with
    | refused message =>
      obtain rfl := Except.error.inj ((judge_refused ha [] last).symm.trans he)
      exact ⟨0, Nat.le_refl 0, rfl, ⟨unplacedTokens kinds, hkinds⟩, judge_refused ha⟩
    | accepted => simp [judge, ha] at he
    | continued stack' =>
      rw [ht] at ha
      exact absurd ha advance_endOfInput
  | cons t' ts ih =>
    cases ha : advance stack t'.kind with
    | refused message =>
      obtain rfl := Except.error.inj ((judge_refused ha (ts ++ [t]) last).symm.trans he)
      exact ⟨0, Nat.zero_le _, rfl, ⟨unplacedTokens kinds, hkinds⟩, judge_refused ha⟩
    | accepted => simp [judge, ha] at he
    | continued stack' =>
      have hv := advance_viable h ha
      obtain ⟨kinds', hkinds'⟩ := hv.exists_completion
      have hstep : ∀ us last, judge last stack (t' :: us) = judge last stack' us := by
        intro us last
        simp [judge, ha]
      rw [List.cons_append, hstep] at he
      obtain ⟨n, hn, hoffset, ⟨us, hus⟩, hall⟩ := ih hv he kinds' hkinds'
      refine ⟨n + 1, Nat.succ_le_succ hn, hoffset, ⟨us, fun last => ?_⟩, fun us last => ?_⟩
      · exact (hstep _ last).trans (hus last)
      · exact (hstep _ last).trans (hall us last)

private theorem parse_of_judge {tokens : List Token} (h : ∀ last, judge last [.declarations] tokens = .ok ()) :
    ∃ tree, Grammar.standard.parse tokens = .ok tree := by
  obtain ⟨tree, htree, -⟩ := bind_eq_ok.mp ((parse_judge tokens).symm.trans (h _))
  exact ⟨tree, htree⟩

private theorem parse_error_iff {tokens : List Token} {e : SyntaxError} :
    Grammar.standard.parse tokens = .error e ↔ (Cursor.ofTokens tokens 0).judge [.declarations] = .error e := by
  rw [parse_judge]
  cases Grammar.standard.parse tokens with
  | error e' => simp [bind, Except.bind]
  | ok tree => exact ⟨nofun, nofun⟩

/-- An error stands at a token. The tokens before it are the beginning of a source that can be parsed, and no source
that begins with them and this token can be: all such sources have the same error. -/
theorem syntax_error_at_first_wrong_token {tokens : List Token} {t : Token} {e : SyntaxError}
    (ht : t.kind = .endOfInput) (h : Grammar.standard.parse (tokens ++ [t]) = .error e) :
    ∃ n ≤ tokens.length, ((tokens ++ [t])[n]?).map Token.offset = some e.offset ∧
      (∃ more tree, Grammar.standard.parse (tokens.take n ++ more) = .ok tree) ∧
        ∀ more, Grammar.standard.parse ((tokens ++ [t]).take (n + 1) ++ more) = .error e := by
  obtain ⟨n, hn, hoffset, ⟨more, hmore⟩, hall⟩ := judge_error (.inl rfl) ht (parse_error_iff.mp h)
  exact ⟨n, hn, hoffset, ⟨more, parse_of_judge hmore⟩, fun more => parse_error_iff.mpr (hall more _)⟩

def brokenTokens : List Token :=
  [⟨.keyword .func, 0⟩, ⟨.ident "f", 5⟩, ⟨.punct .lparen, 6⟩, ⟨.punct .rparen, 7⟩, ⟨.punct .lbrace, 9⟩,
    ⟨.keyword .ret, 11⟩, ⟨.number 1, 18⟩, ⟨.punct .plus, 20⟩, ⟨.punct .semicolon, 22⟩, ⟨.punct .rbrace, 24⟩]

theorem syntax_error_at_first_broken_token :
    Grammar.standard.parse (brokenTokens ++ [⟨.endOfInput, 25⟩]) =
        .error ⟨22, .unmet "expected value after '+'"⟩ ∧
      ∃ n ≤ brokenTokens.length,
        ((brokenTokens ++ [⟨.endOfInput, 25⟩] : List Token)[n]?).map Token.offset = some 22 ∧
          (∃ more tree, Grammar.standard.parse (brokenTokens.take n ++ more) = .ok tree) ∧
            ∀ more, Grammar.standard.parse (List.take (n + 1) (brokenTokens ++ [⟨.endOfInput, 25⟩]) ++ more) =
              .error ⟨22, .unmet "expected value after '+'"⟩ :=
  ⟨rfl, syntax_error_at_first_wrong_token (t := ⟨.endOfInput, 25⟩) (e := ⟨22, .unmet "expected value after '+'"⟩)
    rfl rfl⟩

end StackToolchain.Source
