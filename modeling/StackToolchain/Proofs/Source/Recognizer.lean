import StackToolchain.Proofs.Source.Dispatch

/-! A machine that reads a source token by token.
What is still to come after some tokens is a stack of parts. A token either belongs to the part on top, or shows
that this part is over, or is refused. The machine builds no tree, but it accepts the same tokens as the parser and
refuses the others at the same token with the same words. -/
namespace StackToolchain.Source

/-- A part of a source that may still come. Parts that must come have the words for a token in their place. -/
inductive Pending where
  | value (message : String)
  | callee -- arguments, if the name before is called
  | assignee -- the same for a name that begins a statement, or a value for it
  | operands -- operators and values behind a value
  | arguments
  | moreArguments -- a comma or the parenthesis after an argument
  | mark (p : Punct) (message : String)
  | name (message : String)
  | initializer
  | optional -- a value, if one follows
  | statement
  | statements -- with the brace behind them
  | functionName -- with all that belongs to the function
  | openParameters -- the same from the parenthesis on
  | parameters
  | moreParameters -- a comma or the parenthesis after a parameter
  | declarations -- with the end behind them
  deriving DecidableEq, Repr

inductive Response where
  | refuse (message : String)
  | accept -- the source is complete
  | enter (parts : List Pending) -- it is taken, and these parts come before those below
  | leave -- the part is over, and the token is for those below
  deriving DecidableEq, Repr

def valueResponse (message : String) (behind : List Pending) : TokenKind → Response
  | .number _ => .enter behind
  | .ident _ => .enter (.callee :: behind)
  | .punct .lparen =>
    .enter (.value "expected expression after '('" :: .operands :: .mark .rparen "expected ')'" :: behind)
  | _ => .refuse message

def statementResponse (behind : List Pending) : TokenKind → Response
  | .punct .lbrace => .enter (.statements :: behind)
  | .keyword .cond => .enter (.value "expected condition after 'if'" :: .operands :: .statement :: behind)
  | .keyword .loop => .enter (.value "expected condition after 'while'" :: .operands :: .statement :: behind)
  | .keyword .var =>
    .enter (.name "expected variable name after 'var'" :: .initializer :: .mark .semicolon "expected ';'" :: behind)
  | .keyword .ret => .enter (.optional :: .mark .semicolon "expected ';'" :: behind)
  | .keyword .write =>
    .enter (.value "expected address after 'write'" :: .operands :: .value "expected value to write" :: .operands ::
      .mark .semicolon "expected ';'" :: behind)
  | .ident _ => .enter (.assignee :: .operands :: .mark .semicolon "expected ';'" :: behind)
  | .punct .rbrace => .refuse "expected statement"
  | .endOfInput => .refuse "expected '\x7d' at the end of scope"
  | k => valueResponse "unrecognized statement" (.operands :: .mark .semicolon "expected ';'" :: behind) k

def Pending.respond : Pending → TokenKind → Response
  | .value message, k => valueResponse message [] k
  | .callee, k => if k = .punct .lparen then .enter [.arguments] else .leave
  | .assignee, k =>
    if k = .punct .lparen then .enter [.arguments]
    else if k = .punct .assign then .enter [.value "expected expression after '='"] else .leave
  | .operands, .punct p =>
    match p.operator? with
    | some op => .enter [.value ("expected value after '" ++ op.sign ++ "'"), .operands]
    | none => .leave
  | .operands, _ => .leave
  | .arguments, k =>
    if k = .punct .rparen then .enter []
    else valueResponse "expected argument expression" [.operands, .moreArguments] k
  | .moreArguments, k =>
    if k = .punct .comma then .enter [.value "expected argument expression", .operands, .moreArguments]
    else if k = .punct .rparen then .enter [] else .refuse "expected ')' or ',' after argument"
  | .mark p message, k => if k = .punct p then .enter [] else .refuse message
  | .name _, .ident _ => .enter []
  | .name message, _ => .refuse message
  | .initializer, k =>
    if k = .punct .assign then .enter [.value "expected expression after '='", .operands] else .leave
  | .optional, k => if k.beginsValue then valueResponse "" [.operands] k else .leave
  | .statement, k => statementResponse [] k
  | .statements, k => if k = .punct .rbrace then .enter [] else statementResponse [.statements] k
  | .functionName, .ident _ => .enter [.openParameters]
  | .functionName, _ => .refuse "expected identifier after 'func'"
  | .openParameters, k =>
    if k = .punct .lparen then
      .enter [.parameters, .mark .lbrace "expected '\x7b' to open the function body", .statements]
    else .refuse "expected '(' after function name"
  | .parameters, .ident _ => .enter [.moreParameters]
  | .parameters, k => if k = .punct .rparen then .enter [] else .refuse "expected parameter name"
  | .moreParameters, k =>
    if k = .punct .comma then .enter [.name "expected parameter name", .moreParameters]
    else if k = .punct .rparen then .enter [] else .refuse "expected ')' or ',' after parameter"
  | .declarations, .endOfInput => .accept
  | .declarations, .keyword .func => .enter [.functionName, .declarations]
  | .declarations, .keyword .var =>
    .enter [.name "expected variable name after 'var'", .mark .semicolon "expected ';' after global variable",
      .declarations]
  | .declarations, _ => .refuse "unrecognized statement"

inductive Verdict where
  | refused (message : String)
  | accepted
  | continued (stack : List Pending)
  deriving DecidableEq, Repr

/-- A token goes down the stack, past the parts that it ends. -/
def advance : List Pending → TokenKind → Verdict
  | [], _ => .accepted
  | part :: stack, k =>
    match part.respond k with
    | .refuse message => .refused message
    | .accept => .accepted
    | .enter parts => .continued (parts ++ stack)
    | .leave => advance stack k

/-- Read tokens with a stack of parts to come. Behind the last token is the end, with an offset of its own. -/
def judge (endOffset : Nat) : List Pending → List Token → Except SyntaxError Unit
  | stack, [] =>
    match advance stack .endOfInput with
    | .refused message => .error ⟨endOffset, .unmet message⟩
    | _ => .ok ()
  | stack, t :: rest =>
    match advance stack t.kind with
    | .refused message => .error ⟨t.offset, .unmet message⟩
    | .accepted => .ok ()
    | .continued stack => judge endOffset stack rest

def Cursor.judge (c : Cursor) (stack : List Pending) : Except SyntaxError Unit :=
  Source.judge c.endOffset stack c.rest

theorem valueResponse_of_not_beginsValue {k : TokenKind} (h : k.beginsValue = false) (message : String)
    (behind : List Pending) : valueResponse message behind k = .refuse message := by
  cases k with
  | punct p => cases p <;> first | rfl | cases h
  | keyword k => rfl
  | endOfInput => rfl
  | _ => cases h

section
variable {c : Cursor} {part : Pending} {stack parts : List Pending} {message : String}

theorem judge_refuse (h : part.respond c.kind = .refuse message) : c.judge (part :: stack) = c.fail message := by
  obtain ⟨rest, last⟩ := c
  cases rest with
  | nil =>
    have h' : part.respond .endOfInput = .refuse message := h
    simp [Cursor.judge, judge, advance, h', Cursor.fail, Cursor.peek]
  | cons t rest =>
    have h' : part.respond t.kind = .refuse message := h
    simp [Cursor.judge, judge, advance, h', Cursor.fail, Cursor.peek]

/-- Two stacks that take the next token alike read all tokens alike. -/
theorem judge_of_advance_eq {other : List Pending} (h : advance stack c.kind = advance other c.kind) :
    c.judge stack = c.judge other := by
  obtain ⟨rest, last⟩ := c
  cases rest with
  | nil =>
    have h' : advance stack .endOfInput = advance other .endOfInput := h
    simp only [Cursor.judge, judge, h']
  | cons t rest =>
    have h' : advance stack t.kind = advance other t.kind := h
    simp only [Cursor.judge, judge, h']

theorem judge_congr {other : Pending} (h : part.respond c.kind = other.respond c.kind) :
    c.judge (part :: stack) = c.judge (other :: stack) :=
  judge_of_advance_eq (by rw [advance, advance, h])

theorem judge_leave (h : part.respond c.kind = .leave) : c.judge (part :: stack) = c.judge stack :=
  judge_of_advance_eq (by rw [advance, h])

theorem judge_enter (h : part.respond c.kind = .enter parts) (hk : c.kind ≠ .endOfInput) :
    c.judge (part :: stack) = c.next.judge (parts ++ stack) := by
  obtain ⟨rest, last⟩ := c
  cases rest with
  | nil => exact absurd rfl hk
  | cons t rest =>
    have h' : part.respond t.kind = .enter parts := h
    simp [Cursor.judge, judge, advance, h', Cursor.next]

theorem judge_accept (h : part.respond c.kind = .accept) : c.judge (part :: stack) = .ok () := by
  obtain ⟨rest, last⟩ := c
  cases rest with
  | nil =>
    have h' : part.respond .endOfInput = .accept := h
    simp [Cursor.judge, judge, advance, h']
  | cons t rest =>
    have h' : part.respond t.kind = .accept := h
    simp [Cursor.judge, judge, advance, h']

end

end StackToolchain.Source
