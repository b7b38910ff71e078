import StackToolchain.Assembly.Program

/-! Reading listings. A line is blank, a label with a colon, or a mnemonic with its operands; a semicolon
begins a comment. -/
namespace StackToolchain

inductive LineError where
  | unknownOperation (word : String)
  | missingArgument (op : Opcode)
  | badArgument (word : String) (slot : Slot)
  | trailingArgument (after : String)
  deriving DecidableEq, Repr

def Slot.expectation : Slot → String
  | .reg => "register"
  | .imm8 => "imm8"
  | .imm16 => "imm16 or label"
  | .pad => "padding"

def LineError.message : LineError → String
  | .unknownOperation word => "Unknown operation: `" ++ word ++ "`"
  | .missingArgument op => "More argument required for `" ++ op.name ++ "`"
  | .badArgument word slot => "Cannot parse `" ++ word ++ "` as " ++ slot.expectation
  | .trailingArgument after => "Too many arguments for `" ++ after ++ "`"

structure ListingError where
  line : Nat
  cause : LineError
  deriving DecidableEq, Repr

def ListingError.message (e : ListingError) : String :=
  "line " ++ toString e.line ++ ": " ++ e.cause.message

/-- Read a word as the operand of a field. A word that is no number may be the name of a label. -/
def Operand.parse (slot : Slot) (word : List Char) : Except LineError Operand :=
  let refused := .error (.badArgument (String.ofList word) slot)
  match slot with
  | .reg =>
    match Register.ofName? (String.ofList word) with
    | some r => .ok (.reg r)
    | none => refused
  | .imm8 =>
    match Text.readSignedByte? word with
    | some v => .ok (.imm8 v)
    | none => refused
  | .imm16 =>
    match Text.readWord? word with
    | some v => .ok (.imm16 v)
    | none => if Text.isName word then .ok (.ref (String.ofList word)) else refused
  | .pad => .ok .pad

/-- Read words as the operands of an opcode's fields. Unused bytes take no word, and no word may be left. -/
def Operand.parseAll (op : Opcode) : List Slot → List (List Char) → Except LineError (List Operand)
  | [], [] => .ok []
  | [], _ :: _ => .error (.trailingArgument op.name)
  | .pad :: slots, words => do return .pad :: (← parseAll op slots words)
  | _ :: _, [] => .error (.missingArgument op)
  | slot :: slots, word :: words => do
    let arg ← Operand.parse slot word
    return arg :: (← parseAll op slots words)

def labelName? (word : List Char) : Option (List Char) :=
  if word.getLast? = some ':' then some word.dropLast else none

def Line.parse (line : List Char) : Except LineError (Option Line) :=
  match Text.words (line.takeWhile (· != ';')) with
  | [] => .ok none
  | head :: rest =>
    match labelName? head with
    | some name =>
      if rest.isEmpty then .ok (some (.label (String.ofList name)))
      else .error (.trailingArgument (String.ofList name))
    | none =>
      match Opcode.ofName? (String.ofList head) with
      | none => .error (.unknownOperation (String.ofList head))
      | some op => do return some (.inst ⟨op, ← Operand.parseAll op op.layout rest⟩)

def Program.parseLines (line : Nat) (done : List Line) : List (List Char) → Except ListingError Program
  | [] => .ok done.reverse
  | text :: rest =>
    match Line.parse text with
    | .error cause => .error ⟨line, cause⟩
    | .ok none => parseLines (line + 1) done rest
    | .ok (some parsed) => parseLines (line + 1) (parsed :: done) rest

def Program.parse (text : String) : Except ListingError Program :=
  Program.parseLines 0 [] (Text.lines text.toList)

end StackToolchain
