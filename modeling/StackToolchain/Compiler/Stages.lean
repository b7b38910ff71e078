import StackToolchain.Compiler.Compile

/-! What compilation shows of its stages on request. A stage that fails, and those after it, show nothing. -/
namespace StackToolchain

open Source (Grammar Token Tree)

structure Stages where
  stripped : Bool := false
  tokens : Bool := false
  tree : Bool := false
  assembly : Bool := false

namespace Stages

def framed (title body : String) : String :=
  let ruler := "---------------------------------\n"
  Style.bold title ++ "\n" ++ ruler ++ body ++ (if body.endsWith "\n" then "" else "\n") ++ ruler

def tokenRow (token : Token) (index : Nat) : String :=
  Text.padLeft 4 ' ' (toString index) ++ " @" ++ Text.padRight 5 (toString token.offset) ++ " " ++
    token.kind.describe

def tokenText (tokens : List Token) : String :=
  Text.unlines (Style.bold "Tokens:" :: tokens.zipIdx.map fun (token, index) => tokenRow token index)

def codeText (code : Program) : String :=
  Text.unlines (Style.bold "Assembly:" :: code.map Line.colouredText)

def shown {α : Type} (asked : Bool) (stage : Except CompileError α) (text : α → String) : String :=
  if asked then
    match stage with
    | .ok a => text a
    | .error _ => ""
  else ""

def text (stages : Stages) (g : Grammar) (source : String) : String :=
  shown stages.stripped (StackToolchain.stripped source)
      (fun text => framed "Preprocessed code:" (String.ofList text)) ++
    shown stages.tokens (tokenize source) tokenText ++
    shown stages.tree (parseSource g source) (fun tree => framed "Syntax tree:" (Source.Tree.outline tree)) ++
    shown stages.assembly (generateSource g source) (fun generated => codeText generated.code)

end Stages

end StackToolchain
