import StackToolchain.Assembly.Image
import StackToolchain.Compiler.Generate
import StackToolchain.Compiler.SymbolMap
import StackToolchain.Diagnostic
import StackToolchain.Source.Location
import StackToolchain.Source.Outline
import StackToolchain.Source.Parser

/-! From a source to an image or a listing, stage by stage. -/
namespace StackToolchain

open Source (Grammar Token Tree)

inductive Format where
  | binary
  | text
  deriving DecidableEq, Repr

inductive Artifact where
  | binary (bytes : List UInt8)
  | text (listing : String)
  deriving DecidableEq, Repr

structure Compiled where
  artifact : Artifact
  symbols : SymbolMap

def stripped (source : String) : Except CompileError (List Char) :=
  (Source.blankComments source.toList).mapError .comment

def lexed (text : List Char) : Except CompileError (List Token) :=
  (Source.lex text).mapError .source

def tokenize (source : String) : Except CompileError (List Token) := do
  lexed (← stripped source)

def parseTokens (g : Grammar) (tokens : List Token) : Except CompileError Tree :=
  (g.parse tokens).mapError .source

def parseSource (g : Grammar) (source : String) : Except CompileError Tree := do
  parseTokens g (← tokenize source)

def generateSource (g : Grammar) (source : String) : Except CompileError Generated := do
  generate (← parseSource g source)

def Generated.finish (format : Format) (generated : Generated) : Except CompileError Compiled := do
  let labels ← (Labels.collect generated.code).mapError .assembly
  let symbols : SymbolMap := ⟨labels, generated.frames⟩
  match format with
  | .binary =>
    let bytes ← (generated.code.encode labels).mapError .assembly
    return ⟨.binary bytes, symbols⟩
  | .text => return ⟨.text generated.code.listing, symbols⟩

def compileWith (g : Grammar) (format : Format) (source : String) : Except CompileError Compiled := do
  (← generateSource g source).finish format

def compile (format : Format) (source : String) : Except CompileError Compiled :=
  compileWith .standard format source

def CompileError.report (e : CompileError) (file : String) (source : String) : String :=
  StackToolchain.report e.message <| e.offset?.map fun offset =>
    let place := Source.locate source.toList offset
    { file, line := place.line, column := some place.column, excerpt := String.ofList place.excerpt }

end StackToolchain
