import StackToolchain.Command.Options
import StackToolchain.Command.Script
import StackToolchain.Compiler.Stages

/-! The command that compiles a source file. -/
namespace StackToolchain.Command

def compileOptions : List OptionSpec :=
  [ ⟨"output", some 'o', true⟩, ⟨"text", some 't', false⟩, ⟨"symbols", some 's', true⟩,
    ⟨"debug-preprocess", none, false⟩, ⟨"debug-tokens", none, false⟩, ⟨"debug-tree", none, false⟩,
    ⟨"debug-assembly", none, false⟩ ]

def artifactBytes : Artifact → ByteArray
  | .binary bytes => ⟨bytes.toArray⟩
  | .text listing => listing.toUTF8

def abandon (message : String) : Script Nat := do
  Script.complaint (report message none)
  return 1

def compile (args : List String) : Script Nat := do
  let args := Arguments.read compileOptions args
  let input := args.file.getD "main.tc"
  let output := (args.value? "output").getD "main.bin"
  let some source ← Script.readText input | abandon ("Failed to read file: " ++ input)
  Script.sayLine ("1. Compile " ++ input)
  let stages : Stages :=
    { stripped := args.has "debug-preprocess", tokens := args.has "debug-tokens"
      tree := args.has "debug-tree", assembly := args.has "debug-assembly" }
  Script.say (stages.text .standard source)
  match StackToolchain.compile (if args.has "text" then .text else .binary) source with
  | .error e =>
    Script.complaint (e.report input source)
    return 1
  | .ok compiled =>
    Script.sayLine ("2. Write " ++ output)
    let bytes := artifactBytes compiled.artifact
    if ← Script.writeFile output bytes then
      Script.sayLine ("  > " ++ Style.green (toString bytes.size) ++ " bytes")
      match args.value? "symbols" with
      | none => return 0
      | some path =>
        Script.sayLine ("3. Write symbols " ++ path)
        if ← Script.writeFile path compiled.symbols.toYaml.toUTF8 then return 0
        else abandon ("Failed to write file: " ++ path)
    else abandon ("Failed to write file: " ++ output)

end StackToolchain.Command
