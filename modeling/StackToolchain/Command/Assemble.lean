import StackToolchain.Assembly.Image
import StackToolchain.Assembly.Layout
import StackToolchain.Assembly.Report
import StackToolchain.Command.Compile

/-! The command that assembles a listing. -/
namespace StackToolchain.Command

def assembleOptions : List OptionSpec :=
  [⟨"output", some 'o', true⟩, ⟨"dump", some 'd', false⟩]

def assemble (args : List String) : Script Nat := do
  let args := Arguments.read assembleOptions args
  let input := args.file.getD "main.s"
  let output := (args.value? "output").getD "main.bin"
  Script.sayLine "tinasm"
  let some text ← Script.readText input | abandon ("Failed to open file: " ++ input)
  Script.sayLine "1. Read File and Parse Lines"
  Script.sayLine ("  < " ++ input)
  match Program.parse text with
  | .error e =>
    Script.complaint (e.report input text)
    return 1
  | .ok program =>
    Script.sayLine "2. Resolve Labels"
    match Labels.collect program with
    | .error e => abandon e.message
    | .ok labels =>
      Script.sayLine ("  " ++ Style.green (toString labels.size) ++ " labels")
      Script.sayLine "3. Generate Binary"
      match program.encode labels with
      | .error e => abandon e.message
      | .ok bytes =>
        Script.sayLine ("  > " ++ output ++ " (" ++ toString bytes.length ++ " bytes)")
        if ← Script.writeFile output ⟨bytes.toArray⟩ then
          if args.has "dump" then Script.say (program.layout labels)
          return 0
        else abandon ("Failed to create file: " ++ output)

end StackToolchain.Command
