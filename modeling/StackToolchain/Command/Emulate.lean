import StackToolchain.Command.Options
import StackToolchain.Command.Script
import StackToolchain.Diagnostic
import StackToolchain.Machine.Setup

/-! The command that runs an image under a watch list. -/
namespace StackToolchain

/-- How a watched run ended: with a fault, or else with the number of steps if the machine stopped. -/
abbrev Watched := Except Fault (Option Nat) × Machine

/-- Execute and print what is watched, until the machine stops, an instruction faults, or a number of steps is
used up. `time` steps have been executed before. -/
def WatchList.watch (w : WatchList) : Nat → Nat → Machine → Script Watched
  | 0, _, m => .done (.ok none, m)
  | steps + 1, time, m =>
    let addr := m.pc
    match m.exec with
    | (.error fault, m) => .done (.error fault, m)
    | (.ok i, m) =>
      .print (Text.unlines (w.rows time addr i m)) fun _ =>
        if m.halted then .done (.ok (some (time + 1)), m) else w.watch steps (time + 1) m

def WatchList.session (w : WatchList) (steps : Nat) (m : Machine) : Script Watched := do
  Script.say w.intro
  w.watch steps 0 m

def WatchList.fetch (file : Option String) (all : Bool) : Script (Except SetupError WatchList) :=
  match file with
  | none => .done (.ok { all })
  | some file => do
    match ← Script.readFile file with
    | none => return .error (.missingFile file)
    | some content => return WatchList.ofFile file all content

namespace Command

def emulateOptions : List OptionSpec :=
  [⟨"tmax", some 't', true⟩, ⟨"dump-cfg", some 'd', true⟩, ⟨"dump-all", some 'a', false⟩]

def unlimited : Nat := 0xFFFFFFFFFFFFFFFF

def stepLimit? (text : String) : Option Nat :=
  Text.readNatural? (unlimited + 1) text.toList

def giveUp (message : String) : Script Nat := do
  Script.sayLine (errorRow message)
  return 1

def banner (file : String) : String :=
  let ruler := "+-----------------------------------------------+"
  Text.unlines ["tinemu", ruler, "| " ++ Text.padRight 45 file ++ " |", ruler]

def runWatched (w : WatchList) (steps : Nat) (m : Machine) : Script Nat := do
  let (outcome, m) ← w.session steps m
  match outcome with
  | .error fault => giveUp fault.message
  | .ok stopped =>
    if let some time := stopped then Script.sayLine ("[HALT] after " ++ toString time ++ " steps")
    Script.sayLine "================================================="
    Script.sayLine ("RRET = " ++ Style.green (toString (m.reg .rret).toNat))
    return 0

def emulate (args : List String) : Script Nat := do
  let args := Arguments.read emulateOptions args
  let input := args.file.getD "main.bin"
  let steps := ((args.value? "tmax").bind stepLimit?).getD unlimited
  Script.say (banner input)
  let some image ← Script.readFile input | giveUp (SetupError.missingFile input).message
  match Machine.load image.toList with
  | .error e => giveUp e.message
  | .ok m =>
    Script.sayLine "[INIT]"
    match ← WatchList.fetch (args.value? "dump-cfg") (args.has "dump-all") with
    | .error e => giveUp e.message
    | .ok w => runWatched w steps m

end Command

end StackToolchain
