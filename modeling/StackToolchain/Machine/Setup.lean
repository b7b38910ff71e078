import StackToolchain.Machine.WatchFile

/-! What a run begins with: a machine with an image in its memory, and a watch list. -/
namespace StackToolchain

inductive SetupError where
  | imageTooLarge (bytes : Nat)
  | missingFile (file : String)
  | badWatchFile (file : String)
  deriving DecidableEq, Repr

def SetupError.message : SetupError → String
  | .imageTooLarge bytes => "Program does not fit in memory (" ++ toString bytes ++ " bytes)"
  | .missingFile file => "Failed to open file: " ++ file
  | .badWatchFile file => "Failed to parse config: " ++ file

def Machine.load (image : List UInt8) : Except SetupError Machine :=
  if fits : image.length ≤ 0x10000 then .ok (.start (.ofImage image fits))
  else .error (.imageTooLarge image.length)

def WatchList.ofFile (file : String) (all : Bool) (content : ByteArray) : Except SetupError WatchList :=
  match (String.fromUTF8? content).bind watchPoints? with
  | some points => .ok { file := some file, all, points }
  | none => .error (.badWatchFile file)

end StackToolchain
