/-! Scripts: what a command does with the outside, step by step. A script prints, reads files and writes
files; it can be played on a directory held as a value, or on the real one. -/
namespace StackToolchain

inductive Script (α : Type) where
  | done (result : α)
  | print (text : String) (next : Unit → Script α)
  | complain (text : String) (next : Unit → Script α)
  | read (file : String) (next : Option ByteArray → Script α)
  | write (file : String) (content : ByteArray) (next : Bool → Script α)

namespace Script

variable {α β : Type}

def andThen (s : Script α) (f : α → Script β) : Script β :=
  match s with
  | .done result => f result
  | .print text next => .print text fun u => (next u).andThen f
  | .complain text next => .complain text fun u => (next u).andThen f
  | .read file next => .read file fun content => (next content).andThen f
  | .write file content next => .write file content fun ok => (next ok).andThen f

instance : Monad Script where
  pure := .done
  bind := andThen

def say (text : String) : Script Unit := .print text .done

def sayLine (text : String) : Script Unit := say (text ++ "\n")

def complaint (text : String) : Script Unit := .complain text .done

def readFile (file : String) : Script (Option ByteArray) := .read file .done

def readText (file : String) : Script (Option String) := .read file fun content =>
  .done (content.bind String.fromUTF8?)

def writeFile (file : String) (content : ByteArray) : Script Bool := .write file content .done

end Script

structure Directory where
  files : List (String × ByteArray) := []
  writable : String → Bool := fun _ => true

namespace Directory

def get? (dir : Directory) (file : String) : Option ByteArray :=
  dir.files.lookup file

def put (dir : Directory) (file : String) (content : ByteArray) : Directory :=
  { dir with files := (file, content) :: dir.files.filter (·.1 ≠ file) }

end Directory

structure Transcript (α : Type) where
  result : α
  output : String
  errors : String
  directory : Directory

namespace Script

variable {α : Type}

def playOnto (output errors : String) (dir : Directory) : Script α → Transcript α
  | .done result => ⟨result, output, errors, dir⟩
  | .print text next => playOnto (output ++ text) errors dir (next ())
  | .complain text next => playOnto output (errors ++ text) dir (next ())
  | .read file next => playOnto output errors dir (next (dir.get? file))
  | .write file content next =>
    if dir.writable file then playOnto output errors (dir.put file content) (next true)
    else playOnto output errors dir (next false)

def play (dir : Directory) (s : Script α) : Transcript α :=
  s.playOnto "" "" dir

end Script

end StackToolchain
