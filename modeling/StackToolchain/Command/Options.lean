/-! Command-line arguments: options with and without values, and a file. -/
namespace StackToolchain

structure OptionSpec where
  long : String
  short : Option Char
  takesValue : Bool

structure Arguments where
  options : List (String × String) := []
  file : Option String := none

namespace Arguments

def has (args : Arguments) (long : String) : Bool :=
  args.options.any (·.1 == long)

def value? (args : Arguments) (long : String) : Option String :=
  args.options.lookup long

def add (args : Arguments) (long value : String) : Arguments :=
  { args with options := (long, value) :: args.options }

end Arguments

def OptionSpec.find? (specs : List OptionSpec) (arg : String) : Option (OptionSpec × Option String) :=
  match arg.toList with
  | '-' :: '-' :: rest =>
    let name := String.ofList (rest.takeWhile (· != '='))
    let value := (rest.dropWhile (· != '=')).tail?.map String.ofList
    (specs.find? (·.long == name)).map (·, value)
  | '-' :: letter :: rest =>
    let value := if rest.isEmpty then none else some (String.ofList rest)
    (specs.find? (·.short == some letter)).map (·, value)
  | _ => none

/-- Read arguments after those already read. An argument that names no option is the file. -/
def Arguments.readOnto (specs : List OptionSpec) (done : Arguments) : List String → Arguments
  | [] => done
  | arg :: rest =>
    match OptionSpec.find? specs arg with
    | none => readOnto specs { done with file := some arg } rest
    | some (spec, inside) =>
      if spec.takesValue then
        match inside, rest with
        | some value, rest => readOnto specs (done.add spec.long value) rest
        | none, value :: rest => readOnto specs (done.add spec.long value) rest
        | none, [] => done
      else readOnto specs (done.add spec.long "") rest

def Arguments.read (specs : List OptionSpec) (args : List String) : Arguments :=
  Arguments.readOnto specs {} args

end StackToolchain
