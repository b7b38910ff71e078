import StackToolchain.Text.Basic
import StackToolchain.Text.Style

/-! Error reports with an excerpt of the text that they are about. -/
namespace StackToolchain

structure Place where
  file : String
  /-- the line, counted from zero -/
  line : Nat
  column : Option Nat
  excerpt : String
  deriving DecidableEq, Repr

/-- The file, line and column of a place, counted from one. -/
def Place.heading (p : Place) : String :=
  let line := p.file ++ ":" ++ toString (p.line + 1)
  match p.column with
  | none => line
  | some col => line ++ ":" ++ toString (col + 1)

def Place.rows (p : Place) : List String :=
  let bar := Style.blue "|"
  [ "     " ++ Style.blue "-->" ++ " " ++ Style.underline p.heading,
    "      " ++ bar,
    " " ++ Style.blue (Text.padLeft 4 ' ' (toString (p.line + 1)) ++ " |") ++ " " ++ p.excerpt,
    match p.column with
    | none => "      " ++ bar
    | some col => "      " ++ bar ++ " " ++ Style.alert (Text.repeated col ' ' ++ "^") ]

def errorRow (message : String) : String :=
  Style.alert "error" ++ ": " ++ message

def report (message : String) (place : Option Place) : String :=
  Text.unlines (errorRow message :: (place.map Place.rows).getD [])

end StackToolchain
