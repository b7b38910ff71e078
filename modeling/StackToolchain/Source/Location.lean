import StackToolchain.Text.Basic

/-! The line and column of a byte offset. -/
namespace StackToolchain.Source

structure Location where
  line : Nat
  column : Nat
  excerpt : List Char
  deriving DecidableEq, Repr

/-- Cut a text before the character that reaches past a number of bytes. What comes before the cut is held in
reverse. -/
def cutAtByte (done : List Char) (bytes : Nat) : List Char → List Char × List Char
  | [] => (done, [])
  | c :: rest =>
    if c.utf8Size ≤ bytes then cutAtByte (c :: done) (bytes - c.utf8Size) rest else (done, c :: rest)

/-- The place of a byte offset. An offset inside a character counts as the character's own, and one past the end
as the end. -/
def locate (source : List Char) (offset : Nat) : Location :=
  let (before, after) := cutAtByte [] offset source
  let start := before.takeWhile (· != '\n')
  { line := before.count '\n'
    column := start.length
    excerpt := start.reverse ++ after.takeWhile (· != '\n') }

end StackToolchain.Source
