import StackToolchain.Text.Basic

/-! Numbers in text: hexadecimal printing and the reading of digit strings under a limit. -/
namespace StackToolchain.Text

def hex (width n : Nat) : String :=
  padLeft width '0' (String.ofList ((Nat.toDigits 16 n).map Char.toUpper))

/-- The value of a digit in a radix of at most 36; letters count from ten in either case. -/
def digitValue? (radix : Nat) (c : Char) : Option Nat :=
  let value :=
    if c.isDigit then c.toNat - 48
    else if c.isLower then c.toNat - 87
    else if c.isUpper then c.toNat - 55
    else radix
  if value < radix then some value else none

inductive NumeralFault where
  | invalid
  | tooLarge
  deriving DecidableEq, Repr

/-- Read digits from the left onto a value, which must stay below the limit. The first character that is no
digit or takes the value to the limit decides the fault. -/
def readOnto (radix limit : Nat) (value : Nat) : List Char → Except NumeralFault Nat
  | [] => .ok value
  | c :: rest =>
    match digitValue? radix c with
    | none => .error .invalid
    | some d =>
      if value * radix + d < limit then readOnto radix limit (value * radix + d) rest else .error .tooLarge

def readDigits (radix limit : Nat) (digits : List Char) : Except NumeralFault Nat :=
  if digits.isEmpty then .error .invalid else readOnto radix limit 0 digits

/-- The radix that a numeral announces, and the text after the announcement: sixteen after `0x`, two after
`0b`, ten otherwise. -/
def announcedRadix : List Char → Nat × List Char
  | '0' :: 'x' :: rest => (16, rest)
  | '0' :: 'b' :: rest => (2, rest)
  | text => (10, text)

def dropPlus : List Char → List Char
  | '+' :: rest => rest
  | text => text

def readNatural? (limit : Nat) (text : List Char) : Option Nat :=
  (readDigits 10 limit (dropPlus text)).toOption

/-- A 16-bit word in decimal, or in hexadecimal or binary when announced; digits may have a plus sign. -/
def readWord? (text : List Char) : Option UInt16 :=
  let (radix, digits) := announcedRadix text
  match readDigits radix 0x10000 (dropPlus digits) with
  | .ok n => some n.toUInt16
  | .error _ => none

def readSignedByte? : List Char → Option Int8
  | '-' :: rest =>
    match readDigits 10 0x81 rest with
    | .ok n => some (Int8.ofInt (-n))
    | .error _ => none
  | text =>
    match readDigits 10 0x80 (dropPlus text) with
    | .ok n => some (Int8.ofNat n)
    | .error _ => none

end StackToolchain.Text
