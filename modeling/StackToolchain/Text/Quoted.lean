import StackToolchain.Text.Hidden

/-! Text between double quotes, with escapes for what would not show. -/
namespace StackToolchain.Text

/-- A character of a quoted text. Hidden characters are written by their code point in hexadecimal unless they
have a letter of their own. -/
def escapeChar (c : Char) : String :=
  if c = '"' then "\\\""
  else if c = '\\' then "\\\\"
  else if c = '\n' then "\\n"
  else if c = '\r' then "\\r"
  else if c = '\t' then "\\t"
  else if c = '\x00' then "\\0"
  else if isHidden c then "\\u\x7b" ++ String.ofList (Nat.toDigits 16 c.toNat) ++ "\x7d"
  else c.toString

def quoted (text : String) : String :=
  "\"" ++ String.join (text.toList.map escapeChar) ++ "\""

end StackToolchain.Text
