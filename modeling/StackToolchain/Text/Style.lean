/-! Terminal styling: escape sequences that open and close a colour or a weight around a text. -/
namespace StackToolchain.Style

def coloured (code : String) (text : String) : String :=
  "\x1b[" ++ code ++ "m" ++ text ++ "\x1b[39m"

def red : String → String := coloured "31"

def green : String → String := coloured "32"

def yellow : String → String := coloured "33"

def blue : String → String := coloured "34"

def magenta : String → String := coloured "35"

def cyan : String → String := coloured "36"

def bold (text : String) : String :=
  "\x1b[1m" ++ text ++ "\x1b[22m"

def underline (text : String) : String :=
  "\x1b[4m" ++ text ++ "\x1b[24m"

/-- Red and bold text; the colour is opened and closed before the weight. -/
def alert (text : String) : String :=
  "\x1b[31m\x1b[1m" ++ text ++ "\x1b[39m\x1b[22m"

end StackToolchain.Style
