import StackToolchain.Text.Basic

/-! Comments of a source: `//` to the end of the line, and `/*` to `*/`, which nest.
Comments are blanked in place: every character but a newline becomes as many spaces as it has bytes, so that
offsets into the result are offsets into the source. -/
namespace StackToolchain.Source

/-- Why comments were refused, with the offset of the mark at fault. -/
inductive CommentError where
  | unopened (offset : Nat)
  /-- the outermost `/*` that is never closed -/
  | unterminated (offset : Nat)
  deriving DecidableEq, Repr

def CommentError.message : CommentError → String
  | .unopened _ => "closed unopened multiline comment"
  | .unterminated _ => "unterminated multiline comment"

def CommentError.offset : CommentError → Nat
  | .unopened offset => offset
  | .unterminated offset => offset

inductive Region where
  | code
  | line
  /-- a comment opened at an offset, with a number of comments open inside it -/
  | block (opened : Nat) (depth : Nat)
  deriving DecidableEq, Repr

def Region.afterNewline : Region → Region
  | .line => .code
  | region => region

def blankOf (c : Char) : List Char :=
  List.replicate c.utf8Size ' '

/-- Blank the comments of a text that begins at an offset in a region, after text held in reverse. -/
def blankFrom (region : Region) (offset : Nat) (done : List Char) :
    List Char → Except CommentError (List Char)
  | [] =>
    match region with
    | .block opened _ => .error (.unterminated opened)
    | _ => .ok done.reverse
  | c :: rest =>
    if c = '\n' then blankFrom region.afterNewline (offset + 1) ('\n' :: done) rest
    else
      match region with
      | .line => blankFrom .line (offset + c.utf8Size) (blankOf c ++ done) rest
      | .code =>
        match c, rest with
        | '/', '/' :: rest => blankFrom .line (offset + 2) (' ' :: ' ' :: done) rest
        | '/', '*' :: rest => blankFrom (.block offset 0) (offset + 2) (' ' :: ' ' :: done) rest
        | '*', '/' :: _ => .error (.unopened offset)
        | c, rest => blankFrom .code (offset + c.utf8Size) (c :: done) rest
      | .block opened depth =>
        match c, rest with
        | '/', '*' :: rest => blankFrom (.block opened (depth + 1)) (offset + 2) (' ' :: ' ' :: done) rest
        | '*', '/' :: rest =>
          let region :=
            match depth with
            | 0 => .code
            | depth + 1 => .block opened depth
          blankFrom region (offset + 2) (' ' :: ' ' :: done) rest
        | c, rest => blankFrom (.block opened depth) (offset + c.utf8Size) (blankOf c ++ done) rest

def blankComments (source : List Char) : Except CommentError (List Char) :=
  blankFrom .code 0 [] source

end StackToolchain.Source
