import StackToolchain.Yaml.Lexer
import StackToolchain.Yaml.Node

/-! Reading documents: tokens are put together to lists and mappings. A value that is left out, as after a dash or
a colon with nothing behind it, is an empty plain scalar. -/
namespace StackToolchain.Yaml

abbrev Shorthands := List (String × List UInt8)

def usualShorthands : Shorthands :=
  [("!", "!".toUTF8.toList), ("!!", "tag:yaml.org,2002:".toUTF8.toList)]

structure Reading where
  tokens : List Token
  anchors : List (String × Nat) := []

namespace Reading

def rest (r : Reading) (tokens : List Token) : Reading :=
  { r with tokens }

def isBefore (r : Reading) (tokens : List Token) : Bool :=
  r.tokens.head?.any (tokens.contains ·)

/-- The reading after an anchor. A name that is used again gets the number of names before it anew. -/
def withAnchor (r : Reading) (name : String) : Reading :=
  { r with anchors := (name, r.anchors.length) :: r.anchors.filter (·.1 ≠ name) }

end Reading

abbrev NodeRead := Node × Reading

def readUnless (stops : List Token) (read : Reading → Option NodeRead) (r : Reading) : Option NodeRead :=
  if r.isBefore stops then some (.absent, r) else read r

structure Properties where
  anchor : Option String := none
  tag : Option (String × List UInt8) := none

def readProperties : List Token → Properties × List Token
  | .anchor name :: .tag handle suffix :: rest => (⟨some name, some (handle, suffix)⟩, rest)
  | .tag handle suffix :: .anchor name :: rest => (⟨some name, some (handle, suffix)⟩, rest)
  | .anchor name :: rest => (⟨some name, none⟩, rest)
  | .tag handle suffix :: rest => (⟨none, some (handle, suffix)⟩, rest)
  | tokens => ({}, tokens)

def fullTag (shorthands : Shorthands) (tag : String × List UInt8) : Option (List UInt8) :=
  if tag.1.isEmpty then some tag.2 else do return (← shorthands.lookup tag.1) ++ tag.2

mutual

/-- Read a value. Where blocks are allowed, a list may also stand without an indent of its own. -/
def readNode (shorthands : Shorthands) (limit : Nat) (block unindented : Bool) (r : Reading) : Option NodeRead :=
  match limit with
  | 0 => none
  | limit + 1 =>
    match r.tokens with
    | .reference name :: rest => do return (.reference (← r.anchors.lookup name), r.rest rest)
    | tokens => do
      let (properties, tokens) := readProperties tokens
      let tag ←
        match properties.tag with
        | none => some none
        | some tag => (fullTag shorthands tag).map some
      match properties.anchor with
      | none => readContent shorthands limit block unindented tag tag.isSome (r.rest tokens)
      | some name => do
        -- the anchor is numbered before the value, which may refer to it
        let number := r.anchors.length
        let (node, r) ← readContent shorthands limit block unindented tag true ((r.rest tokens).withAnchor name)
        return (.anchored number node, r)

/-- Read a value after its anchor and its tag. It may be left out after either of them. -/
def readContent (shorthands : Shorthands) (limit : Nat) (block unindented : Bool) (tag : Option (List UInt8))
    (optional : Bool) (r : Reading) : Option NodeRead :=
  match limit with
  | 0 => none
  | limit + 1 =>
    match r.tokens with
    | .scalar text style :: rest => some (.scalar text style tag, r.rest rest)
    | .listOpen :: rest => readFlowList shorthands limit true [] (r.rest rest)
    | .mapOpen :: rest => readFlowMap shorthands limit true [] (r.rest rest)
    | tokens =>
      match block, unindented, tokens with
      | _, true, .item :: _ => readUnindented shorthands limit [] r
      | true, _, .blockListStart :: rest => readBlockList shorthands limit [] (r.rest rest)
      | true, _, .blockMapStart :: rest => readBlockMap shorthands limit [] (r.rest rest)
      | _, _, _ => if optional then some (.scalar "" .plain tag, r) else none

def readBlockList (shorthands : Shorthands) (limit : Nat) (done : List Node) (r : Reading) : Option NodeRead :=
  match limit with
  | 0 => none
  | limit + 1 =>
    match r.tokens with
    | .item :: rest => do
      let (node, r) ← readUnless [.item, .blockEnd] (readNode shorthands limit true false) (r.rest rest)
      readBlockList shorthands limit (node :: done) r
    | .blockEnd :: rest => some (.list done.reverse, r.rest rest)
    | _ => none

def readUnindented (shorthands : Shorthands) (limit : Nat) (done : List Node) (r : Reading) : Option NodeRead :=
  match limit with
  | 0 => none
  | limit + 1 =>
    match r.tokens with
    | .item :: rest => do
      let stops := [Token.item, .key, .value, .blockEnd]
      let (node, r) ← readUnless stops (readNode shorthands limit true false) (r.rest rest)
      readUnindented shorthands limit (node :: done) r
    | _ => some (.list done.reverse, r)

def readBlockMap (shorthands : Shorthands) (limit : Nat) (done : List (Node × Node)) (r : Reading) :
    Option NodeRead :=
  match limit with
  | 0 => none
  | limit + 1 =>
    let stops := [Token.key, .value, .blockEnd]
    match r.tokens with
    | .key :: rest => do
      let (key, r) ← readUnless stops (readNode shorthands limit true true) (r.rest rest)
      match r.tokens with
      | .value :: rest => do
        let (value, r) ← readUnless stops (readNode shorthands limit true true) (r.rest rest)
        readBlockMap shorthands limit ((key, value) :: done) r
      | _ => readBlockMap shorthands limit ((key, .absent) :: done) r
    | .blockEnd :: rest => some (.mapping done.reverse, r.rest rest)
    | _ => none

/-- Read the items of a list in brackets, after those already read. A comma stands before each but the first, and
may stand after the last. An item may be a key with a value, which makes a mapping of its own. -/
def readFlowList (shorthands : Shorthands) (limit : Nat) (first : Bool) (done : List Node) (r : Reading) :
    Option NodeRead :=
  match limit with
  | 0 => none
  | limit + 1 =>
    match first, r.tokens with
    | _, .listClose :: rest => some (.list done.reverse, r.rest rest)
    | false, .comma :: .listClose :: rest => some (.list done.reverse, r.rest rest)
    | false, .comma :: .key :: rest => readFlowPair shorthands limit done (r.rest rest)
    | true, .key :: rest => readFlowPair shorthands limit done (r.rest rest)
    | false, .comma :: rest => do
      let (node, r) ← readNode shorthands limit false false (r.rest rest)
      readFlowList shorthands limit false (node :: done) r
    | true, _ => do
      let (node, r) ← readNode shorthands limit false false r
      readFlowList shorthands limit false (node :: done) r
    | false, _ => none

/-- Read an item in brackets that is a key with a value. A key that is left out takes the token after it along. -/
def readFlowPair (shorthands : Shorthands) (limit : Nat) (done : List Node) (r : Reading) : Option NodeRead :=
  match limit with
  | 0 => none
  | limit + 1 => do
    let (key, r) ←
      if r.isBefore [.value, .comma, .listClose] then some (.absent, r.rest r.tokens.tail)
      else readNode shorthands limit false false r
    match r.tokens with
    | .value :: rest => do
      let (value, r) ← readUnless [.comma, .listClose] (readNode shorthands limit false false) (r.rest rest)
      readFlowList shorthands limit false (.mapping [(key, value)] :: done) r
    | _ => readFlowList shorthands limit false (.mapping [(key, .absent)] :: done) r

def readFlowMap (shorthands : Shorthands) (limit : Nat) (first : Bool) (done : List (Node × Node)) (r : Reading) :
    Option NodeRead :=
  match limit with
  | 0 => none
  | limit + 1 =>
    match first, r.tokens with
    | _, .mapClose :: rest => some (.mapping done.reverse, r.rest rest)
    | false, .comma :: .mapClose :: rest => some (.mapping done.reverse, r.rest rest)
    | false, .comma :: .key :: rest => readFlowEntry shorthands limit done (r.rest rest)
    | true, .key :: rest => readFlowEntry shorthands limit done (r.rest rest)
    | false, .comma :: rest => do
      let (key, r) ← readNode shorthands limit false false (r.rest rest)
      readFlowMap shorthands limit false ((key, .absent) :: done) r
    | true, _ => do
      let (key, r) ← readNode shorthands limit false false r
      readFlowMap shorthands limit false ((key, .absent) :: done) r
    | false, _ => none

def readFlowEntry (shorthands : Shorthands) (limit : Nat) (done : List (Node × Node)) (r : Reading) :
    Option NodeRead :=
  match limit with
  | 0 => none
  | limit + 1 => do
    let (key, r) ← readUnless [.value, .comma, .mapClose] (readNode shorthands limit false false) r
    match r.tokens with
    | .value :: rest => do
      let (value, r) ← readUnless [.comma, .mapClose] (readNode shorthands limit false false) (r.rest rest)
      readFlowMap shorthands limit false ((key, value) :: done) r
    | _ => readFlowMap shorthands limit false ((key, .absent) :: done) r

end

/-- Read the directives before a document, after those already read. There is one version at most, of the kinds
1.1 and 1.2, and each handle stands once. -/
def readDirectives (versioned : Bool) (own : Shorthands) : List Token → Option (Shorthands × List Token)
  | .version major minor :: rest =>
    if !versioned && major = 1 && (minor = 1 || minor = 2) then readDirectives true own rest else none
  | .shorthand handle stem :: rest =>
    if (own.lookup handle).isSome then none else readDirectives versioned ((handle, stem) :: own) rest
  | tokens => some (own, tokens)

/-- Read a value that is the last one before the end of the tokens. Of four calls within each other one takes a
token, so that the number of tokens bounds the calls. -/
def readRoot (shorthands : Shorthands) (tokens : List Token) : Option Document := do
  let (root, r) ← readNode shorthands (4 * tokens.length + 4) true false { tokens }
  if r.tokens.all (· = .documentEnd) then some (.ofRoot root) else none

/-- Read the document of tokens. Without a mark before it, it cannot have directives, and nothing at all is a
document without a value. -/
def readTokens (tokens : List Token) : Option Document :=
  match tokens with
  | [] => some (.ofRoot .absent)
  | .version .. :: _ | .shorthand .. :: _ | .documentStart :: _ => do
    let (own, tokens) ← readDirectives false [] tokens
    match tokens with
    | .documentStart :: rest =>
      if rest.all (· = .documentEnd) then some (.ofRoot .absent) else readRoot (own ++ usualShorthands) rest
    | _ => none
  | tokens => readRoot usualShorthands tokens

def readDocument (text : String) : Option Document := do
  readTokens (← lex text.toList)

end StackToolchain.Yaml
