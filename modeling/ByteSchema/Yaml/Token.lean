import ByteSchema.Encoding.Basic
import ByteSchema.Yaml.Problem

/-!
# ByteSchema.Yaml.Token

Tokens of a YAML text. Most tokens follow from the next character; what is particular to YAML is
that a mapping key is recognised only by the `:` behind it. The lexer therefore remembers, for each
level of flow collections, where a key could have begun, and puts the key token (and in block
context the start of the mapping) there once the `:` is found. Tokens are handed out only when no
such token can be put before them any more.

The end of the text reads as the character NUL, which cannot occur in it. All signs of the text are
characters; only an escape in a quoted scalar can give a surrogate.
-/

namespace ByteSchema.Yaml

/-- The kinds of tokens. -/
inductive TokenKind where
  | streamStart
  | streamEnd
  /-- `%YAML` with its version. -/
  | yamlDirective (major minor : Nat)
  /-- `%TAG` with a handle and what it stands for. -/
  | tagDirective (handle lead : String)
  /-- Any other directive. -/
  | otherDirective
  | documentStart
  | documentEnd
  | blockSequenceStart
  | blockMappingStart
  | blockEnd
  | flowSequenceStart
  | flowMappingStart
  | flowSequenceEnd
  | flowMappingEnd
  | key
  | value
  | blockEntry
  | flowEntry
  | reference (name : String)
  | anchor (name : String)
  /-- A tag, with its handle unless it is given in full. -/
  | tag (handle : Option String) (suffix : String)
  /-- The text of a scalar, and whether it stands without quotes and indicators. -/
  | scalar (text : String) (plain : Bool)
  deriving DecidableEq, Repr, Inhabited

/-- The name of a kind of token in problems. -/
def TokenKind.name : TokenKind → String
  | streamStart => "<stream start>"
  | streamEnd => "<stream end>"
  | yamlDirective .. | tagDirective .. | otherDirective => "<directive>"
  | documentStart => "<document start>"
  | documentEnd => "<document end>"
  | blockSequenceStart => "<block sequence start>"
  | blockMappingStart => "<block mapping start>"
  | blockEnd => "<block end>"
  | flowSequenceStart => "["
  | flowMappingStart => "\x7b"
  | flowSequenceEnd => "]"
  | flowMappingEnd => "\x7d"
  | key => "?"
  | value => ":"
  | blockEntry => "-"
  | flowEntry => ","
  | reference _ => "<alias>"
  | anchor _ => "<anchor>"
  | tag .. => "<tag>"
  | scalar .. => "<scalar>"

/-- A token with its two ends. -/
structure Token where
  kind : TokenKind
  start : Mark
  stop : Mark
  deriving Repr, Inhabited

/-- A place where a key could have begun. -/
structure PossibleKey where
  /-- The number of the token that would come behind the key token. -/
  token : Nat
  /-- Must the `:` follow, because the place is at the indentation of a block mapping? -/
  required : Bool
  mark : Mark
  deriving Repr, Inhabited

/-- A lexer in the middle of its text. -/
structure Lexer where
  /-- The characters still to be read. -/
  rest : List Char
  /-- The length of the whole text, which bounds every loop over it. -/
  size : Nat := rest.length
  /-- The current position. -/
  mark : Mark := {}
  /-- How many flow collections are open. -/
  flow : Nat := 0
  /-- Tokens that are recognised and not yet handed out. -/
  queue : List Token := []
  /-- How many tokens were handed out. -/
  taken : Nat := 0
  /-- The column of the innermost block collection, `-1` outside. -/
  indent : Int := -1
  /-- The columns of the block collections around it. -/
  outer : List Int := []
  /-- Can a key begin here? -/
  keyAllowed : Bool := true
  /-- Where keys could have begun, by the level of flow collections. -/
  possibleKeys : List (Nat × PossibleKey) := []
  /-- Is the end of the stream reached? -/
  done : Bool := false
  deriving Inhabited

/-- Reading in the state of a lexer. -/
abbrev Lex := StateT Lexer (Except Rejection)

namespace Lex

/-- Fail with a problem at the current position. -/
def fail {α : Type} (context : Option (String × Option Mark)) (found : String) : Lex α := do
  let s ← get
  throw (.problem { context, found, mark := some s.mark })

/-- The character `n` places ahead. -/
def peekAt (n : Nat) : Lex Char := return (← get).rest.getD n '\x00'

/-- The next character. -/
def peek : Lex Char := return (← get).rest.headD '\x00'

/-- The current position. -/
def here : Lex Mark := return (← get).mark

/-- Step over one character. A byte order mark takes no column. -/
def stepOver (c : Char) (next : Option Char) (m : Mark) : Mark :=
  if (isBreak c && c != '\r') || (c == '\r' && next != some '\n') then
    { index := m.index + 1, line := m.line + 1, column := 0 }
  else if c == '\uFEFF' then { m with index := m.index + 1 }
  else { m with index := m.index + 1, column := m.column + 1 }

/-- The position and the rest behind `n` characters. -/
def advanced : Nat → Mark → List Char → Mark × List Char
  | 0, m, cs => (m, cs)
  | _, m, [] => (m, [])
  | n + 1, m, c :: rest => advanced n (stepOver c rest.head? m) rest

/-- Go on behind `n` characters. -/
def advance (n : Nat) : Lex Unit := modify fun s =>
  let (mark, rest) := advanced n s.mark s.rest
  { s with mark, rest }

/-- Read the characters up to the first that does not satisfy `p`. -/
def takeWhile (p : Char → Bool) : Lex (List Char) := do
  let cs := (← get).rest.takeWhile p
  advance cs.length
  return cs

/-- Does the character end the text or a line? -/
def isEnd (c : Char) : Bool := c == '\x00' || isBreak c

/-- Is the character a space, or the end of the text or of a line? -/
def isSpaceOrEnd (c : Char) : Bool := c == ' ' || isEnd c

/-- Is the character a space or a tab, or the end of the text or of a line? -/
def isGap (c : Char) : Bool := c == '\t' || isSpaceOrEnd c

/-- Read a line break, if there is one; every kind but two becomes a line feed. -/
def lineBreak : Lex (List Char) := do
  match (← get).rest with
  | '\r' :: '\n' :: _ =>
    advance 2
    return ['\n']
  | c :: _ =>
    if c == '\r' || c == '\n' || c == '\x85' then
      advance 1
      return ['\n']
    else if c == '\u2028' || c == '\u2029' then
      advance 1
      return [c]
    else return []
  | [] => return []

/-- A bound for loops that read a character each round. -/
def rounds : Lex Nat := return (← get).size + 1

/-- Is a document marker, `---` or `...`, next? -/
def atDocumentMarker (marker : List Char) : Lex Bool := do
  let s ← get
  return marker.isPrefixOf s.rest && isGap (s.rest.getD 3 '\x00')

/-- Is either document marker next? -/
def atAnyMarker : Lex Bool := do
  return (← atDocumentMarker ['-', '-', '-']) || (← atDocumentMarker ['.', '.', '.'])

/-! ## Possible keys and indentation -/

/-- Forget keys that began on an earlier line or more than 1024 characters ago. -/
def dropStaleKeys : Lex Unit := do
  let s ← get
  let isStale (k : PossibleKey) : Bool :=
    k.mark.line != s.mark.line || 1024 < s.mark.index - k.mark.index
  match s.possibleKeys.find? fun entry => isStale entry.2 && entry.2.required with
  | some (_, k) =>
    fail (some ("while scanning a simple key", some k.mark)) "could not find expected ':'"
  | none =>
    set { s with possibleKeys := s.possibleKeys.filter fun entry => !isStale entry.2 }

/-- Forget the key of the current level. -/
def dropKey : Lex Unit := do
  let s ← get
  match s.possibleKeys.lookup s.flow with
  | none => return
  | some k =>
    if k.required then
      fail (some ("while scanning a simple key", some k.mark)) "could not find expected ':'"
    else set { s with possibleKeys := s.possibleKeys.filter fun entry => entry.1 != s.flow }

/-- Remember that a key could begin here. -/
def noteKey : Lex Unit := do
  let s ← get
  if s.keyAllowed then
    dropKey
    let required := s.flow == 0 && s.indent == s.mark.column
    modify fun t => { t with
      possibleKeys := t.possibleKeys ++
        [(s.flow, { token := s.taken + s.queue.length, required, mark := s.mark })] }

/-- Add a token. -/
def push (kind : TokenKind) (start : Mark) : Lex Unit :=
  modify fun s => { s with queue := s.queue ++ [{ kind, start, stop := s.mark }] }

/-- Close the block collections that are indented further than `column`. -/
def unwind (column : Int) : Lex Unit := modify fun s =>
  if s.flow != 0 then s
  else
    let rec close (indent : Int) (ends : List Token) : List Int → Int × List Int × List Token
      | [] => (indent, [], ends)
      | i :: more =>
          if column < indent then
            close i (ends ++ [{ kind := .blockEnd, start := s.mark, stop := s.mark }]) more
          else (indent, i :: more, ends)
    let (indent, outer, ends) := close s.indent [] s.outer
    { s with indent, outer, queue := s.queue ++ ends }

/-- Open a block collection at `column`, if that is further in than the current one. -/
def addIndent (column : Int) : Lex Bool := do
  let s ← get
  if s.indent < column then
    set { s with indent := column, outer := s.indent :: s.outer }
    return true
  else return false

/-- Allow or forbid a key to begin here. -/
def allowKey (allowed : Bool) : Lex Unit := modify fun s => { s with keyAllowed := allowed }

/-! ## Blanks and directives -/

/-- Skip spaces, comments and line breaks. In block context a key can begin on a new line. -/
def skipToToken : Nat → Lex Unit
  | 0 => return
  | n + 1 => do
    let _ ← takeWhile (· == ' ')
    if (← peek) == '#' then
      let _ ← takeWhile fun c => !isEnd c
    if (← lineBreak).isEmpty then return
    else
      if (← get).flow == 0 then allowKey true
      skipToToken n

/-- Is `c` a letter, a digit, `-` or `_`? -/
def isNameSign (c : Char) : Bool := c.isAlphanum || c == '-' || c == '_'

/-- Skip the rest of a line that may hold a comment only. -/
def skipLine (context : String) (start : Mark) : Lex Unit := do
  let _ ← takeWhile (· == ' ')
  if (← peek) == '#' then
    let _ ← takeWhile fun c => !isEnd c
  let c ← peek
  if isEnd c then
    let _ ← lineBreak
  else
    fail (some (context, some start))
      ("expected a comment or a line break, but found " ++ quoteChar c)

/-- A number of a version. -/
def versionNumber (start : Mark) : Lex Nat := do
  let c ← peek
  if !c.isDigit then
    fail (some ("while scanning a directive", some start))
      ("expected a digit, but found " ++ quoteChar c)
  let ds ← takeWhile Char.isDigit
  return ds.foldl (fun n d => n * 10 + (d.toNat - '0'.toNat)) 0

/-- Two hexadecimal digits behind each `%`, as many as follow each other. -/
def uriEscapes (context : String) (start : Mark) : Nat → Lex (List UInt8)
  | 0 => return []
  | n + 1 => do
    if (← peek) != '%' then return []
    advance 1
    for k in [0, 1] do
      let c ← peekAt k
      if !(c.isDigit || ('a' ≤ c && c ≤ 'f') || ('A' ≤ c && c ≤ 'F')) then
        fail (some ("while scanning a " ++ context, some start))
          ("expected URI escape sequence of 2 hexadecimal numbers, but found " ++ quoteChar c)
    let value (c : Char) : Nat :=
      if c.isDigit then c.toNat - '0'.toNat else c.toLower.toNat - 'a'.toNat + 10
    let a ← peekAt 0
    let b ← peekAt 1
    advance 2
    return UInt8.ofNat (value a * 16 + value b) :: (← uriEscapes context start n)

/-- Is `c` a character of a URI? -/
def isUriSign (c : Char) : Bool :=
  c.isAlphanum || "-;/?:@&=+$,_.!~*'()[]%".toList.contains c

/-- The parts of a URI: runs of characters, and escaped bytes. -/
def uriParts (context : String) (start : Mark) : Nat → Lex (List Char)
  | 0 => return []
  | n + 1 => do
    let c ← peek
    if c == '%' then
      let mark ← here
      let bytes ← uriEscapes context start (← rounds)
      match Encoding.utf8Text bytes with
      | .ok text => return text.toList ++ (← uriParts context start n)
      | .error words =>
        throw (.problem
          { context := some ("while scanning a " ++ context, some start), found := words, mark })
    else if isUriSign c then
      let run ← takeWhile fun c => isUriSign c && c != '%'
      return run ++ (← uriParts context start n)
    else return []

/-- A URI, not empty. -/
def uri (context : String) (start : Mark) : Lex String := do
  let c ← peek
  if !isUriSign c then
    fail (some ("while parsing a " ++ context, some start))
      ("expected URI, but found " ++ quoteChar c)
  return Text.ofChars (← uriParts context start (← rounds))

/-- A tag handle: `!`, `!!` or `!name!`. -/
def tagHandle (context : String) (start : Mark) : Lex String := do
  let words := some ("while scanning a " ++ context, some start)
  let c ← peek
  if c != '!' then fail words ("expected '!', but found " ++ quoteChar c)
  if (← peekAt 1) == ' ' then
    advance 1
    return "!"
  let name := ((← get).rest.drop 1).takeWhile isNameSign
  let c ← peekAt (name.length + 1)
  if c != '!' then
    advance (name.length + 1)
    fail words ("expected '!', but found " ++ quoteChar c)
  advance (name.length + 2)
  return String.ofList ('!' :: name ++ ['!'])

/-- A directive. -/
def directive : Lex Unit := do
  let start ← here
  let words := some ("while scanning a directive", some start)
  advance 1
  let name := (← get).rest.takeWhile isNameSign
  if name.isEmpty then
    fail words ("expected alphabetic or numeric character, but found " ++ quoteChar (← peek))
  advance name.length
  if !isSpaceOrEnd (← peek) then
    fail words ("expected alphabetic or numeric character, but found " ++ quoteChar (← peek))
  let kind ←
    if name == ['Y', 'A', 'M', 'L'] then do
      let _ ← takeWhile (· == ' ')
      let major ← versionNumber start
      if (← peek) != '.' then
        fail words ("expected a digit or '.', but found " ++ quoteChar (← peek))
      advance 1
      let minor ← versionNumber start
      if !isSpaceOrEnd (← peek) then
        fail words ("expected a digit or ' ', but found " ++ quoteChar (← peek))
      pure (.yamlDirective major minor)
    else if name == ['T', 'A', 'G'] then do
      let _ ← takeWhile (· == ' ')
      let handle ← tagHandle "directive" start
      if (← peek) != ' ' then
        fail words ("expected ' ', but found " ++ quoteChar (← peek))
      let _ ← takeWhile (· == ' ')
      let lead ← uri "directive" start
      if !isSpaceOrEnd (← peek) then
        fail words ("expected ' ', but found " ++ quoteChar (← peek))
      pure (.tagDirective handle lead)
    else do
      let _ ← takeWhile fun c => !isEnd c
      pure .otherDirective
  let stop ← here
  skipLine "while scanning a directive" start
  modify fun s => { s with queue := s.queue ++ [{ kind, start, stop }] }

/-! ## Anchors and tags -/

/-- The name behind `&` or `*`. -/
def anchorName (what : String) : Lex String := do
  let start ← here
  let words := some ("while scanning an " ++ what, some start)
  advance 1
  let name := (← get).rest.takeWhile isNameSign
  if name.isEmpty then
    fail words ("expected alphabetic or numeric character, but found " ++ quoteChar (← peek))
  advance name.length
  let c ← peek
  if isGap c || "?:,]\x7d%@`".toList.contains c then return String.ofList name
  else fail words ("expected alphabetic or numeric character, but found " ++ quoteChar c)

/-- A tag. -/
def tag : Lex TokenKind := do
  let start ← here
  let c ← peekAt 1
  let kind ←
    if c == '<' then do
      advance 2
      let suffix ← uri "tag" start
      if (← peek) != '>' then
        fail (some ("while parsing a tag", some start))
          ("expected '>', but found " ++ quoteChar (← peek))
      advance 1
      pure (TokenKind.tag none suffix)
    else if isGap c then do
      advance 1
      pure (TokenKind.tag none "!")
    else do
      let word := ((← get).rest.drop 1).takeWhile fun c => !isSpaceOrEnd c
      let handle ←
        if word.contains '!' then tagHandle "tag" start
        else do
          advance 1
          pure "!"
      pure (TokenKind.tag (some handle) (← uri "tag" start))
  let c ← peek
  if isSpaceOrEnd c then return kind
  else fail (some ("while scanning a tag", some start)) ("expected ' ', but found " ++ quoteChar c)

/-! ## Scalars -/

/-- How a block scalar ends: with one line break, with none, or with all there are. -/
inductive Chomping where
  | clip
  | strip
  | keep
  deriving DecidableEq, Repr

/-- The indicators behind `|` or `>`: chomping, and the indentation if it is given. -/
def blockIndicators (start : Mark) : Lex (Chomping × Option Nat) := do
  let words := some ("while scanning a block scalar", some start)
  let chomping : Lex (Option Chomping) := do
    match ← peek with
    | '+' =>
      advance 1
      return some .keep
    | '-' =>
      advance 1
      return some .strip
    | _ => return none
  let increment : Lex (Option Nat) := do
    let c ← peek
    if !c.isDigit then return none
    if c == '0' then
      fail words "expected indentation indicator in the range 1-9, but found 0"
    advance 1
    return some (c.toNat - '0'.toNat)
  let first ← chomping
  let width ← increment
  let second ← if first.isNone && width.isSome then chomping else pure none
  let c ← peek
  if !isSpaceOrEnd c then
    fail words ("expected chomping or indentation indicators, but found " ++ quoteChar c)
  return ((first.or second).getD .clip, width)

/-- Skip blank lines in front of a block scalar; the breaks, and the deepest indentation seen. -/
def blockLead : Nat → List Char → Nat → Lex (List Char × Nat)
  | 0, breaks, deepest => return (breaks, deepest)
  | n + 1, breaks, deepest => do
    let c ← peek
    if c == ' ' then
      advance 1
      blockLead n breaks (max deepest (← here).column)
    else if isBreak c then
      let b ← lineBreak
      blockLead n (breaks ++ b) deepest
    else return (breaks, deepest)

/-- Skip spaces up to a column. -/
def skipSpacesTo (column : Nat) : Nat → Lex Unit
  | 0 => return
  | n + 1 => do
    if (← here).column < column && (← peek) == ' ' then
      advance 1
      skipSpacesTo column n

/-- Skip blank lines within a block scalar and the indentation of the next one. -/
def blockBreaks (indent : Nat) : Nat → List Char → Lex (List Char)
  | 0, breaks => return breaks
  | n + 1, breaks => do
    skipSpacesTo indent indent
    if isBreak (← peek) then
      let b ← lineBreak
      blockBreaks indent n (breaks ++ b)
    else return breaks

/-- The lines of a block scalar, with the last break and the breaks behind it. `done` holds the
pieces of the text so far, the latest first, and `breaks` the breaks in front of the next line. -/
def blockLines (folded : Bool) (indent : Nat) :
    Nat → List (List Char) → List Char → Lex (List Char × List Char × List Char)
  | 0, done, breaks => return (done.reverse.flatten, [], breaks)
  | n + 1, done, breaks => do
    let first ← peek
    let line ← takeWhile fun c => !isEnd c
    let done := line :: breaks :: done
    let last ← lineBreak
    let breaks ← blockBreaks indent (← rounds) []
    if (← here).column == indent && (← peek) != '\x00' then
      let next ← peek
      let flush (c : Char) : Bool := c != ' ' && c != '\t'
      let join :=
        if folded && last == ['\n'] && flush first && flush next then
          (if breaks.isEmpty then [' '] else [])
        else last
      blockLines folded indent n (join :: done) breaks
    else return (done.reverse.flatten, last, breaks)

/-- A block scalar. -/
def blockScalar (folded : Bool) : Lex TokenKind := do
  let start ← here
  advance 1
  let (chomping, increment) ← blockIndicators start
  skipLine "while scanning a block scalar" start
  let least := ((← get).indent + 1).toNat.max 1
  let (breaks, indent) ←
    match increment with
    | none => do
      let (breaks, deepest) ← blockLead (← rounds) [] 0
      pure (breaks, max least deepest)
    | some n => do
      let indent := least + n - 1
      let breaks ← blockBreaks indent (← rounds) []
      pure (breaks, indent)
  let (done, last, breaks) ←
    if (← here).column == indent && (← peek) != '\x00' then
      blockLines folded indent (← rounds) [] breaks
    else pure ([], [], breaks)
  let text := done ++ (if chomping == .strip then [] else last) ++
    (if chomping == .keep then breaks else [])
  return .scalar (Text.ofChars text) false

/-- Characters with a short escape in double quotes. -/
def shortEscapes : List (Char × Char) :=
  [('0', '\x00'), ('a', '\x07'), ('b', '\x08'), ('t', '\t'), ('\t', '\t'), ('n', '\n'),
    ('v', '\x0b'), ('f', '\x0c'), ('r', '\r'), ('e', '\x1b'), (' ', ' '), ('"', '"'),
    ('\\', '\\'), ('/', '/'), ('N', '\x85'), ('_', '\xa0'), ('L', '\u2028'), ('P', '\u2029')]

/-- How many hexadecimal digits follow an escape by code. -/
def codeLength? : Char → Option Nat
  | 'x' => some 2
  | 'u' => some 4
  | 'U' => some 8
  | _ => none

/-- Line breaks within quotes, with the blanks around them. -/
def quotedBreaks (start : Mark) : Nat → List Char → Lex (List Char)
  | 0, breaks => return breaks
  | n + 1, breaks => do
    if ← atAnyMarker then
      fail (some ("while scanning a quoted scalar", some start))
        "found unexpected document separator"
    let _ ← takeWhile fun c => c == ' ' || c == '\t'
    if isBreak (← peek) then
      let b ← lineBreak
      quotedBreaks start n (breaks ++ b)
    else return breaks

/-- The value of a hexadecimal digit. -/
def hexValue (c : Char) : Nat :=
  if c.isDigit then c.toNat - '0'.toNat else c.toLower.toNat - 'a'.toNat + 10

/-- An escape in double quotes, behind the backslash. -/
def escape (start : Mark) : Lex (List Text.Sign) := do
  let words := some ("while scanning a double-quoted scalar", some start)
  let c ← peek
  match shortEscapes.lookup c with
  | some d =>
    advance 1
    return [.char d]
  | none =>
    match codeLength? c with
    | some length =>
      advance 1
      for k in List.range length do
        let d ← peekAt k
        if !(d.isDigit || ('a' ≤ d && d ≤ 'f') || ('A' ≤ d && d ≤ 'F')) then
          fail words ("expected escape sequence of " ++ toString length ++
            " hexadecimal numbers, but found " ++ quoteChar d)
      let ds := (← get).rest.take length
      advance length
      let code := ds.foldl (fun n d => n * 16 + hexValue d) 0
      if 0x110000 ≤ code then throw (.escape (.characterCode code))
      else return [.ofCode code]
    | none =>
      if isBreak c then
        let _ ← lineBreak
        return (← quotedBreaks start (← rounds) []).map .char
      else fail words ("found unknown escape character " ++ quoteChar c)

/-- Signs within quotes up to a blank or the closing quote. -/
def quotedRun (double : Bool) (start : Mark) : Nat → List Text.Sign → Lex (List Text.Sign)
  | 0, done => return done
  | n + 1, done => do
    let run ← takeWhile fun c => !isGap c && c != '\'' && c != '"' && c != '\\'
    let done := done ++ run.map .char
    let c ← peek
    if !double && c == '\'' && (← peekAt 1) == '\'' then
      advance 2
      quotedRun double start n (done ++ [.char '\''])
    else if (double && c == '\'') || (!double && (c == '"' || c == '\\')) then
      advance 1
      quotedRun double start n (done ++ [.char c])
    else if double && c == '\\' then
      advance 1
      let e ← escape start
      quotedRun double start n (done ++ e)
    else return done

/-- Blanks within quotes: kept on a line, folded around line breaks. -/
def quotedBlanks (start : Mark) : Lex (List Char) := do
  let blanks ← takeWhile fun c => c == ' ' || c == '\t'
  let c ← peek
  if c == '\x00' then
    fail (some ("while scanning a quoted scalar", some start)) "found unexpected end of stream"
  else if isBreak c then
    let b ← lineBreak
    let breaks ← quotedBreaks start (← rounds) []
    if b != ['\n'] then return b ++ breaks
    else if breaks.isEmpty then return [' ']
    else return breaks
  else return blanks

/-- The rest of a quoted scalar up to its closing quote. `done` holds the pieces so far, the latest
first. -/
def quotedRest (double : Bool) (quote : Char) (start : Mark) :
    Nat → List (List Text.Sign) → Lex (List Text.Sign)
  | 0, done => return done.reverse.flatten
  | n + 1, done => do
    if (← peek) == quote then return done.reverse.flatten
    let blanks ← quotedBlanks start
    let run ← quotedRun double start (← rounds) []
    quotedRest double quote start n (run :: blanks.map .char :: done)

/-- A quoted scalar. -/
def quotedScalar (double : Bool) : Lex TokenKind := do
  let start ← here
  let quote := if double then '"' else '\''
  advance 1
  let run ← quotedRun double start (← rounds) []
  let text ← quotedRest double quote start (← rounds) [run]
  advance 1
  return .scalar (Text.ofSigns text) false

/-- Line breaks behind a plain scalar, with the spaces around them; none at a document marker. -/
def plainBreaks : Nat → List Char → Lex (Option (List Char))
  | 0, breaks => return some breaks
  | n + 1, breaks => do
    let c ← peek
    if c == ' ' then
      advance 1
      plainBreaks n breaks
    else if isBreak c then
      let b ← lineBreak
      if ← atAnyMarker then return none
      plainBreaks n (breaks ++ b)
    else return some breaks

/-- Blanks behind a part of a plain scalar, folded; empty when the scalar ends there. -/
def plainBlanks : Lex (List Char) := do
  let spaces ← takeWhile (· == ' ')
  if isBreak (← peek) then
    let b ← lineBreak
    allowKey true
    if ← atAnyMarker then return []
    match ← plainBreaks (← rounds) [] with
    | none => return []
    | some breaks =>
      if b != ['\n'] then return b ++ breaks
      else if breaks.isEmpty then return [' ']
      else return breaks
  else return spaces

/-- The part of a plain scalar up to a blank, a `:` that ends a key, or an indicator. -/
def plainPart (inFlow : Bool) : List Char → List Char
  | [] => []
  | c :: rest =>
      let next := rest.headD '\x00'
      let ends := isGap c ||
        (c == ':' && (isGap next || (inFlow && ",[]\x7b\x7d".toList.contains next))) ||
        (inFlow && ",?[]\x7b\x7d".toList.contains c)
      if ends then [] else c :: plainPart inFlow rest

/-- The parts of a plain scalar, and where the last of them ends. `done` holds the pieces so far,
the latest first. -/
def plainParts (indent : Int) :
    Nat → List (List Char) → List Char → Mark → Lex (List Char × Mark)
  | 0, done, _, stop => return (done.reverse.flatten, stop)
  | n + 1, done, blanks, stop => do
    if (← peek) == '#' then return (done.reverse.flatten, stop)
    let s ← get
    let part := plainPart (s.flow != 0) s.rest
    if part.isEmpty then return (done.reverse.flatten, stop)
    allowKey false
    advance part.length
    let done := part :: blanks :: done
    let stop ← here
    let blanks ← plainBlanks
    let s ← get
    if blanks.isEmpty || (← peek) == '#' || (s.flow == 0 && s.mark.column < indent) then
      return (done.reverse.flatten, stop)
    else plainParts indent n done blanks stop

/-- A plain scalar. -/
def plainScalar : Lex Unit := do
  let s ← get
  let (text, stop) ← plainParts (s.indent + 1) (← rounds) [] [] s.mark
  modify fun t => { t with
    queue := t.queue ++ [{ kind := .scalar (Text.ofChars text) true, start := s.mark, stop }] }

/-! ## Tokens -/

/-- End the stream. -/
def fetchStreamEnd : Lex Unit := do
  unwind (-1)
  dropKey
  let start ← here
  push .streamEnd start
  modify fun s => { s with keyAllowed := false, possibleKeys := [], done := true }

/-- A directive line. -/
def fetchDirective : Lex Unit := do
  unwind (-1)
  dropKey
  allowKey false
  directive

/-- A document marker. -/
def fetchDocumentMarker (kind : TokenKind) : Lex Unit := do
  unwind (-1)
  dropKey
  allowKey false
  let start ← here
  advance 3
  push kind start

/-- The opening bracket of a flow collection. -/
def fetchFlowStart (kind : TokenKind) : Lex Unit := do
  noteKey
  modify fun s => { s with flow := s.flow + 1 }
  allowKey true
  let start ← here
  advance 1
  push kind start

/-- The closing bracket of a flow collection. -/
def fetchFlowEnd (kind : TokenKind) : Lex Unit := do
  dropKey
  modify fun s => { s with flow := s.flow - 1 }
  allowKey false
  let start ← here
  advance 1
  push kind start

/-- A comma in a flow collection. -/
def fetchFlowEntry : Lex Unit := do
  allowKey true
  dropKey
  let start ← here
  advance 1
  push .flowEntry start

/-- Open a block collection at the current column, when a key or an entry can begin here. -/
def openBlock (kind : TokenKind) (refusal : String) : Lex Unit := do
  let s ← get
  if s.flow == 0 then
    if !s.keyAllowed then fail none refusal
    if ← addIndent s.mark.column then push kind s.mark

/-- A `-` of a block sequence. -/
def fetchBlockEntry : Lex Unit := do
  openBlock .blockSequenceStart "sequence entries are not allowed here"
  allowKey true
  dropKey
  let start ← here
  advance 1
  push .blockEntry start

/-- A `?` in front of a key. -/
def fetchKey : Lex Unit := do
  openBlock .blockMappingStart "mapping keys are not allowed here"
  allowKey ((← get).flow == 0)
  dropKey
  let start ← here
  advance 1
  push .key start

/-- Put a token in front of the token with number `number`. -/
def insertToken (number : Nat) (kind : TokenKind) (mark : Mark) : Lex Unit := modify fun s =>
  let place := number - s.taken
  { s with
    queue := s.queue.take place ++ { kind, start := mark, stop := mark } :: s.queue.drop place }

/-- A `:` in front of a value. If a key could have begun before, it did. -/
def fetchValue : Lex Unit := do
  let s ← get
  match s.possibleKeys.lookup s.flow with
  | some k =>
    set { s with possibleKeys := s.possibleKeys.filter fun entry => entry.1 != s.flow }
    insertToken k.token .key k.mark
    if s.flow == 0 then
      if ← addIndent k.mark.column then insertToken k.token .blockMappingStart k.mark
    allowKey false
  | none =>
    openBlock .blockMappingStart "mapping values are not allowed here"
    allowKey (s.flow == 0)
    dropKey
  let start ← here
  advance 1
  push .value start

/-- A token that can begin a key and after which none can begin. -/
def fetchKeyStart (read : Lex TokenKind) : Lex Unit := do
  noteKey
  allowKey false
  let start ← here
  let kind ← read
  push kind start

/-- A block scalar. -/
def fetchBlockScalar (folded : Bool) : Lex Unit := do
  allowKey true
  dropKey
  let start ← here
  let kind ← blockScalar folded
  push kind start

/-- Can a plain scalar begin with `c`, `next` behind it? -/
def startsPlain (inFlow : Bool) (c next : Char) : Bool :=
  !(isGap c || "-?:,[]\x7b\x7d#&*!|>'\"%@`".toList.contains c) ||
    (!isGap next && (c == '-' || (!inFlow && (c == '?' || c == ':'))))

/-- Recognise the next token. -/
def fetch : Lex Unit := do
  if (← get).mark.index == 0 && (← peek) == '\uFEFF' then advance 1
  skipToToken (← rounds)
  dropStaleKeys
  unwind (← here).column
  let s ← get
  let c ← peek
  let next ← peekAt 1
  let inFlow := s.flow != 0
  let lineStart := s.mark.column == 0
  if c == '\x00' then fetchStreamEnd
  else if c == '%' && lineStart then fetchDirective
  else if lineStart && (← atDocumentMarker ['-', '-', '-']) then fetchDocumentMarker .documentStart
  else if lineStart && (← atDocumentMarker ['.', '.', '.']) then fetchDocumentMarker .documentEnd
  else if c == '[' then fetchFlowStart .flowSequenceStart
  else if c == '\x7b' then fetchFlowStart .flowMappingStart
  else if c == ']' then fetchFlowEnd .flowSequenceEnd
  else if c == '\x7d' then fetchFlowEnd .flowMappingEnd
  else if c == ',' then fetchFlowEntry
  else if c == '-' && isGap next then fetchBlockEntry
  else if c == '?' && (inFlow || isGap next) then fetchKey
  else if c == ':' && (inFlow || isGap next) then fetchValue
  else if c == '*' then fetchKeyStart (return .reference (← anchorName "alias"))
  else if c == '&' then fetchKeyStart (return .anchor (← anchorName "anchor"))
  else if c == '!' then fetchKeyStart tag
  else if c == '|' && !inFlow then fetchBlockScalar false
  else if c == '>' && !inFlow then fetchBlockScalar true
  else if c == '\'' then fetchKeyStart (quotedScalar false)
  else if c == '"' then fetchKeyStart (quotedScalar true)
  else if startsPlain inFlow c next then
    noteKey
    allowKey false
    plainScalar
  else
    fail (some ("while scanning for the next token", none))
      ("found character " ++ quoteChar c ++ " that cannot start any token")

/-- Recognise tokens until the first of the queue is settled. -/
def settle : Nat → Lex Unit
  | 0 => return
  | n + 1 => do
    if (← get).done then return
    if (← get).queue.isEmpty then
      fetch
      settle n
    else
      dropStaleKeys
      let s ← get
      if s.possibleKeys.any fun entry => entry.2.token == s.taken then
        fetch
        settle n

/-- The next token, left in the queue. -/
def peekToken : Lex Token := do
  settle (← rounds)
  match (← get).queue with
  | t :: _ => return t
  | [] =>
    let mark ← here
    return { kind := .streamEnd, start := mark, stop := mark }

/-- The next token. -/
def nextToken : Lex Token := do
  let t ← peekToken
  modify fun s => { s with queue := s.queue.tail, taken := s.taken + 1 }
  return t

end Lex

/-- A lexer at the start of a text. -/
def Lexer.ofText (text : List Char) : Lexer :=
  { rest := text, queue := [{ kind := .streamStart, start := {}, stop := {} }] }

end ByteSchema.Yaml
