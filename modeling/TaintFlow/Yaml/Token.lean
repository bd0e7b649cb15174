import TaintFlow.Yaml.Tag

/-!
# YAML tokens

`Token.ofText?` cuts a text into tokens. Inside braces the tokens follow the punctuation; outside,
the structure is in the columns, and the reader adds the tokens `blockStart` and `blockEnd`
where a block mapping begins and ends.

A mapping key is known by the colon behind it, which comes too late to announce the key. So wherever
a key may stand the reader keeps a `Candidate`, the place in the token list where `key` has to go if
a colon turns up. The colon must be on the same line and within 1024 characters. A candidate at the
column of the current block is `required`: nothing but a key can stand there.

Only mappings are covered. A text with a sequence has no tokens.
-/

namespace TaintFlow.Yaml

inductive Token where
  | directive (directive : Directive)
  | documentStart
  | documentEnd
  | blockStart
  | blockEnd
  | leftBrace
  | rightBrace
  | comma
  | key
  | value
  | anchor (name : String)
  | reference (name : String)
  | tag (handle suffix : String)
  | scalar (text : String) (style : Style)
deriving DecidableEq, Repr

/-- A place where a key may have started. -/
structure Candidate where
  /-- How many tokens stand before the key. -/
  position : Nat
  mark : Mark
  required : Bool
deriving DecidableEq, Repr

/-- How far behind the start of a key its colon may be. -/
def maxKeyLength : Nat := 1024

/-- Whether a reader at mark `m` is too far on for a colon to make the candidate a key. -/
def Candidate.isStale (k : Candidate) (m : Mark) : Bool :=
  k.mark.line < m.line || k.mark.index + maxKeyLength < m.index

/-- The state of the reader. -/
structure Lexer where
  cursor : Cursor
  tokens : List Token := []
  /-- The least column of what belongs inside the current block mapping; zero outside any. -/
  least : Nat := 0
  /-- The same for the enclosing blocks, innermost first. -/
  outer : List Nat := []
  candidate : Option Candidate := none
  /-- The candidates of the enclosing levels of braces, innermost first. -/
  suspended : List (Option Candidate) := []
  /-- Whether a key may start here. -/
  keyAllowed : Bool := true

namespace Lexer

/-- Whether the reader is inside braces. -/
def inFlow (x : Lexer) : Bool := !x.suspended.isEmpty

/-- Add a token, and go on at a cursor. -/
def emit (x : Lexer) (t : Token) (c : Cursor) : Lexer :=
  { x with tokens := x.tokens ++ [t], cursor := c }

/-! ## White space -/

/-- Skip white space and comments. Outside braces a line break allows a key, and where a key is
allowed a tab is no white space. A byte order mark may start a line. -/
def skipSpaceFrom (flow : Bool) :
    (keyAllowed comment : Bool) → List Char → Mark → Bool × Cursor
  | keyAllowed, _, [], m => (keyAllowed, ⟨[], m⟩)
  | keyAllowed, comment, c :: cs, m =>
    if isBreak c then skipSpaceFrom flow (keyAllowed || !flow) false cs (m.after c)
    else if comment || c == ' ' || (c == '\t' && (flow || !keyAllowed)) ||
        (c == byteOrderMark && m.column == 0) then
      skipSpaceFrom flow keyAllowed comment cs (m.after c)
    else if c == '#' then skipSpaceFrom flow keyAllowed true cs (m.after c)
    else (keyAllowed, ⟨c :: cs, m⟩)

def skipSpace (x : Lexer) : Lexer :=
  let (keyAllowed, c) := skipSpaceFrom x.inFlow x.keyAllowed false x.cursor.rest x.cursor.mark
  { x with cursor := c, keyAllowed := keyAllowed }

/-! ## Candidates -/

/-- Give up a candidate unless it is required. -/
def giveUp? : Option Candidate → Option Unit
  | some k => if k.required then none else some ()
  | none => some ()

/-- Give up a candidate that has become stale. -/
def refresh? (m : Mark) (k : Option Candidate) : Option (Option Candidate) :=
  if k.any (·.isStale m) then (giveUp? k).map fun _ => none else some k

def refreshAll? (x : Lexer) : Option Lexer := do
  let candidate ← refresh? x.cursor.mark x.candidate
  let suspended ← x.suspended.mapM (refresh? x.cursor.mark)
  return { x with candidate := candidate, suspended := suspended }

def dropCandidate? (x : Lexer) : Option Lexer := do
  giveUp? x.candidate
  return { x with candidate := none }

/-- A key may start here, if one is allowed. What follows on the line starts no further key. -/
def noteCandidate? (x : Lexer) : Option Lexer := do
  let x ←
    if x.keyAllowed then do
      giveUp? x.candidate
      -- only a key can stand at the column of the current block
      let required := !x.inFlow && x.least == x.cursor.column + 1
      pure { x with candidate := some ⟨x.tokens.length, x.cursor.mark, required⟩ }
    else pure x
  return { x with keyAllowed := false }

/-! ## Block structure -/

/-- Close the blocks whose content starts right of column `bound - 1`. -/
def closeFrom (bound : Nat) : (least : Nat) → (outer : List Nat) → Nat × Nat × List Nat
  | least, [] => (0, least, [])
  | least, next :: outer =>
    if bound < least then
      let (n, least, outer) := closeFrom bound next outer
      (n + 1, least, outer)
    else (0, least, next :: outer)

/-- Close the blocks that content below `bound` does not belong to. Braces hide the blocks around
them. -/
def closeBlocks (bound : Nat) (x : Lexer) : Lexer :=
  if x.inFlow then x
  else
    let (n, least, outer) := closeFrom bound x.least x.outer
    { x with tokens := x.tokens ++ List.replicate n .blockEnd, least := least, outer := outer }

/-- Open a block mapping for a key at a column, unless the current one is at that column. The tokens
go to `position`. -/
def openBlock (x : Lexer) (column position : Nat) (more : List Token) : Lexer :=
  let before := x.tokens.take position
  let behind := x.tokens.drop position
  if !x.inFlow && x.least ≤ column then
    { x with
      tokens := before ++ .blockStart :: more ++ behind
      least := column + 1
      outer := x.least :: x.outer }
  else { x with tokens := before ++ more ++ behind }

/-! ## Single tokens -/

def directive? (x : Lexer) : Option Lexer := do
  let x ← (x.closeBlocks 0).dropCandidate?
  let (directive, c) ← Directive.read? (x.cursor.skip 1)
  return { x with keyAllowed := false }.emit (.directive directive) c

def marker? (x : Lexer) : Option Lexer := do
  let x ← (x.closeBlocks 0).dropCandidate?
  let t := if x.cursor.rest.head? = some '-' then .documentStart else .documentEnd
  return { x with keyAllowed := false }.emit t (x.cursor.skip 3)

def leftBrace? (x : Lexer) : Option Lexer := do
  let x ← x.noteCandidate?
  return { x with
    -- braces have candidates of their own; the one around them waits until they close
    candidate := none
    suspended := x.candidate :: x.suspended
    keyAllowed := true }.emit .leftBrace (x.cursor.skip 1)

def rightBrace? (x : Lexer) : Option Lexer := do
  let x ← x.dropCandidate?
  match x.suspended with
  | [] => none
  | candidate :: suspended =>
    return { x with
      candidate := candidate
      suspended := suspended
      keyAllowed := false }.emit .rightBrace (x.cursor.skip 1)

def comma? (x : Lexer) : Option Lexer := do
  let x ← x.dropCandidate?
  return { x with keyAllowed := true }.emit .comma (x.cursor.skip 1)

/-- A question mark announces a key. -/
def key? (x : Lexer) : Option Lexer := do
  guard (x.inFlow || x.keyAllowed)
  let x ← (x.openBlock x.cursor.column x.tokens.length []).dropCandidate?
  return { x with keyAllowed := !x.inFlow }.emit .key (x.cursor.skip 1)

/-- A colon makes a key of the candidate. Without one it belongs to a key announced before. -/
def value? (x : Lexer) : Option Lexer :=
  match x.candidate with
  | some k =>
    -- `key` goes in front of the tokens of the key itself
    let x := x.openBlock k.mark.column k.position [.key]
    some ({ x with candidate := none, keyAllowed := false }.emit .value (x.cursor.skip 1))
  | none => do
    guard (x.inFlow || x.keyAllowed)
    let x := x.openBlock x.cursor.column x.tokens.length []
    return { x with keyAllowed := !x.inFlow }.emit .value (x.cursor.skip 1)

def anchor? (make : String → Token) (x : Lexer) : Option Lexer := do
  let x ← x.noteCandidate?
  let (name, c) ← anchorName? (x.cursor.skip 1)
  return x.emit (make name) c

/-- A tag ends at white space, or inside braces at a comma. -/
def tag? (x : Lexer) : Option Lexer := do
  let x ← x.noteCandidate?
  let (handle, suffix, c) ← Yaml.tag? x.cursor
  guard (atSpace c.rest || (x.inFlow && c.rest.head? == some ','))
  return x.emit (.tag handle suffix) c

def quoted? (quote : Char) (x : Lexer) : Option Lexer := do
  let x ← x.noteCandidate?
  let (text, c) ← Yaml.quoted? quote x.cursor.rest.length (x.cursor.skip 1)
  return x.emit (.scalar (String.ofList text) .quoted) c

def block? (style : Style) (x : Lexer) : Option Lexer := do
  let x ← x.dropCandidate?
  let (text, c) ← Yaml.block? style x.least (x.cursor.rest.length + 1) (x.cursor.skip 1)
  return { x with keyAllowed := true }.emit (.scalar (String.ofList text) style) c

def plain? (x : Lexer) : Option Lexer := do
  let x ← x.noteCandidate?
  -- a plain scalar that has come to another line has made a key possible
  let (text, c, left) ← Yaml.plain? x.inFlow x.least (x.cursor.rest.length + 1) {} x.cursor
  return { x with keyAllowed := left }.emit (.scalar (String.ofList text) .plain) c

/-- Characters that cannot start a plain scalar, whatever follows. -/
def isReserved (c : Char) : Bool := "[]#|>%@`".toList.contains c

/-- Read the token at the cursor. -/
def token? (x : Lexer) : Option Lexer :=
  if x.cursor.column == 0 && x.cursor.rest.head? == some '%' then x.directive?
  else if x.cursor.isAtMarker then x.marker?
  else
    match x.cursor.rest with
    | [] => none
    | '{' :: _ => x.leftBrace?
    | '}' :: _ => x.rightBrace?
    | ',' :: _ => x.comma?
    | '-' :: cs => if atSpace cs then none else x.plain?
    | '?' :: cs => if x.inFlow || atSpace cs then x.key? else x.plain?
    | ':' :: cs => if x.inFlow || atSpace cs then x.value? else x.plain?
    | '*' :: _ => x.anchor? .reference
    | '&' :: _ => x.anchor? .anchor
    | '!' :: _ => x.tag?
    | '\'' :: _ => x.quoted? '\''
    | '"' :: _ => x.quoted? '"'
    | c :: _ =>
      if c == '|' && !x.inFlow then x.block? .literal
      else if c == '>' && !x.inFlow then x.block? .folded
      else if isReserved c || isBlank c then none
      else x.plain?

/-! ## All tokens -/

/-- Each round reads a token, which takes at least one character. -/
def tokens? : (fuel : Nat) → Lexer → Option (List Token)
  | 0, _ => none
  | fuel + 1, x => do
    let x ← x.skipSpace.refreshAll?
    if x.cursor.rest.isEmpty then
      let x ← (x.closeBlocks 0).dropCandidate?
      return x.tokens
    else
      let x ← (x.closeBlocks (x.cursor.column + 1)).token?
      tokens? fuel x

end Lexer

/-- The tokens of a text, if it has only allowed characters and every token is complete. -/
def Token.ofText? (text : String) : Option (List Token) :=
  let cs := text.toList
  if cs.all isAllowed then
    Lexer.tokens? (cs.length + 1) { cursor := { rest := unify cs } }
  else none

end TaintFlow.Yaml
