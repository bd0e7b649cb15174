import TaintFlow.Yaml.Cursor

/-!
# YAML scalars

A scalar is text in one of four styles: plain, quoted, literal or folded. Plain and quoted scalars
may run over several lines; the white space between two of their words is a `Gap`, and `Gap.text`
says what it stands for. Literal and folded scalars are blocks of lines, set apart by indentation.

Each reader takes a cursor at the start of a scalar and returns its text with the cursor behind it.
The readers are bounded by a fuel argument that their callers set from the length of the text, since
each round consumes a character.
-/

namespace TaintFlow.Yaml

/-- How a scalar is written. -/
inductive Style where
  | plain
  | quoted
  | literal
  | folded
deriving DecidableEq, Repr

/-! ## Gaps between words -/

/-- White space between two words of a scalar: the blanks before the first line break, and the
breaks. After an escaped line break the gap is `joined`. -/
structure Gap where
  blanks : List Char := []
  breaks : List Char := []
  joined : Bool := false
deriving DecidableEq, Repr

namespace Gap

/-- Whether the gap has left the line it started on. -/
def leavesLine (g : Gap) : Bool := g.joined || !g.breaks.isEmpty

/-- Within a line the blanks count. A single line feed folds into a space, and further breaks stand
for themselves without it; a separator is never folded away. -/
def text (g : Gap) : List Char :=
  if g.joined then g.breaks
  else
    match g.breaks with
    | [] => g.blanks
    | ['\n'] => [' ']
    | '\n' :: more => more
    | breaks => breaks

/-- Extend a gap as far as white space goes. A tab must not stand in the indentation of a line, to
the left of column `least`. -/
def read? (least : Nat) : (g : Gap) → List Char → Mark → Option (Gap × Cursor)
  | g, [], m => some (g, ⟨[], m⟩)
  | g, c :: cs, m =>
    if isBreak c then read? least { g with breaks := g.breaks ++ [c] } cs (m.after c)
    else if isBlank c then
      if g.leavesLine then
        if c = '\t' ∧ m.column < least then none else read? least g cs (m.after c)
      else read? least { g with blanks := g.blanks ++ [c] } cs (m.after c)
    else some (g, ⟨c :: cs, m⟩)

end Gap

/-! ## Plain scalars -/

/-- The characters of a plain scalar up to white space or the end of the scalar. A colon ends it
before white space and is refused before punctuation inside braces. -/
def plainWord? (flow : Bool) : List Char → Option (List Char)
  | [] => some []
  | c :: cs =>
    if isSpace c then some []
    else if flow && c == ':' && cs.head?.any (fun d => isFlowMark d || d == '?') then none
    else if (c == ':' && atSpace cs) || (flow && isFlowMark c) then some []
    else (plainWord? flow cs).map (c :: ·)

/-- A plain scalar behind the gap `before`. Outside braces it goes on as long as lines are indented
to column `least`. The last part of the result says whether reading has come to another line. -/
def plain? (flow : Bool) (least : Nat) :
    (fuel : Nat) → (before : Gap) → Cursor → Option (List Char × Cursor × Bool)
  | 0, _, _ => none
  | fuel + 1, before, c =>
    if c.isAtMarker || c.rest.head? == some '#' then some ([], c, before.leavesLine)
    else do
      let word ← plainWord? flow c.rest
      if word.isEmpty then return ([], c, before.leavesLine)
      let text := before.text ++ word
      let c := c.skip word.length
      if !c.rest.head?.any isSpace then return (text, c, false)
      let (gap, c) ← Gap.read? least {} c.rest c.mark
      if !flow && c.column < least then return (text, c, gap.leavesLine)
      let (more, c, left) ← plain? flow least fuel gap c
      return (text ++ more, c, left)

/-! ## Quoted scalars -/

/-- The character that a letter behind a backslash stands for. -/
def escape? : Char → Option Char
  | '0' => some '\x00'
  | 'a' => some '\x07'
  | 'b' => some '\x08'
  | 't' => some '\t'
  | '\t' => some '\t'
  | 'n' => some '\n'
  | 'v' => some '\x0b'
  | 'f' => some '\x0c'
  | 'r' => some '\r'
  | 'e' => some '\x1b'
  | ' ' => some ' '
  | '"' => some '"'
  | '/' => some '/'
  | '\\' => some '\\'
  | 'N' => some '\x85'
  | '_' => some '\xa0'
  | 'L' => some '\u2028'
  | 'P' => some '\u2029'
  | _ => none

/-- How many hexadecimal digits follow a letter behind a backslash. -/
def escapeWidth? : Char → Option Nat
  | 'x' => some 2
  | 'u' => some 4
  | 'U' => some 8
  | _ => none

def charOfCode? (n : Nat) : Option Char :=
  if n.isValidChar then some (Char.ofNat n) else none

/-- The character named by the `width` hexadecimal digits at the start of a text. -/
def charOfDigits? (width : Nat) (cs : List Char) : Option Char :=
  let digits := cs.take width
  if digits.length = width then number? 16 digits >>= charOfCode? else none

/-- The character of an escape behind its backslash, and the length of the escape. -/
def unescape? : List Char → Option (Char × Nat)
  | [] => none
  | c :: cs =>
    match escapeWidth? c with
    | some width => (charOfDigits? width cs).map (·, width + 1)
    | none => (escape? c).map (·, 1)

/-- The gap that starts at a cursor inside quotes: white space, or in double quotes a line break
behind a backslash. -/
def quotedGap? (quote : Char) (c : Cursor) : Option (Gap × Cursor) :=
  match c.rest with
  | x :: xs =>
    if isSpace x then some ({}, c)
    else if quote == '"' && x == '\\' && xs.head?.any isBreak then
      some ({ joined := true }, c.skip 2)
    else none
  | [] => none

/-- A quoted scalar from behind its opening quote to behind the closing one. Inside single quotes a
quote is written twice; inside double quotes a backslash starts an escape or joins two lines. A
document marker must not stand inside. -/
def quoted? (quote : Char) : (fuel : Nat) → Cursor → Option (List Char × Cursor)
  | 0, _ => none
  | fuel + 1, c =>
    match quotedGap? quote c with
    | some (start, c) => do
      let (gap, c) ← Gap.read? 0 start c.rest c.mark
      guard (!c.isAtMarker)
      let (text, c) ← quoted? quote fuel c
      return (gap.text ++ text, c)
    | none =>
      match c.rest with
      | [] => none
      | x :: xs =>
        if quote == '\'' && x == '\'' && xs.head? == some '\'' then do
          let (text, c) ← quoted? quote fuel (c.skip 2)
          return ('\'' :: text, c)
        else if x == quote then some ([], c.skip 1)
        else if quote == '"' && x == '\\' then do
          let (char, width) ← unescape? xs
          let (text, c) ← quoted? quote fuel (c.skip (width + 1))
          return (char :: text, c)
        else do
          let (text, c) ← quoted? quote fuel (c.skip 1)
          return (x :: text, c)

/-! ## Block scalars -/

/-- What becomes of the line breaks at the end of a block scalar. -/
inductive Chomping where
  | strip
  | clip
  | keep
deriving DecidableEq, Repr

def Chomping.ofChar? : Char → Option Chomping
  | '-' => some .strip
  | '+' => some .keep
  | _ => none

/-- The header of a block scalar behind its indicator: how it ends, and its indentation if given,
in either order. An indentation of zero is refused. -/
def blockHeader? (c : Cursor) : Option (Chomping × Option Nat × Cursor) :=
  let chomping (c : Cursor) : Option Chomping × Cursor :=
    match c.rest.head? >>= Chomping.ofChar? with
    | some how => (some how, c.skip 1)
    | none => (none, c)
  let indentation (c : Cursor) : Option Nat × Cursor :=
    match c.rest with
    | x :: _ => if x.isDigit then (some (x.toNat - '0'.toNat), c.skip 1) else (none, c)
    | [] => (none, c)
  let (early, c) := chomping c
  let (indent, c) := indentation c
  -- the two parts of the header come in either order
  let (late, c) := if early.isNone && indent.isSome then chomping c else (none, c)
  if indent = some 0 then none
  else c.lineEnd?.map fun c => ((early.or late).getD .clip, indent, c.skip 1)

/-- Skip indentation and empty lines. Returns the line breaks, the largest indentation met and the
cursor at the first line with content. With `indent` zero any number of spaces is indentation. A tab
must not stand in it. -/
def blockBreaks? (indent : Nat) :
    (widest : Nat) → List Char → Mark → Option (List Char × Nat × Cursor)
  | widest, [], m => some ([], max widest m.column, ⟨[], m⟩)
  | widest, c :: cs, m =>
    let inside := indent == 0 || m.column < indent
    if c = ' ' ∧ inside then blockBreaks? indent widest cs (m.after c)
    else if c = '\t' ∧ inside then none
    else if isBreak c then do
      let (breaks, widest, cursor) ← blockBreaks? indent (max widest m.column) cs (m.after c)
      return (c :: breaks, widest, cursor)
    else some ([], max widest m.column, ⟨c :: cs, m⟩)

/-- How two lines of a block scalar are joined: `lead` is the break that ended the first, `more` are
the breaks of empty lines behind it. In a folded scalar a line feed between two lines that do not
start with a blank becomes a space, or nothing if empty lines follow. -/
def blockJoin (style : Style) (blank : Bool) (lead more : List Char) : List Char :=
  if style = .folded ∧ lead = ['\n'] ∧ !blank then
    if more.isEmpty then [' '] else more
  else lead ++ more

/-- The lines of a block scalar at column `indent`. `lead` and `more` are the breaks behind the
previous line, and `blank` says whether it started with a blank. -/
def blockLines? (style : Style) (chomping : Chomping) (indent : Nat) :
    (fuel : Nat) → (blank : Bool) → (lead more : List Char) → Cursor →
      Option (List Char × Cursor)
  | 0, _, _, _, _ => none
  | fuel + 1, blank, lead, more, c =>
    if c.column == indent && !c.rest.isEmpty then do
      let startsBlank := c.rest.head?.any isBlank
      let (line, c) := c.span (!isBreak ·)
      let lead' := c.rest.take 1
      let c := c.skip 1
      let (more', _, c) ← blockBreaks? indent 0 c.rest c.mark
      let (text, c) ← blockLines? style chomping indent fuel startsBlank lead' more' c
      return (blockJoin style (blank || startsBlank) lead more ++ line ++ text, c)
    else
      match chomping with
      | .strip => some ([], c)
      | .clip => some (lead, c)
      | .keep => some (lead ++ more, c)

/-- A literal or folded scalar from behind its indicator. Its lines are indented to column `least`
at least, unless the header says how far they are indented beyond the enclosing block. -/
def block? (style : Style) (least : Nat) (fuel : Nat) (c : Cursor) :
    Option (List Char × Cursor) := do
  let (chomping, given, c) ← blockHeader? c
  let indent := given.elim 0 (least - 1 + ·)
  let (more, widest, c) ← blockBreaks? indent 0 c.rest c.mark
  let indent := if indent = 0 then max widest (max least 1) else indent
  blockLines? style chomping indent fuel false [] more c

end TaintFlow.Yaml
