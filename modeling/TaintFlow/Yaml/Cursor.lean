/-!
# Reading positions in a YAML text

YAML gives meaning to columns and lines, so a reader carries them along: a `Cursor` is the text that
is still to be read together with its `Mark`, the place where it starts.

Line feeds, carriage returns, pairs of the two and next-line characters all end a line in the same
way. `unify` replaces them by line feeds beforehand, which leaves three breaks: the line feed, and
the line and paragraph separators, which keep their identity inside scalars.
-/

namespace TaintFlow.Yaml

/-! ## Characters -/

def isBlank (c : Char) : Bool := c == ' ' || c == '\t'

def isBreak (c : Char) : Bool := c == '\n' || c == '\u2028' || c == '\u2029'

def isSpace (c : Char) : Bool := isBlank c || isBreak c

/-- Characters of anchors, tag handles and directive names. -/
def isWordChar (c : Char) : Bool := c.isAlphanum || c == '_' || c == '-'

/-- Punctuation that ends an unquoted scalar inside braces. -/
def isFlowMark (c : Char) : Bool :=
  c == ',' || c == '[' || c == ']' || c == '{' || c == '}'

def byteOrderMark : Char := '\ufeff'

/-- Characters that a text may contain. -/
def isAllowed (c : Char) : Bool :=
  let n := c.toNat
  n == 0x09 || n == 0x0A || n == 0x0D || (0x20 ≤ n && n ≤ 0x7E) || n == 0x85 ||
    (0xA0 ≤ n && n ≤ 0xD7FF) || (0xE000 ≤ n && n ≤ 0xFFFD) || 0x10000 ≤ n

def hexValue? (c : Char) : Option Nat :=
  if c.isDigit then some (c.toNat - '0'.toNat)
  else if 'a' ≤ c ∧ c ≤ 'f' then some (c.toNat - 'a'.toNat + 10)
  else if 'A' ≤ c ∧ c ≤ 'F' then some (c.toNat - 'A'.toNat + 10)
  else none

/-- The value of a digit string behind `value`. -/
def digits? (radix : Nat) : (value : Nat) → List Char → Option Nat
  | value, [] => some value
  | value, c :: cs => do
    let d ← hexValue? c
    guard (d < radix)
    digits? radix (value * radix + d) cs

/-- The value of a non-empty digit string. -/
def number? (radix : Nat) (cs : List Char) : Option Nat :=
  if cs.isEmpty then none else digits? radix 0 cs

/-- Every line break other than a separator becomes a line feed. -/
def unify : List Char → List Char
  | [] => []
  | '\r' :: '\n' :: cs => '\n' :: unify cs
  | c :: cs => (if c = '\r' ∨ c = '\x85' then '\n' else c) :: unify cs

/-- Whether the text is at a blank, a line break or its end. -/
def atSpace : List Char → Bool
  | [] => true
  | c :: _ => isSpace c

/-- Whether the text is at a line break or its end. -/
def atLineEnd : List Char → Bool
  | [] => true
  | c :: _ => isBreak c

/-- Whether the text starts with the letters of a document marker. -/
def atMarker : List Char → Bool
  | '-' :: '-' :: '-' :: cs => atSpace cs
  | '.' :: '.' :: '.' :: cs => atSpace cs
  | _ => false

/-! ## Cursors -/

/-- A place in a text: characters before it, line breaks before it, characters before it on its
line. -/
structure Mark where
  index : Nat := 0
  line : Nat := 0
  column : Nat := 0
deriving DecidableEq, Repr

/-- The place behind a character. -/
def Mark.after (m : Mark) (c : Char) : Mark :=
  if isBreak c then ⟨m.index + 1, m.line + 1, 0⟩ else ⟨m.index + 1, m.line, m.column + 1⟩

structure Cursor where
  rest : List Char
  mark : Mark := {}
deriving DecidableEq, Repr

namespace Cursor

def column (c : Cursor) : Nat := c.mark.column

/-- Whether a document marker stands here, which it can only at the start of a line. -/
def isAtMarker (c : Cursor) : Bool := c.column == 0 && atMarker c.rest

/-- Move past `n` characters. -/
def skip : (n : Nat) → Cursor → Cursor
  | 0, c => c
  | _ + 1, ⟨[], m⟩ => ⟨[], m⟩
  | n + 1, ⟨x :: xs, m⟩ => skip n ⟨xs, m.after x⟩

/-- The longest run of characters with a property, and the cursor behind it. -/
def span (p : Char → Bool) (c : Cursor) : List Char × Cursor :=
  let run := c.rest.takeWhile p
  (run, c.skip run.length)

/-- Move past a run of characters with a property. -/
def skipWhile (p : Char → Bool) (c : Cursor) : Cursor := (c.span p).2

/-- Move past blanks and a comment to the end of the line. -/
def lineEnd? (c : Cursor) : Option Cursor :=
  let c := c.skipWhile isBlank
  let c := if c.rest.head? = some '#' then c.skipWhile (!isBreak ·) else c
  if atLineEnd c.rest then some c else none

end Cursor

end TaintFlow.Yaml
