import TaintFlow.Yaml.Scalar

/-!
# YAML tags, anchors and directives

A tag is a handle with a suffix: `!!int` has the handle `!!`, `!e!int` the handle `!e!`, `!int` the
handle `!`, and the verbatim `!<int>` has none. Handles stand for the texts that `%TAG` directives
give them. The readers here take a cursor at the first character of what they read.
-/

namespace TaintFlow.Yaml

/-! ## Resource names -/

/-- Characters of a tag's suffix. A verbatim tag and the text of a handle may have some more. -/
def isTagChar (verbatim : Bool) (c : Char) : Bool :=
  isWordChar c || ";/?:@&=+$.%!~*'()".toList.contains c ||
    (verbatim && (c == ',' || c == '[' || c == ']'))

/-- The octet at the start of a text, written as a percent sign and two hexadecimal digits. -/
def octet? : List Char → Option Nat
  | '%' :: a :: b :: _ => number? 16 [a, b]
  | _ => none

/-- How many octets a character takes whose encoding starts with `octet`, and the bits of the
character that are in this one. -/
def octetLead? (octet : Nat) : Option (Nat × Nat) :=
  if octet < 0x80 then some (1, octet)
  else if octet < 0xC0 then none
  else if octet < 0xE0 then some (2, octet - 0xC0)
  else if octet < 0xF0 then some (3, octet - 0xE0)
  else if octet < 0xF8 then some (4, octet - 0xF0)
  else none

/-- The code that continues `code` by `n` more octets. -/
def octetsFollow? : (n : Nat) → (code : Nat) → List Char → Option Nat
  | 0, code, _ => some code
  | n + 1, code, cs => do
    let octet ← octet? cs
    guard (0x80 ≤ octet ∧ octet < 0xC0)
    octetsFollow? n (code * 64 + (octet - 0x80)) (cs.drop 3)

/-- A character written as percent signs and octets, and the length of that writing. Octets that
encode no character stand for the replacement character. -/
def percentChar? (cs : List Char) : Option (Char × Nat) := do
  let octet ← octet? cs
  let (n, code) ← octetLead? octet
  let code ← octetsFollow? (n - 1) code (cs.drop 3)
  let char := (charOfCode? code).filter (·.utf8Size == n)
  return (char.getD '\ufffd', 3 * n)

/-- The longest run of tag characters. -/
def tagText? (verbatim : Bool) : (fuel : Nat) → Cursor → Option (List Char × Cursor)
  | 0, c => some ([], c)
  | fuel + 1, c =>
    match c.rest with
    | [] => some ([], c)
    | x :: xs =>
      if !isTagChar verbatim x then some ([], c)
      else do
        let (char, width) ← if x = '%' then percentChar? (x :: xs) else some (x, 1)
        let (text, c) ← tagText? verbatim fuel (c.skip width)
        return (char :: text, c)

/-! ## Tags and anchors -/

/-- A tag handle: an exclamation mark, with a word and a second mark if it has a name. The word is
taken along without the second mark, too. -/
def tagHandle? (c : Cursor) : Option (List Char × Cursor) :=
  if c.rest.head? = some '!' then
    let (word, c) := (c.skip 1).span isWordChar
    if c.rest.head? = some '!' then some ('!' :: word ++ ['!'], c.skip 1)
    else some ('!' :: word, c)
  else none

/-- Whether the text of a handle ends with a second exclamation mark. -/
def isNamedHandle (handle : List Char) : Bool :=
  1 < handle.length && handle.getLast? == some '!'

/-- The handle and suffix of a tag. A lone exclamation mark is a suffix without a handle. -/
def tag? (c : Cursor) : Option (String × String × Cursor) := do
  let fuel := c.rest.length
  match c.rest with
  | '!' :: '<' :: _ =>
    let (suffix, c) ← tagText? true fuel (c.skip 2)
    guard (!suffix.isEmpty ∧ c.rest.head? = some '>')
    return ("", String.ofList suffix, c.skip 1)
  | _ =>
    let (handle, c) ← tagHandle? c
    let (suffix, c) ← tagText? false fuel c
    if isNamedHandle handle then
      guard (!suffix.isEmpty)
      return (String.ofList handle, String.ofList suffix, c)
    else
      let suffix := handle.drop 1 ++ suffix
      return if suffix.isEmpty then ("", "!", c) else ("!", String.ofList suffix, c)

/-- The name of an anchor or alias behind its indicator. -/
def anchorName? (c : Cursor) : Option (String × Cursor) :=
  let (name, c) := c.span isWordChar
  if !name.isEmpty && (atSpace c.rest || c.rest.head?.any ("?:,]\x7d%@`".toList.contains ·)) then
    some (String.ofList name, c)
  else none

/-! ## Directives -/

/-- What a directive says: the version of the notation, or the text that a tag handle stands for. -/
inductive Directive where
  | version (major minor : Nat)
  | handle (name text : String)
deriving DecidableEq, Repr

namespace Directive

/-- The versions that can be read. -/
def isSupported : Directive → Bool
  | version major minor => major == 1 && (minor == 1 || minor == 2)
  | handle _ _ => true

/-- A version number has nine digits at most. -/
def versionNumber? (c : Cursor) : Option (Nat × Cursor) :=
  let (digits, c) := c.span Char.isDigit
  if digits.length ≤ 9 then (number? 10 digits).map (·, c) else none

def version? (c : Cursor) : Option (Directive × Cursor) := do
  let (major, c) ← versionNumber? (c.skipWhile isBlank)
  guard (c.rest.head? = some '.')
  let (minor, c) ← versionNumber? (c.skip 1)
  return (.version major minor, c)

def handle? (c : Cursor) : Option (Directive × Cursor) := do
  let (name, c) ← tagHandle? (c.skipWhile isBlank)
  guard (name = ['!'] ∨ isNamedHandle name)
  guard (c.rest.head?.any isBlank)
  let c := c.skipWhile isBlank
  let (text, c) ← tagText? true c.rest.length c
  guard (!text.isEmpty ∧ atSpace c.rest)
  return (.handle (String.ofList name) (String.ofList text), c)

/-- A directive behind its percent sign, with the rest of its line. -/
def read? (c : Cursor) : Option (Directive × Cursor) := do
  let (name, c) := c.span isWordChar
  guard (atSpace c.rest)
  let (directive, c) ←
    if name = "YAML".toList then version? c
    else if name = "TAG".toList then handle? c
    else none
  let c ← c.lineEnd?
  return (directive, c.skip 1)

end Directive

end TaintFlow.Yaml
