import TaintFlow.Yaml.Node

/-!
# Typed YAML nodes

Readers of nodes whose type is known beforehand. Any scalar is text. Numbers, truth values and null
are plain scalars, whose spelling decides; a literal scalar counts as well if its tag names the
type. Each reader returns `none` for a node of another type.
-/

namespace TaintFlow.Yaml

/-! ## Spelling -/

/-- Text as a number up to `most`: decimal without a leading zero, or hexadecimal, octal or binary
behind `0x`, `0o` or `0b`, each with an optional plus sign. -/
def unsigned? (most : Nat) (text : String) : Option Nat := do
  let cs := match text.toList with
    | '+' :: cs => cs
    | cs => cs
  let n ← match cs with
    | '0' :: 'x' :: cs => number? 16 cs
    | '0' :: 'o' :: cs => number? 8 cs
    | '0' :: 'b' :: cs => number? 2 cs
    | '0' :: _ :: _ => none
    | cs => number? 10 cs
  guard (n ≤ most)
  return n

def truth? : String → Option Bool
  | "true" | "True" | "TRUE" => some true
  | "false" | "False" | "FALSE" => some false
  | _ => none

/-- The words for null. -/
def isNull : String → Bool
  | "~" | "null" | "Null" | "NULL" => true
  | _ => false

/-- The full text of a standard tag. -/
def standardTag (name : String) : String := "tag:yaml.org,2002:" ++ name

/-- The name in a private tag, which starts with an exclamation mark. A lone mark is its own
name. -/
def privateTag? (tag : String) : Option String :=
  match tag.toList with
  | ['!'] => some "!"
  | '!' :: name => some (String.ofList name)
  | _ => none

namespace Scalar

/-- Whether a scalar can stand for a value of the standard type `name`. -/
def mayBe (s : Scalar) (name : String) : Bool :=
  s.style == .plain || (s.style == .literal && s.tag == some (standardTag name))

/-- Whether a scalar says nothing: it is plain, and empty or a word for null. -/
def isVoid (s : Scalar) : Bool := s.style == .plain && (s.text == "" || isNull s.text)

end Scalar

/-! ## Nodes -/

namespace Node

/-- The text of a scalar, in whatever style and with whatever tag. -/
def word? : Node → Option String
  | .scalar s => some s.text
  | _ => none

def count? (most : Nat) : Node → Option Nat
  | .scalar s => if s.mayBe "int" then unsigned? most s.text else none
  | _ => none

def flag? : Node → Option Bool
  | .scalar s => if s.mayBe "bool" then truth? s.text else none
  | _ => none

/-- One of several named values. A scalar names it by its text, or by a private tag if it says
nothing else. -/
def choice? {α : Type} (ofName? : String → Option α) : Node → Option α
  | .scalar s =>
    match s.tag >>= privateTag? with
    | some name => if s.isVoid then ofName? name else none
    | none => ofName? s.text
  | _ => none

/-- A node that may be left out or null. A plain scalar with the null tag must be a word for null,
and one with any other tag is not null. -/
def optional? {α : Type} (read : Node → Option α) : Option Node → Option (Option α)
  | none => some none
  | some (.scalar s) =>
    if s.style = .plain ∧ s.tag = some (standardTag "null") then
      if isNull s.text then some none else none
    else if s.tag.isNone ∧ s.isVoid then some none
    else (read (.scalar s)).map some
  | some node => (read node).map some

end Node

namespace Document

/-- The entries of a mapping, with references followed. An empty plain scalar is a mapping without
entries. -/
def entries? (d : Document) : Node → Option (List (String × Node))
  | .mapping entries => entries.mapM fun (key, value) => do
    return (← d.follow? key >>= Node.word?, ← d.follow? value)
  | .scalar s => if s.style = .plain ∧ s.text = "" then some [] else none
  | .reference _ => none

/-- The fields of a mapping that has no key twice and no key outside `known`. -/
def fields? (d : Document) (known : List String) (node : Node) : Option (String → Option Node) := do
  let entries ← d.entries? node
  let keys := entries.map (·.1)
  guard (keys.Nodup ∧ ∀ k ∈ keys, k ∈ known)
  return fun k => entries.lookup k

end Document

end TaintFlow.Yaml
