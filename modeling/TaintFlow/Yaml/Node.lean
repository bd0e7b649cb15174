import TaintFlow.Yaml.Token

/-!
# YAML nodes

`Document.ofText?` reads the one document of a text as a tree of mappings and scalars. Keys and
values may be left out, which is the same as an empty plain scalar.

A node may carry a tag and an anchor. Tags are kept on scalars, where they can matter. An anchor
gives the node a number, by which references find it: the count of names in use when the anchor is
met. A name that is defined again therefore takes a number that a later name takes, too, and the
number then belongs to the later node. What a reference stands for is known when the document is
complete, and `Document.follow?` looks it up.
-/

namespace TaintFlow.Yaml

structure Scalar where
  text : String
  style : Style := .plain
  tag : Option String := none
deriving DecidableEq, Repr

inductive Node where
  | scalar (s : Scalar)
  | mapping (entries : List (Node × Node))
  /-- A stand-in for the node with this number. -/
  | reference (number : Nat)

namespace Node

/-- A node that is left out. -/
def empty : Node := .scalar { text := "" }

/-! ## Tags -/

/-- The texts of the handles that need no directive. -/
def standardHandles : List (String × String) :=
  [("!", "!"), ("!!", "tag:yaml.org,2002:")]

/-- The full text of a tag. -/
def resolveTag? (handles : List (String × String)) (handle suffix : String) : Option String :=
  if handle = "" then some suffix else (handles.lookup handle).map (· ++ suffix)

/-! ## Nodes from tokens -/

/-- What is left to read, with the anchors met so far. -/
structure Reader where
  tokens : List Token
  /-- The texts of the tag handles. -/
  handles : List (String × String) := standardHandles
  /-- The numbers of the anchor names. -/
  names : List (String × Nat) := []
  /-- The numbered nodes, latest first. -/
  numbered : List (Nat × Node) := []

namespace Reader

/-- The anchor and the tag in front of a node, in either order. -/
structure Properties where
  anchor : Option String := none
  tag : Option String := none

def properties? (r : Reader) : Option (Properties × Reader) :=
  match r.tokens with
  | .anchor name :: .tag handle suffix :: ts => do
    let tag ← resolveTag? r.handles handle suffix
    return ({ anchor := some name, tag := some tag }, { r with tokens := ts })
  | .tag handle suffix :: .anchor name :: ts => do
    let tag ← resolveTag? r.handles handle suffix
    return ({ anchor := some name, tag := some tag }, { r with tokens := ts })
  | .anchor name :: ts => some ({ anchor := some name }, { r with tokens := ts })
  | .tag handle suffix :: ts => do
    let tag ← resolveTag? r.handles handle suffix
    return ({ tag := some tag }, { r with tokens := ts })
  | _ => some ({}, r)

/-- Number the anchor of a node that starts here. -/
def enter (r : Reader) : (anchor : Option String) → Option Nat × Reader
  | none => (none, r)
  | some name =>
    -- the count before an older use of the name is dropped
    let number := r.names.length
    (some number, { r with names := (name, number) :: r.names.filter (·.1 != name) })

/-- Record a numbered node. The nodes in `inner` started after it and count as later. -/
def leave (r : Reader) (number : Option Nat) (node : Node) (inner : List (Nat × Node)) : Reader :=
  match number with
  | none => { r with numbered := inner ++ r.numbered }
  | some n => { r with numbered := inner ++ (n, node) :: r.numbered }

/-- Whether a key or value of a block mapping is left out before these tokens. -/
def endsBlockItem : List Token → Bool
  | .key :: _ | .value :: _ | .blockEnd :: _ => true
  | _ => false

/-- Whether a value in braces is left out before these tokens. -/
def endsFlowValue : List Token → Bool
  | .comma :: _ | .rightBrace :: _ => true
  | _ => false

/-- Whether a key in braces is left out before these tokens. -/
def endsFlowKey : List Token → Bool
  | .value :: _ => true
  | ts => endsFlowValue ts

mutual

/-- A node at the start of the tokens. A block mapping can stand only where `block` allows it. -/
def node? (block : Bool) : (fuel : Nat) → Reader → Option (Node × Reader)
  | 0, _ => none
  | fuel + 1, r =>
    match r.tokens with
    | .reference name :: ts => do
      let number ← r.names.lookup name
      return (.reference number, { r with tokens := ts })
    | _ => do
      let (given, r) ← r.properties?
      let (number, r) := r.enter given.anchor
      match r.tokens with
      | .scalar text style :: ts =>
        let node := .scalar ⟨text, style, given.tag⟩
        return (node, { r with tokens := ts }.leave number node [])
      | .leftBrace :: ts =>
        let (entries, inner) ← flowEntries? true fuel { r with tokens := ts, numbered := [] }
        let node := .mapping entries
        return (node, { inner with numbered := r.numbered }.leave number node inner.numbered)
      | ts =>
        match block, ts with
        | true, .blockStart :: ts =>
          let (entries, inner) ← blockEntries? fuel { r with tokens := ts, numbered := [] }
          let node := .mapping entries
          return (node, { inner with numbered := r.numbered }.leave number node inner.numbered)
        | _, _ =>
          -- only a tag or an anchor can stand for a node that is left out
          guard (given.anchor.isSome || given.tag.isSome)
          let node := .scalar { text := "", tag := given.tag }
          return (node, r.leave number node [])

/-- A node, unless it is left out. -/
def nodeUnless? (absent block : Bool) : (fuel : Nat) → Reader → Option (Node × Reader)
  | 0, _ => none
  | fuel + 1, r => if absent then some (.empty, r) else node? block fuel r

/-- The entries of a block mapping up to its end. -/
def blockEntries? : (fuel : Nat) → Reader → Option (List (Node × Node) × Reader)
  | 0, _ => none
  | fuel + 1, r =>
    match r.tokens with
    | .key :: ts => do
      let (key, r) ← nodeUnless? (endsBlockItem ts) true fuel { r with tokens := ts }
      let (value, r) ←
        match r.tokens with
        | .value :: ts => nodeUnless? (endsBlockItem ts) true fuel { r with tokens := ts }
        | _ => some (.empty, r)
      let (entries, r) ← blockEntries? fuel r
      return ((key, value) :: entries, r)
    | .blockEnd :: ts => some ([], { r with tokens := ts })
    | _ => none

/-- The entries of a mapping in braces up to its end. Every entry but the first follows a comma,
and a comma may stand before the end. -/
def flowEntries? (first : Bool) : (fuel : Nat) → Reader → Option (List (Node × Node) × Reader)
  | 0, _ => none
  | fuel + 1, r =>
    match first, r.tokens with
    | _, .rightBrace :: ts => some ([], { r with tokens := ts })
    | false, .comma :: .rightBrace :: ts => some ([], { r with tokens := ts })
    | false, .comma :: ts => flowEntry? fuel { r with tokens := ts }
    | true, _ => flowEntry? fuel r
    | false, _ => none

/-- An entry in braces and those behind it. A key without a colon has no value. -/
def flowEntry? : (fuel : Nat) → Reader → Option (List (Node × Node) × Reader)
  | 0, _ => none
  | fuel + 1, r => do
    let (entry, r) ←
      match r.tokens with
      | .key :: ts => do
        let (key, r) ← nodeUnless? (endsFlowKey ts) false fuel { r with tokens := ts }
        match r.tokens with
        | .value :: ts => do
          let (value, r) ← nodeUnless? (endsFlowValue ts) false fuel { r with tokens := ts }
          pure ((key, value), r)
        | _ => pure ((key, .empty), r)
      | _ => do
        let (key, r) ← node? false fuel r
        pure ((key, .empty), r)
    let (entries, r) ← flowEntries? false fuel r
    return (entry :: entries, r)

end

/-! ## Documents -/

/-- The directives before a document. A version or a handle must not be given twice. -/
def directives? : (version : Bool) → (handles : List (String × String)) → List Token →
    Option (List (String × String) × List Token)
  | version, handles, .directive d :: ts =>
    if !d.isSupported then none
    else
      match d with
      | .version _ _ => if version then none else directives? true handles ts
      | .handle name text =>
        if (handles.lookup name).isSome then none
        else directives? version ((name, text) :: handles) ts
  | _, handles, ts => some (handles, ts)

/-- Whether an explicit document has no content before these tokens. -/
def endsDocument : List Token → Bool
  | [] | .directive _ :: _ | .documentStart :: _ | .documentEnd :: _ => true
  | _ => false

/-- The reader at the content of the first document, and whether there is any. A document with
directives must have a start marker. -/
def content? (ts : List Token) : Option (Bool × Reader) := do
  let (handles, rest) ← directives? false [] ts
  let handles := handles ++ standardHandles
  match rest with
  | .documentStart :: rest => return (!endsDocument rest, { tokens := rest, handles := handles })
  | _ =>
    -- without a start marker there must have been no directives
    guard (rest.length = ts.length)
    return (true, { tokens := rest })

end Reader

end Node

/-- A document: its root, and the nodes that references in it stand for. -/
structure Document where
  root : Node
  numbered : List (Nat × Node) := []

namespace Document

/-- The node that a reference stands for; any other node stands for itself. -/
def follow? (d : Document) : Node → Option Node
  | .reference number => d.numbered.lookup number
  | node => some node

/-- The one document of a text. Nothing but end markers may follow it. -/
def ofText? (text : String) : Option Document := do
  let tokens ← Token.ofText? text
  let (hasContent, r) ← Node.Reader.content? tokens
  let (root, r) ← Node.Reader.nodeUnless? (!hasContent) true (4 * tokens.length + 4) r
  guard (r.tokens.all (· == .documentEnd))
  return { root := root, numbered := r.numbered }

end Document

end TaintFlow.Yaml
