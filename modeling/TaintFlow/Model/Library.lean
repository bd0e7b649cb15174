import TaintFlow.Error
import TaintFlow.Fact
import TaintFlow.Program.Stmt

/-!
# Library models

Library methods are not analysed. A library model stands in for their bodies: it says which
locations are tainted after a call, given one that was tainted before it, and for which calls it
alone is responsible.

`ListedMethods` is the model given by a list of methods. A tainted argument of a listed method
taints the receiver, or the result of a static call; a tainted receiver taints the result; what was
tainted stays tainted.
-/

namespace TaintFlow

structure LibraryModel where
  /-- The locations tainted after the call when the given one was tainted before it. -/
  derived : Stmt → AccessPath → List AccessPath
  /-- Whether nothing but the model propagates this taint through the call. -/
  isExclusive : Stmt → AccessPath → Bool

/-! ## Listed methods -/

/-- A list of methods, kept by class and sub-signature without repetition. -/
structure ListedMethods where
  keys : List (String × String) := []
deriving DecidableEq, Repr

namespace ListedMethods

def keyOf (m : Signature) : String × String := (m.className, m.subSignature)

def ofSignatures (methods : List Signature) : ListedMethods :=
  { keys := (methods.map keyOf).eraseDups }

def ofTexts (texts : List String) : Except Error ListedMethods := do
  return ofSignatures (← texts.mapM Signature.require)

/-- The entries of a list file: one per line, empty lines and `#` comments left out. -/
def entries (contents : String) : List String :=
  (((Text.pieces '\n' contents.toList).map Text.trim).filter fun line =>
    !line.isEmpty && line.head? != some '#').map String.ofList

/-- Read a list file, given by its contents if it exists. -/
def ofFile : Option String → Except Error ListedMethods
  | some contents => ofTexts (entries contents)
  | none => .error .missingFile

variable (w : ListedMethods)

def supports (m : Signature) : Bool := w.keys.contains (keyOf m)

def size : Nat := w.keys.length

def isEmpty : Bool := w.keys.isEmpty

def derived (s : Stmt) (tainted : AccessPath) : List AccessPath :=
  match s.call? with
  | none => []
  | some call =>
    if tainted.isStatic || !w.supports call.method then []
    else
      let result := (s.target?.bind AccessPath.ofValue?).toList
      let byArg := call.args.any tainted.isRootedAt
      let kept := if byArg then [tainted] else []
      let new := match call.receiver with
        | some receiver =>
          if tainted.startsAt receiver then tainted :: result
          else if byArg then [.ofLocal receiver]
          else []
        | none => if byArg then result else []
      (kept ++ new).eraseDups

def isExclusive (s : Stmt) (_tainted : AccessPath) : Bool :=
  s.call?.any fun call => w.supports call.method

def model : LibraryModel := ⟨w.derived, w.isExclusive⟩

end ListedMethods

/-! ## Rules for single calls -/

/-- What happens at one call statement, for one tainted location or for any. -/
structure CallRule where
  stmt : StmtId
  tainted : Option AccessPath := none
  derived : List AccessPath := []
  exclusive : Bool := false
deriving DecidableEq, Repr

def CallRule.applies (r : CallRule) (s : Stmt) (tainted : AccessPath) : Bool :=
  r.stmt == s.id && (r.tainted.isNone || r.tainted == some tainted)

/-- The model in which every rule that applies contributes. -/
def LibraryModel.ofRules (rules : List CallRule) : LibraryModel where
  derived s tainted := ((rules.filter (·.applies s tainted)).flatMap (·.derived)).eraseDups
  isExclusive s tainted := rules.any fun r => r.applies s tainted && r.exclusive

end TaintFlow
