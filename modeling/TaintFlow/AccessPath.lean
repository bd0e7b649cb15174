import TaintFlow.Program.Value

/-!
# Access paths

An access path names a memory location: a local or a static field, followed by a chain of instance
fields. `x`, `x.f.g` and `C.s.f` are access paths. Array elements are not told apart, so `a[i]` is
the access path `a`.

Chains are cut at a given length. A shorter chain names more memory, since a tainted location
taints everything reachable from it, so the cut by itself loses no taint. A run over shorter chains
may find less all the same: what happens to a path depends on the fields that are left of it.
-/

namespace TaintFlow

/-- Where an access path starts. A static field is also the first field of its path. -/
inductive Root where
  | local (l : Local)
  | static (f : FieldRef)
deriving DecidableEq, Repr

structure AccessPath where
  root : Root
  fields : List FieldRef := []
deriving DecidableEq, Repr

namespace AccessPath

/-! ## Construction -/

def ofLocal (l : Local) : AccessPath := { root := .local l }

def ofStatic (f : FieldRef) : AccessPath := { root := .static f }

/-- The path cut after `most` fields. -/
def truncated (root : Root) (fields : List FieldRef) (most : Nat) : AccessPath :=
  { root, fields := fields.take most }

/-- The path of the location that a value denotes; other values have none. -/
def ofValue? : Value → Option AccessPath
  | .local l => some (ofLocal l)
  | .element base _ => some (ofLocal base)
  | .field base f => some { root := .local base, fields := [f] }
  | .static f => some (ofStatic f)
  | _ => none

/-! ## Shape -/

variable (p : AccessPath)

def isLocal : Bool :=
  match p.root with
  | .local _ => p.fields.isEmpty
  | .static _ => false

def isInstanceField : Bool :=
  match p.root with
  | .local _ => !p.fields.isEmpty
  | .static _ => false

def isStatic : Bool :=
  match p.root with
  | .local _ => false
  | .static _ => true

def local? : Option Local :=
  match p.root with
  | .local l => some l
  | .static _ => none

/-- The first field on the path; for a static path the static field itself. -/
def firstField? : Option FieldRef :=
  match p.root with
  | .local _ => p.fields.head?
  | .static f => some f

/-- Whether the path starts at local `l`. -/
def startsAt (l : Local) : Bool := p.local? == some l

/-- Whether `v` is a bare local that the path starts at. -/
def isRootedAt (v : Value) : Bool :=
  match v with
  | .local l => p.startsAt l
  | _ => false

/-- Whether the location that `v` names is on the path. No single element of an array is. -/
def passesThrough (v : Value) : Bool :=
  match v with
  | .local l => p.startsAt l
  | .field base f => p.isInstanceField && p.startsAt base && p.firstField? == some f
  | .static f => p.isStatic && p.firstField? == some f
  | _ => false

/-- Whether reading `v` may read what the path names, or a part of it. -/
def isReadBy (v : Value) : Bool :=
  match v with
  | .field base _ => p.passesThrough v || (p.isLocal && p.startsAt base)
  | .element base _ => p.startsAt base
  | _ => p.passesThrough v

/-! ## Moving a path to another location -/

/-- The fields that stay on the path when its root is replaced. The static field of a static path
goes with the root; the first field of a local path goes only if `cut` is set. -/
def remainder (cut : Bool) : List FieldRef :=
  match p.root with
  | .static _ => p.fields
  | .local _ => if cut then p.fields.tail else p.fields

/-- The path continued from the location that `v` denotes. -/
def moveTo? (v : Value) (cut : Bool) (most : Nat) : Option AccessPath :=
  (ofValue? v).map fun q => truncated q.root (q.fields ++ p.remainder cut) most

/-- The path with its root replaced by local `l`. -/
def moveToLocal (l : Local) (most : Nat) : AccessPath := truncated (.local l) p.fields most

/-! ## Printed form -/

def text : String :=
  let root := match p.root with
    | .local l => l.name
    | .static f => f.text
  p.fields.foldl (fun text f => text ++ "." ++ f.name) root

end AccessPath

end TaintFlow
