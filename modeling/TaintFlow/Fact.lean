import TaintFlow.AccessPath

/-!
# Taint facts

A fact says that a location is tainted, where the taint came from, and in which phase the fact is.
An active fact is taint that has happened. An inactive fact is an alias candidate: the location
will be tainted once control passes its activation unit, the statement that writes the taint.

Facts come in two layers. A `Taint` is all that tells facts apart; solvers compare taints and
nothing else. A `Fact` adds bookkeeping: the witness path, the taints at the open call edges, and
the ancestor without taint. Bookkeeping grows without bound under recursion, and keeping it out of
the comparison is what keeps the number of facts finite.
-/

namespace TaintFlow

structure Taint where
  path : AccessPath
  /-- The statement classified as a source. -/
  source : StmtId
  /-- The value that produced the taint there. -/
  origin : Value
  active : Bool := true
  /-- The statement at which an inactive taint becomes active. -/
  unit : Option StmtId := none
  /-- A call on the current level that contains the activation unit. -/
  level : Option StmtId := none
  /-- The location holds an exception in flight. -/
  thrown : Bool := false
deriving DecidableEq, Repr

namespace Taint

/-- The taint that stands for "no taint". It seeds every solver. -/
def zero : Taint where
  path := .ofLocal ⟨.synthetic, "<zero>", .null⟩
  source := .synthetic
  origin := .null

/-- Facts rooted at a local of the synthetic method carry no taint. -/
def isZero (t : Taint) : Bool := t.path.local?.any (·.method == .synthetic)

/-- Whether passing `s` activates the taint. -/
def activatedBy (t : Taint) (s : StmtId) : Bool :=
  !t.active && (t.unit == some s || t.level == some s)

def activate (t : Taint) : Taint := { t with active := true, unit := none, level := none }

/-- The alias candidate that becomes active at `s`. -/
def deactivate (t : Taint) (s : StmtId) : Taint :=
  { t with active := false, unit := some s, level := none }

def text (t : Taint) : String :=
  if t.isZero then "<zero>"
  else
    let phase :=
      if t.active then ""
      else match t.unit with
        | some s => ", inactive until " ++ s.text
        | none => ", inactive"
    let thrown := if t.thrown then ", thrown" else ""
    t.path.text ++ " [from " ++ t.source.text ++ phase ++ thrown ++ "]"

end Taint

structure Fact where
  taint : Taint
  /-- The statements that carried the taint here, oldest first, if witness paths are tracked. -/
  trail : Option (List StmtId) := none
  /-- The taints at the call edges that are still open, innermost first. -/
  callers : List Taint := []
  /-- The fact without taint at which this one was created. -/
  zeroAncestor : Option Fact := none

namespace Fact

def zero : Fact := { taint := .zero }

/-- The active fact that a source creates. -/
def ofSource (path : AccessPath) (source : StmtId) (origin : Value) (track : Bool) : Fact where
  taint := { path, source, origin }
  trail := if track then some [source] else none

variable (f : Fact)

def path : AccessPath := f.taint.path

def isZero : Bool := f.taint.isZero

def isActive : Bool := f.taint.active

/-- The fact without taint that facts created from this one descend from. -/
def zeroLink : Fact := if f.isZero then f else f.zeroAncestor.getD zero

/-! ## Derivations

Every derivation keeps the source of the taint. Moving to another location ends the flight of an
exception, since it is a copy of the thrown object that moves. -/

def moveTo (path : AccessPath) : Fact :=
  { f with taint := { f.taint with path, thrown := false } }

/-- Move to the location that `v` denotes, if it denotes one. -/
def moveToValue? (v : Value) (cut : Bool) (most : Nat) : Option Fact :=
  (f.path.moveTo? v cut most).map f.moveTo

def moveToLocal (l : Local) (most : Nat) : Fact := f.moveTo (f.path.moveToLocal l most)

def activate : Fact := { f with taint := f.taint.activate }

/-- The active fact, if passing `s` activates it. -/
def activateAt (s : StmtId) : Fact := if f.taint.activatedBy s then f.activate else f

def deactivate (s : StmtId) : Fact := { f with taint := f.taint.deactivate s }

def atLevel (s : StmtId) : Fact := { f with taint := { f.taint with level := some s } }

/-- A thrown fact, bound to the local of its handler. -/
def caughtBy (l : Local) : Fact := f.moveTo (.ofLocal l)

def throw : Fact := { f with taint := { f.taint with thrown := true } }

/-- Enter a callee: the taint at the call edge is remembered until the callee is left. -/
def enterCall : Fact := { f with callers := f.taint :: f.callers }

def leaveCall : Fact := { f with callers := f.callers.tail }

/-- Append `s` to the witness path. -/
def visit (s : StmtId) : Fact := { f with trail := f.trail.map (· ++ [s]) }

end Fact

/-- Facts with pairwise different taints; of several facts with one taint the first stays. -/
def Fact.distinct : List Fact → List Fact
  | [] => []
  | f :: fs => f :: (distinct fs).filter fun g => g.taint ≠ f.taint

end TaintFlow
