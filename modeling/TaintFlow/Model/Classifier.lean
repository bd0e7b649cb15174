import TaintFlow.Program.Graph

/-!
# Sources and sinks

A classifier says which statements create taint and which must not be reached by it. The usual one
goes by method signatures: assigning the result of a listed source is a source, calling a listed
sink is a sink. Methods can also be listed for their own sake, so that their parameters arrive
tainted or their results leak.
-/

namespace TaintFlow

structure Classifier where
  isSource : Program → Stmt → Bool
  isSink : Program → Stmt → Bool

/-- Methods whose calls or bodies are sources and sinks. -/
structure MethodLists where
  sources : List Signature := []
  sinks : List Signature := []
  /-- Methods whose parameters arrive tainted. -/
  taintedParams : List Signature := []
  /-- Methods whose results leak. -/
  leakedResults : List Signature := []
deriving DecidableEq, Repr

namespace MethodLists

/-- Read the four lists in order; the first malformed entry is reported. -/
def read (sources sinks taintedParams leakedResults : List String) :
    Except Error MethodLists := do
  return {
    sources := ← sources.mapM Signature.require
    sinks := ← sinks.mapM Signature.require
    taintedParams := ← taintedParams.mapM Signature.require
    leakedResults := ← leakedResults.mapM Signature.require }

/-- Whether the method that contains `s` is listed. -/
def ownerIn (methods : List Signature) (p : Program) (s : Stmt) : Bool :=
  (p.method? s.method).any fun m => methods.contains m.signature

def isSource (lists : MethodLists) (p : Program) (s : Stmt) : Bool :=
  match s.action with
  | .assign _ (.invoke _ method _) => lists.sources.contains method
  | .identity _ (.parameter _) => ownerIn lists.taintedParams p s
  | _ => false

def isSink (lists : MethodLists) (p : Program) (s : Stmt) : Bool :=
  match s.call? with
  | some call => lists.sinks.contains call.method
  | none =>
    match s.action with
    | .return (some _) => ownerIn lists.leakedResults p s
    | _ => false

def classifier (lists : MethodLists) : Classifier := ⟨lists.isSource, lists.isSink⟩

end MethodLists

/-- The classifier that goes by statement numbers alone. -/
def Classifier.ofStatements (sources sinks : List StmtId) : Classifier where
  isSource _ s := sources.contains s.id
  isSink _ s := sinks.contains s.id

end TaintFlow
