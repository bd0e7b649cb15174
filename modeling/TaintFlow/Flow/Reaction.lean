import TaintFlow.Fact
import TaintFlow.Findings
import TaintFlow.Model.Classifier
import TaintFlow.Model.Library
import TaintFlow.Model.Native
import TaintFlow.Tabulation.Problem

/-!
# Reactions

Two analyses run over one program: the forward analysis follows taint, the backward analysis looks
for aliases. Both are given by how they react when a fact meets an edge of the program. A reaction
holds the facts after the edge, the facts handed over to the other analysis, and the findings. It is
a value: recording findings and handing facts over is left to whoever runs the analysis.
-/

namespace TaintFlow

/-- The edges along which facts flow. -/
inductive FlowEdge where
  /-- From a statement to its successors. -/
  | normal (stmt : StmtId)
  /-- From a call into a callee. -/
  | enter (call : StmtId) (callee : MethodId)
  /-- Out of a method, back to a call if there is one. -/
  | leave (call : Option StmtId) (callee : MethodId) (exit : StmtId)
  /-- From a call to its return sites. -/
  | bypass (call : StmtId)
deriving DecidableEq, Repr

/-- A way of lining up the facts to which an edge leads, which may be another one for every edge and
every taint before it. The facts form a set of taints, so it goes by their taints alone. -/
structure ResultOrder extends Tabulation.Arrangement (Direction × FlowEdge × Taint) Fact where
  taints : ∀ {q fs gs}, fs.map Fact.taint = gs.map Fact.taint →
    (lineUp q fs).map Fact.taint = (lineUp q gs).map Fact.taint

/-- Every set in the order in which it was put together. -/
def ResultOrder.asMade : ResultOrder where
  toArrangement := .asFiled
  taints h := h

/-- What an analysis is about and what it relies on. The two orders are no options of a run. They
stand for what a run leaves open; the order in which findings are made depends on them. -/
structure Setup where
  program : Program
  settings : Settings := {}
  classifier : Classifier
  library : Option LibraryModel := none
  native : NativeModel := .conservative
  /-- In which order the solvers go through what they look up, and evaluate the flows of a batch. -/
  order : Tabulation.Order Fact Taint := {}
  /-- In which order flow functions list the facts they answer with. -/
  results : ResultOrder := .asMade

structure Reaction where
  /-- The facts after the edge, without repetition. -/
  facts : List Fact := []
  /-- Facts for the other analysis, each with the statement it holds before. -/
  handed : List (StmtId × Fact) := []
  findings : List Finding := []
  /-- Why the reaction broke off. The facts are void then; what was handed over or found before
  stays. -/
  fault : Option Fault := none

namespace Reaction

/-- Only facts. -/
def pass (facts : List Fact) : Reaction := { facts }

def fail (fault : Fault) : Reaction := { fault := some fault }

/-- First `a`, then `b` unless `a` broke off. -/
def append (a b : Reaction) : Reaction :=
  if a.fault.isSome then a
  else {
    facts := Fact.distinct (a.facts ++ b.facts)
    handed := a.handed ++ b.handed
    findings := a.findings ++ b.findings
    fault := b.fault }

instance : Append Reaction := ⟨append⟩

/-- One reaction after the other. -/
def sequence (rs : List Reaction) : Reaction := rs.foldl append {}

end Reaction

/-- The finding that the fact reached `sink` through `value`. -/
def Fact.findingAt (f : Fact) (sink : StmtId) (value : Value) : Finding where
  value
  sink
  source := f.taint.source
  origin := f.taint.origin
  path := f.trail.map (· ++ [sink])

namespace Setup

variable (x : Setup)

/-- How many fields an access path may have. -/
def most : Nat := x.settings.accessPathLength

def isSource (s : Stmt) : Bool := x.classifier.isSource x.program s

def isSink (s : Stmt) : Bool := x.classifier.isSink x.program s

/-- Whether the library model alone is responsible for the fact at this call. -/
def isExclusive (call : Stmt) (f : Fact) : Bool := x.library.any (·.isExclusive call f.path)

/-- Whether some callee has a body that the analysis enters. -/
def entersCallee (call : StmtId) : Bool :=
  (x.program.calleesOf call).any fun m => (x.program.method? m).any Method.isConcrete

def withStmt (s : StmtId) (react : Stmt → Reaction) : Reaction :=
  match x.program.stmt? s with
  | some stmt => react stmt
  | none => .fail (.unknownStatement s)

def withMethod (m : MethodId) (react : Method → Reaction) : Reaction :=
  match x.program.method? m with
  | some method => react method
  | none => .fail (.unknownMethod m)

/-- Hand a fact over at every statement that precedes `s`. -/
def handBefore (s : StmtId) (f : Fact) : List (StmtId × Fact) :=
  (x.program.predsOf s).map fun p => (p, f)

/-- Hand a fact over at every statement that follows `s`. -/
def handAfter (s : StmtId) (f : Fact) : List (StmtId × Fact) :=
  (x.program.succsOf s).map fun t => (t, f)

end Setup

end TaintFlow
