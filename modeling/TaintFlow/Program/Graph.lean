import TaintFlow.Error
import TaintFlow.Program.Stmt

/-!
# Programs as interprocedural graphs

A program is a table of methods and a table of statements, with the control-flow edges inside each
method and the call edges between them. A `View` is what a solver sees of it: the same statements,
with the edges taken in one of the two directions. In the backward view successors are
predecessors, and the exits of a method are its starts.
-/

namespace TaintFlow

structure Program where
  methods : Array Method
  stmts : Array Stmt
  succs : Array (List StmtId)
  preds : Array (List StmtId)
  /-- The methods that each statement may call, with or without a body. -/
  callees : Array (List MethodId)
  callers : Array (List StmtId)

namespace Program

variable (p : Program)

def stmt? (s : StmtId) : Option Stmt := p.stmts[s.index]?

def method? (m : MethodId) : Option Method := p.methods[m.index]?

def succsOf (s : StmtId) : List StmtId := p.succs.getD s.index []

def predsOf (s : StmtId) : List StmtId := p.preds.getD s.index []

def calleesOf (s : StmtId) : List MethodId := p.callees.getD s.index []

def callersOf (m : MethodId) : List StmtId := p.callers.getD m.index []

def bodyOf (m : MethodId) : List StmtId := ((p.method? m).map Method.body).getD []

/-- Control enters a body at its first statement. -/
def startsOf (m : MethodId) : List StmtId := (p.bodyOf m).take 1

/-- Control leaves a body at any statement without a successor. -/
def exitsOf (m : MethodId) : List StmtId := (p.bodyOf m).filter fun s => (p.succsOf s).isEmpty

def isCall (s : StmtId) : Bool := (p.stmt? s).any (·.action.isCall)

def isExit (s : StmtId) : Bool := (p.succsOf s).isEmpty

def isStart (s : StmtId) : Bool := (p.stmt? s).any fun stmt => (p.startsOf stmt.method).contains s

/-- The owner of a statement. Statements outside the program have none; the synthetic method
stands in for it. -/
def ownerOf (s : StmtId) : MethodId := ((p.stmt? s).map Stmt.method).getD .synthetic

/-- The method declared under exactly this signature. -/
def methodBySignature? (s : Signature) : Option MethodId :=
  (p.methods.toList.findIdx? fun m => m.signature == s).map MethodId.mk

/-! ## Lookups that refuse -/

def requireStmt (s : StmtId) : Except Error Stmt :=
  match p.stmt? s with
  | some stmt => .ok stmt
  | none => .error (.unknownStatement s)

def requireMethod (m : MethodId) : Except Error Method :=
  match p.method? m with
  | some method => .ok method
  | none => .error (.unknownMethod m.text)

def resolve (text : String) : Except Error MethodId := do
  let signature ← Signature.require text
  match p.methodBySignature? signature with
  | some m => return m
  | none => throw (.unknownMethod text)

/-- Where an analysis enters `m`. -/
def entryStarts (m : MethodId) : Except Error (List StmtId) := do
  let _ ← p.requireMethod m
  match p.startsOf m with
  | [] => throw (.entryWithoutBody m)
  | starts => return starts

end Program

inductive Direction where
  | forward
  | backward
deriving DecidableEq, Repr

def Direction.opposite : Direction → Direction
  | forward => backward
  | backward => forward

/-- A program seen in one direction. -/
structure View where
  /-- The number of statements; those with a smaller index exist. -/
  size : Nat
  ownerOf : StmtId → MethodId
  isCall : StmtId → Bool
  isStart : StmtId → Bool
  isExit : StmtId → Bool
  succsOf : StmtId → List StmtId
  predsOf : StmtId → List StmtId
  calleesOf : StmtId → List MethodId
  callersOf : MethodId → List StmtId
  startsOf : MethodId → List StmtId

/-- A call returns to its successors. -/
def View.returnSitesOf (v : View) (call : StmtId) : List StmtId := v.succsOf call

namespace Program

def forward (p : Program) : View where
  size := p.stmts.size
  ownerOf := p.ownerOf
  isCall := p.isCall
  isStart := p.isStart
  isExit := p.isExit
  succsOf := p.succsOf
  predsOf := p.predsOf
  calleesOf := p.calleesOf
  callersOf := p.callersOf
  startsOf := p.startsOf

def backward (p : Program) : View :=
  { p.forward with
    isStart := p.isExit
    isExit := p.isStart
    succsOf := p.predsOf
    predsOf := p.succsOf
    startsOf := p.exitsOf }

def view (p : Program) : Direction → View
  | .forward => p.forward
  | .backward => p.backward

end Program

end TaintFlow
