import TaintFlow.Program.Value

/-!
# Statements and methods
-/

namespace TaintFlow

inductive Action where
  /-- Binds a parameter, the receiver or a caught exception to a local. -/
  | identity (target : Local) (source : Value)
  | assign (target source : Value)
  /-- A call whose result, if any, is dropped. -/
  | invoke (call : Invocation)
  | return (result : Option Value)
  | throw (operand : Value)
  | branch (condition : Value)
  | goto
  | nop
deriving DecidableEq, Repr

namespace Action

def text : Action → String
  | identity target source => target.name ++ " := " ++ source.text
  | assign target source => target.text ++ " = " ++ source.text
  | invoke call => call.text
  | .return (some result) => "return " ++ result.text
  | .return none => "return"
  | throw operand => "throw " ++ operand.text
  | branch condition => "if " ++ condition.text
  | goto => "goto"
  | nop => "nop"

/-- The call made by the statement, with or without an assignment of its result. -/
def call? : Action → Option Invocation
  | invoke call => some call
  | assign _ source => Invocation.ofValue? source
  | _ => none

def isCall (a : Action) : Bool := a.call?.isSome

def target? : Action → Option Value
  | assign target _ => some target
  | _ => none

/-- Whether control goes on with the next statement of the body. -/
def fallsThrough : Action → Bool
  | .return _ | throw _ | goto => false
  | _ => true

end Action

structure Stmt where
  id : StmtId
  method : MethodId
  action : Action
deriving DecidableEq, Repr

namespace Stmt

def text (s : Stmt) : String := s.id.text ++ ": " ++ s.action.text

def call? (s : Stmt) : Option Invocation := s.action.call?

def target? (s : Stmt) : Option Value := s.action.target?

end Stmt

/-- A declared method. Its body lists its statements in order; a method without a body is a library
or native method that calls can name but no analysis enters. -/
structure Method where
  signature : Signature
  isStatic : Bool
  isNative : Bool
  body : List StmtId
  /-- The locals that the body binds to its parameters, by index. -/
  params : List Local
  thisLocal : Option Local
deriving DecidableEq, Repr

namespace Method

def isConcrete (m : Method) : Bool := !m.body.isEmpty

/-- The first parameter position that `l` is bound at. -/
def paramIndex? (m : Method) (l : Local) : Option Nat := m.params.idxOf? l

end Method

end TaintFlow
