import TaintFlow.Program.Value
import TaintFlow.Settings.Basic

/-!
# Why a request is refused

`Error` lists the causes for which a program, a list of methods or an analysis is refused before
any work is done, and `Error.message` is their only wording. A `Fault` is different in kind: it
arises in the middle of a run, when a flow function meets a program that contradicts itself.
-/

namespace TaintFlow

/-- What is wrong with a program description. -/
inductive Malformation where
  | declaredTwice (method : Signature)
  | nativeBody (method : Signature)
  | crossingEdge (source target : StmtId)
  | noInvocation (stmt : StmtId)
  | strayParameter (method : Signature) (index : Nat)
  | staticThis (method : Signature)
  | unboundThis (method : Signature)
  | unboundParameter (method : Signature) (index : Nat)
deriving DecidableEq, Repr

def Malformation.message : Malformation → String
  | declaredTwice m => s!"method {m} declared twice"
  | nativeBody m => s!"native method {m} cannot have a body"
  | crossingEdge s t => s!"edge {s.text} -> {t.text} crosses methods"
  | noInvocation s => s!"call edge on {s.text} which has no invoke expression"
  | strayParameter m i => s!"{m} binds parameter {i} but declares {m.params.length}"
  | staticThis m => s!"static method {m} binds @this"
  | unboundThis m => s!"instance method {m} never binds @this"
  | unboundParameter m i => s!"{m} never binds parameter {i}"

inductive Error where
  | invalidSignature (text : String)
  | unknownMethod (name : String)
  | unknownStatement (stmt : StmtId)
  | malformedProgram (reason : Malformation)
  | entryWithoutBody (method : MethodId)
  | settings (reason : Settings.Failure)
  | missingFile
deriving DecidableEq, Repr

def Error.message : Error → String
  | invalidSignature text =>
    s!"Illegal method signature '{text}' (expected <Class: ret name(params)>)"
  | unknownMethod name => s!"Unknown method: {name}"
  | unknownStatement stmt => s!"Unknown statement: {stmt.text}"
  | malformedProgram reason => s!"Malformed program model: {reason.message}"
  | entryWithoutBody method => s!"Entry point {method.text} has no analyzable body"
  | settings reason => s!"Configuration error: {reason.message}"
  | missingFile => "IO error"

/-- A contradiction in the program that a flow function cannot work around. -/
inductive Fault where
  | unknownStatement (stmt : StmtId)
  | unknownMethod (method : MethodId)
  /-- The call passes another number of arguments than the callee has parameters. -/
  | argumentCount (call : StmtId) (callee : MethodId)
deriving DecidableEq, Repr

/-- Read a signature that a request depends on. -/
def Signature.require (text : String) : Except Error Signature :=
  match Signature.parse? text with
  | some s => .ok s
  | none => .error (.invalidSignature text)

end TaintFlow
