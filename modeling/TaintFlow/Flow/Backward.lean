import TaintFlow.Flow.Reaction

/-!
# The backward analysis

Looks for aliases of memory that is about to be tainted. It runs over the reversed program, starting
from alias candidates that the forward analysis hands over, and follows the object through copies:

* at `a = b`, a candidate behind `a` lies behind `b` before the copy;
* at `a = b`, a candidate behind `b` has an alias behind `a` after the copy.

Each location found is handed back to the forward analysis after the copy that created it.
-/

namespace TaintFlow.Backward

variable (x : Setup)

/-! ## Normal edges -/

def assign (stmt : Stmt) (target source : Value) (f : Fact) : Reaction :=
  let source := match source with
    | .cast _ operand => operand
    | v => v
  if f.path.passesThrough target then
    match f.moveToValue? source target.isFieldOrElement x.most with
    | some moved => { facts := [moved], handed := x.handAfter stmt.id moved }
    | none => {}
  else if f.path.passesThrough source then
    match f.moveToValue? target source.isFieldOrElement x.most with
    | some moved =>
      -- a field written here may have had other names before
      let older := match target with
        | .field _ _ | .static _ => [moved]
        | _ => []
      { facts := Fact.distinct (f :: older), handed := x.handAfter stmt.id moved }
    | none => .pass [f]
  else .pass [f]

def normal (s : StmtId) (f : Fact) : Reaction :=
  x.withStmt s fun stmt =>
    match stmt.action with
    | .assign target source => if f.isZero then .pass [f] else assign x stmt target source f
    | _ => .pass [f]

/-! ## Call edges: from a call to the exits of its callees -/

/-- The locals that the exits of a method return. -/
def returnedLocals (callee : MethodId) : List Local :=
  (x.program.exitsOf callee).filterMap fun exit =>
    match (x.program.stmt? exit).map Stmt.action with
    | some (.return (some (.local l))) => some l
    | _ => none

def bindOperands (call : Stmt) (invocation : Invocation) (callee : MethodId) (method : Method)
    (f : Fact) : List Fact :=
  let results := if call.target?.any f.path.isRootedAt then returnedLocals x callee else []
  let params := ((invocation.args.zip method.params).filter fun (arg, _) =>
    arg.isTransferable && f.path.isRootedAt arg).map Prod.snd
  let this := match invocation.receiver, method.thisLocal with
    | some receiver, some this => if f.path.startsAt receiver then [this] else []
    | _, _ => []
  let static := if f.path.isStatic then [f] else []
  Fact.distinct ((results ++ params ++ this).map (fun l => f.moveToLocal l x.most) ++ static)

def enter (call : StmtId) (callee : MethodId) (f : Fact) : Reaction :=
  x.withMethod callee fun method =>
    if !method.isConcrete || f.isZero then {}
    else x.withStmt call fun stmt =>
      match stmt.call? with
      | none => {}
      | some invocation => .pass (bindOperands x stmt invocation callee method f)

/-! ## Return edges: from the start of a method to its callers -/

def unbindOperands (call : StmtId) (invocation : Invocation) (method : Method) (f : Fact) :
    List Fact :=
  if f.path.isStatic then [f]
  else
    let args := (method.params.zip invocation.args).filterMap fun (param, arg) =>
      if f.path.startsAt param && arg.isTransferable then arg.asLocal? else none
    let receiver := match method.thisLocal, invocation.receiver with
      | some this, some receiver => if f.path.startsAt this then [receiver] else []
      | _, _ => []
    (args ++ receiver).map fun l => (f.moveToLocal l x.most).atLevel call

def leave (call : Option StmtId) (callee : MethodId) (exit : StmtId) (f : Fact) : Reaction :=
  match call with
  | none => {}
  | some call =>
    if f.isZero then {}
    else x.withStmt call fun stmt =>
      match stmt.call? with
      | none => {}
      | some invocation => x.withMethod callee fun method => x.withStmt exit fun exitStmt =>
        -- the first statement of the callee has not been applied yet
        let reaching := match exitStmt.action with
          | .assign target source => assign x exitStmt target source f
          | _ => .pass [f]
        { reaching with
          facts := Fact.distinct
            (reaching.facts.flatMap (unbindOperands x call invocation method)) }

/-! ## Call-to-return edges -/

/-- Whether the fact comes back through a callee. -/
def goesThroughCallee (call : StmtId) (invocation : Invocation) (f : Fact) : Bool :=
  x.entersCallee call
    && (f.path.isStatic || invocation.receiver.any f.path.startsAt
      || invocation.args.any fun arg => arg.isTransferable && f.path.isRootedAt arg)

def bypass (call : StmtId) (f : Fact) : Reaction :=
  if f.isZero then .pass [f]
  else x.withStmt call fun stmt =>
    match stmt.call? with
    | none => .pass [f]
    | some invocation =>
      if stmt.target?.any f.path.isRootedAt || goesThroughCallee x call invocation f then {}
      else .pass [f]

def react : FlowEdge → Fact → Reaction
  | .normal s, f => normal x s f
  | .enter call callee, f => enter x call callee f
  | .leave call callee exit, f => leave x call callee exit f
  | .bypass call, f => bypass x call f

end TaintFlow.Backward
