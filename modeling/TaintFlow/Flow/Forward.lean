import TaintFlow.Flow.Aliasing
import TaintFlow.Flow.Reaction

/-!
# The forward analysis

Follows taint from sources to sinks. Assignments copy taint and overwrite it; calls carry it from
receiver and arguments to the locals of the callee and back. Before a statement is applied to an
inactive fact whose activation unit it is, the fact becomes active.

A fact that taints memory with other names is handed to the backward analysis, inactive and before
the statement that wrote it. What comes back are the aliases, still inactive.
-/

namespace TaintFlow.Forward

variable (x : Setup)

/-- The fact created by the source `stmt` while `parent` held. -/
def newFact (path : AccessPath) (stmt : StmtId) (origin : Value) (parent : Fact) : Fact :=
  { Fact.ofSource path stmt origin x.settings.tracksPaths with
    zeroAncestor := some parent.zeroLink }

/-- The finding at a return statement whose result leaks. -/
def returnLeak (stmt : Stmt) (f : Fact) : List Finding :=
  match stmt.action with
  | .return (some result) =>
    if f.isActive && f.path.isRootedAt result && x.isSink stmt then [f.findingAt stmt.id result]
    else []
  | _ => []

/-! ## Normal edges -/

def identity (stmt : Stmt) (target : Local) (source : Value) (f : Fact) : Reaction :=
  let carried :=
    if source = .caughtException && f.taint.thrown && f.isActive then
      (f.caughtBy target).visit stmt.id
    else f
  let created :=
    if x.isSource stmt then [newFact x (.ofLocal target) stmt.id source f] else []
  .pass (Fact.distinct (carried :: created))

/-- Carry the fact over to the target of an assignment. -/
def copyTo (stmt : Stmt) (target : Value) (cut : Bool) (f : Fact) : Reaction :=
  match f.moveToValue? target cut x.most with
  | none => {}
  | some moved =>
    let moved := moved.visit stmt.id
    let probe := f.mayAlias target && f.isActive && moved.isWorthProbing target
    { facts := [moved]
      handed := if probe then x.handBefore stmt.id (moved.deactivate stmt.id) else [] }

def assign (stmt : Stmt) (target source : Value) (f : Fact) : Reaction :=
  if f.isZero then .pass [f]
  else if source.operands.any f.path.isReadBy then
    -- a field that was read is gone from the path of the copy
    let cut := source.operands.any fun v => v.isFieldOrElement && f.path.passesThrough v
    let kept : Reaction := {
      facts := [f]
      findings := if f.isActive && x.isSink stmt then [f.findingAt stmt.id target] else [] }
    if f.reaches target then kept ++ copyTo x stmt target cut f else kept
  else if f.path.passesThrough target then {}
  else .pass [f]

def normal (s : StmtId) (f : Fact) : Reaction :=
  x.withStmt s fun stmt =>
    let f := f.activateAt s
    match stmt.action with
    | .identity target source => identity x stmt target source f
    | .assign target source => assign x stmt target source f
    | .return (some _) => { facts := [f], findings := returnLeak x stmt f }
    | .throw operand => .pass [if f.path.isRootedAt operand then f.throw else f]
    | _ => .pass [f]

/-! ## Call edges -/

/-- Carry the fact from the operands of a call to the locals that the callee binds. -/
def bindOperands (call : Stmt) (invocation : Invocation) (callee : MethodId) (method : Method)
    (f : Fact) : Reaction :=
  let bind (l : Local) : Fact := ((f.moveToLocal l x.most).visit call.id).enterCall
  let this := match invocation.receiver, method.thisLocal with
    | some receiver, some this =>
      if !method.isStatic && f.path.startsAt receiver then [bind this] else []
    | _, _ => []
  let static := if f.path.isStatic then [f.enterCall] else []
  -- static initializers run without a call of their own, so no arguments match
  if method.signature.isStaticInitializer then .pass (Fact.distinct (this ++ static))
  else if method.params.length ≠ invocation.args.length then
    .fail (.argumentCount call.id callee)
  else
    let passed := (invocation.args.zip method.params).filter fun (arg, _) =>
      f.path.isRootedAt arg && f.reaches arg
    .pass (Fact.distinct (this ++ passed.map (fun (_, param) => bind param) ++ static))

def enter (call : StmtId) (callee : MethodId) (f : Fact) : Reaction :=
  x.withMethod callee fun method =>
    if !method.isConcrete then {}
    else if f.isZero then .pass [f]
    else x.withStmt call fun stmt =>
      match stmt.call? with
      | none => {}
      | some invocation =>
        if x.isExclusive stmt f || (!x.settings.inspectSinks && x.isSink stmt) then {}
        else bindOperands x stmt invocation callee method (f.activateAt call)

/-! ## Return edges -/

/-- The alias candidate for a fact that has just come out of a call. -/
def probeAfter (call : StmtId) (f : Fact) : Fact :=
  if f.isActive then (f.deactivate call).atLevel call else f

/-- A fact that comes out of `call` at `v`, and the search for its aliases. -/
def comeOut (call : StmtId) (v : Value) (f : Fact) : Reaction where
  facts := [f]
  handed := if f.mayAlias v then x.handBefore call (probeAfter call f) else []

/-- Carry the fact from the locals of a callee back to the operands and the result of the call. -/
def unbindOperands (call : Stmt) (invocation : Invocation) (method : Method) (exit : Stmt)
    (f : Fact) : Reaction :=
  let result : Reaction := match exit.action, call.target? with
    | .return (some returned), some target =>
      if f.path.isRootedAt returned && f.reaches target then
        match f.moveToValue? target false x.most with
        | some moved => comeOut x call.id target (moved.visit exit.id)
        | none => {}
      else {}
    | _, _ => {}
  let static : Reaction :=
    if f.path.isStatic then
      { facts := [f], handed := x.handBefore call.id (probeAfter call.id f) }
    else {}
  let bound := (method.params.zip invocation.args).filter fun (param, _) => f.path.startsAt param
  let args := .sequence <| bound.map fun (_, arg) =>
    if arg.isTransferable && f.reaches arg then
      match f.moveToValue? arg false x.most with
      | some moved => comeOut x call.id arg (moved.visit exit.id)
      | none => {}
    else {}
  let receiver : Reaction := match method.thisLocal, invocation.receiver with
    | some this, some receiver =>
      if bound.isEmpty && f.path.startsAt this then
        comeOut x call.id (.local receiver) ((f.moveToLocal receiver x.most).visit exit.id)
      else {}
    | _, _ => {}
  result ++ static ++ args ++ receiver

/-- Whether the activation unit of an inactive fact lies in the method that is being left, so that
no statement to come can activate it. -/
def isStranded (callee : MethodId) (f : Fact) : Except Fault Bool :=
  match f.isActive, f.taint.unit with
  | false, some unit =>
    match x.program.stmt? unit with
    | some stmt => .ok (stmt.method == callee)
    | none => .error (.unknownStatement unit)
  | _, _ => .ok false

def leave (call : Option StmtId) (callee : MethodId) (exit : StmtId) (f : Fact) : Reaction :=
  if f.isZero then {}
  else
    let f := ((call.map f.activateAt).getD f).leaveCall
    match isStranded x callee f with
    | .error fault => .fail fault
    | .ok true => {}
    | .ok false =>
      x.withStmt exit fun exitStmt =>
        let leak : Reaction := { findings := returnLeak x exitStmt f }
        match call with
        | none => leak
        | some call => leak ++ x.withStmt call fun stmt =>
          match stmt.call? with
          | none => {}
          | some invocation => x.withMethod callee fun method =>
            unbindOperands x stmt invocation method exitStmt f

/-! ## Call-to-return edges -/

/-- Whether the path is rooted at something that the call mentions, or at a static field. -/
def isOperand (call : Stmt) (invocation : Invocation) (p : AccessPath) : Bool :=
  p.isStatic || invocation.receiver.any p.startsAt || invocation.args.any p.isRootedAt
    || (call.target?.bind Value.base?).any p.startsAt

/-- What the library model makes of the fact. Taint that it puts into the receiver or a static field
may have other names. -/
def modelled (call : Stmt) (invocation : Invocation) (f : Fact) : Reaction :=
  match x.library with
  | none => {}
  | some library =>
    let concerned := f.path.isStatic || invocation.receiver.all fun receiver =>
      f.path.startsAt receiver || invocation.args.any f.path.isRootedAt
    if f.isZero || !concerned then {}
    else
      let paths := (library.derived call f.path).filter (isOperand call invocation)
      .sequence <| paths.map fun path =>
        let probe := (path.isStatic || invocation.receiver.any path.startsAt) && f.isActive
        { facts := [(f.moveTo path).visit call.id]
          handed :=
            if probe then x.handBefore call.id ((f.moveTo path).deactivate call.id) else [] }

/-- Whether the fact passes the call by. It does not if the result of the call overwrites it, nor if
it comes back through the callee or the library model. -/
def passesBy (call : Stmt) (invocation : Invocation) (f : Fact) : Bool :=
  let overwritten := call.target?.any f.path.isRootedAt
  let handled := !f.isZero && !f.path.isStatic
    && (x.entersCallee call.id || x.isExclusive call f)
    && (invocation.receiver.any f.path.startsAt
      || invocation.args.any fun arg => arg.isTransferable && f.path.isRootedAt arg)
  !overwritten && !handled

/-- What a native callee makes of the fact. -/
def throughNative (call : Stmt) (invocation : Invocation) (f : Fact) : List Fact :=
  let isNative := ((x.program.methodBySignature? invocation.method).bind x.program.method?).any
    Method.isNative
  if isNative && invocation.args.any f.path.isRootedAt then x.native call f invocation.args
  else []

/-- The fact that the call creates if it is a source and its result goes to memory. -/
def created (call : Stmt) (invocation : Invocation) (f : Fact) : List Fact :=
  if x.isSource call then
    ((call.target?.bind AccessPath.ofValue?).map fun path =>
      newFact x path call.id invocation.toValue f).toList
  else []

/-- The findings if the call is a sink: one for the arguments, one for the receiver. -/
def callLeaks (call : Stmt) (invocation : Invocation) (f : Fact) : List Finding :=
  if f.isActive && !f.isZero && x.isSink call then
    let finding := f.findingAt call.id invocation.toValue
    (if invocation.args.any f.path.isRootedAt then [finding] else [])
      ++ (if invocation.receiver.any f.path.startsAt then [finding] else [])
  else []

def bypass (call : StmtId) (f : Fact) : Reaction :=
  x.withStmt call fun stmt =>
    match stmt.call? with
    | none => .pass [f]
    | some invocation =>
      let f := f.activateAt call
      let passed := if passesBy x stmt invocation f then [f] else []
      modelled x stmt invocation f ++ {
        facts := passed ++ throughNative x stmt invocation f ++ created x stmt invocation f
        findings := callLeaks x stmt invocation f }

def react : FlowEdge → Fact → Reaction
  | .normal s, f => normal x s f
  | .enter call callee, f => enter x call callee f
  | .leave call callee exit, f => leave x call callee exit f
  | .bypass call, f => bypass x call f

end TaintFlow.Forward
