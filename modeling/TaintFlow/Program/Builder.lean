import TaintFlow.Program.Graph

/-!
# Building programs

A program is described step by step: methods are declared, statements are appended to their bodies,
and explicit edges are added. A statement falls through to the one appended after it to the same
body unless it returns, throws or jumps. A call without explicit call edges resolves to the method
declared under exactly the invoked signature.

`Builder.build` checks the description and fills the tables of a `Program`. The tables are not
filled edge by edge: each row is read off the list of edges, so that a row says what it means.
-/

namespace TaintFlow

/-- A method under construction. -/
structure Declaration where
  signature : Signature
  isStatic : Bool
  isNative : Bool
  body : List StmtId := []
deriving DecidableEq, Repr

structure Builder where
  methods : Array Declaration := #[]
  stmts : Array Stmt := #[]
  /-- Control-flow edges, those of falling through included. -/
  edges : List (StmtId × StmtId) := []
  callEdges : List (StmtId × MethodId) := []
  /-- The first append that was refused; `build` reports it. -/
  refused : Option Error := none

namespace Builder

/-! ## Describing -/

def declare (b : Builder) (text : String) (isStatic isNative : Bool) :
    Except Error (MethodId × Builder) := do
  let signature ← Signature.require text
  if b.methods.toList.any (·.signature == signature) then
    throw (.malformedProgram (.declaredTwice signature))
  return (⟨b.methods.size⟩,
    { b with methods := b.methods.push { signature, isStatic, isNative } })

def refuse (b : Builder) (e : Error) : Builder :=
  { b with refused := b.refused <|> some e }

/-- The edge by which the last statement of `body` falls through to `next`. -/
def fallThrough (b : Builder) (body : List StmtId) (next : StmtId) : List (StmtId × StmtId) :=
  match body.getLast? with
  | some last =>
    if (b.stmts[last.index]?).any (·.action.fallsThrough) then [(last, next)] else []
  | none => []

/-- Append a statement to a body. The statement gets its number even if the append is refused. -/
def append (b : Builder) (m : MethodId) (action : Action) : StmtId × Builder :=
  let id : StmtId := ⟨b.stmts.size⟩
  let b' := { b with stmts := b.stmts.push ⟨id, m, action⟩ }
  match b.methods[m.index]? with
  | none => (id, b'.refuse (.unknownMethod m.text))
  | some decl =>
    if decl.isNative then (id, b'.refuse (.malformedProgram (.nativeBody decl.signature)))
    else
      (id, { b' with
        edges := b.edges ++ b.fallThrough decl.body id
        methods := b.methods.setIfInBounds m.index { decl with body := decl.body ++ [id] } })

def addEdge (b : Builder) (source target : StmtId) : Builder :=
  { b with edges := b.edges ++ [(source, target)] }

/-- An explicit call edge replaces resolution by signature at its call. -/
def addCallEdge (b : Builder) (call : StmtId) (callee : MethodId) : Builder :=
  { b with callEdges := b.callEdges ++ [(call, callee)] }

/-! ## Checking -/

def checkEdge (b : Builder) (edge : StmtId × StmtId) : Except Error Unit :=
  match b.stmts[edge.1.index]?, b.stmts[edge.2.index]? with
  | none, _ => .error (.unknownStatement edge.1)
  | _, none => .error (.unknownStatement edge.2)
  | some s, some t =>
    if s.method = t.method then .ok ()
    else .error (.malformedProgram (.crossingEdge edge.1 edge.2))

def checkCallEdge (b : Builder) (edge : StmtId × MethodId) : Except Error Unit :=
  match b.stmts[edge.1.index]? with
  | none => .error (.unknownStatement edge.1)
  | some s =>
    if !s.action.isCall then .error (.malformedProgram (.noInvocation edge.1))
    else if b.methods.size ≤ edge.2.index then .error (.unknownMethod edge.2.text)
    else .ok ()

/-! ## Binding parameters -/

/-- The locals bound so far: one slot per declared parameter, and one for the receiver. -/
structure Bindings where
  params : List (Option Local)
  thisLocal : Option Local

/-- Take note of what one statement binds. A later binding of the same slot replaces an earlier
one. -/
def bindStmt (decl : Declaration) (bound : Bindings) (action : Action) :
    Except Malformation Bindings :=
  match action with
  | .identity target (.parameter i) =>
    if i < bound.params.length then .ok { bound with params := bound.params.set i (some target) }
    else .error (.strayParameter decl.signature i)
  | .identity target .this =>
    if decl.isStatic then .error (.staticThis decl.signature)
    else .ok { bound with thisLocal := some target }
  | _ => .ok bound

/-- Every slot must be bound; the first that is not is reported. -/
def requireParams (signature : Signature) : (index : Nat) → List (Option Local) →
    Except Malformation (List Local)
  | _, [] => .ok []
  | i, none :: _ => .error (.unboundParameter signature i)
  | i, some l :: slots => do return l :: (← requireParams signature (i + 1) slots)

/-- The parameter locals and the receiver local of a body. A method without a body binds none. -/
def bindBody (b : Builder) (decl : Declaration) :
    Except Malformation (List Local × Option Local) := do
  if decl.body.isEmpty then return ([], none)
  let slots : Bindings := ⟨decl.signature.params.map fun _ => none, none⟩
  let actions := decl.body.filterMap fun s => (b.stmts[s.index]?).map Stmt.action
  let bound ← actions.foldlM (bindStmt decl) slots
  if !decl.isStatic && bound.thisLocal.isNone then throw (.unboundThis decl.signature)
  return (← requireParams decl.signature 0 bound.params, bound.thisLocal)

def buildMethod (b : Builder) (decl : Declaration) : Except Error Method :=
  match b.bindBody decl with
  | .error reason => .error (.malformedProgram reason)
  | .ok (params, thisLocal) =>
    .ok { signature := decl.signature, isStatic := decl.isStatic, isNative := decl.isNative,
          body := decl.body, params, thisLocal }

/-! ## Tables -/

/-- A table with one row per index below `n`. -/
def table {α : Type} (n : Nat) (row : Nat → List α) : Array (List α) :=
  ((List.range n).map row).toArray

/-- The methods called by statement number `i`: its explicit call edges, else the method declared
under the invoked signature. -/
def calleesAt (b : Builder) (i : Nat) : List MethodId :=
  match (b.callEdges.filter (·.1.index == i)).map (·.2) with
  | [] =>
    match (b.stmts[i]?).bind Stmt.call? with
    | some call =>
      ((b.methods.toList.findIdx? fun m => m.signature == call.method).map MethodId.mk).toList
    | none => []
  | explicit => explicit.eraseDups

def build (b : Builder) : Except Error Program := do
  if let some e := b.refused then throw e
  b.edges.forM b.checkEdge
  b.callEdges.forM b.checkCallEdge
  let methods ← b.methods.toList.mapM b.buildMethod
  -- falling through and an explicit edge may say the same
  let edges := b.edges.eraseDups
  let n := b.stmts.size
  let callees := table n b.calleesAt
  return {
    methods := methods.toArray
    stmts := b.stmts
    succs := table n fun i => (edges.filter (·.1.index == i)).map (·.2)
    preds := table n fun i => (edges.filter (·.2.index == i)).map (·.1)
    callees
    callers := table methods.length fun i =>
      ((List.range n).filter fun s => (callees.getD s []).contains ⟨i⟩).map StmtId.mk }

end Builder

end TaintFlow
