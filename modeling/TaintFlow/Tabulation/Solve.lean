import TaintFlow.Tabulation.Problem
import TaintFlow.Tabulation.State

/-!
# Solving by tabulation

A step works off one batch of path edges. An edge at a call enters the callees and passes them by;
an edge at an exit returns to the calls through which its context entered; any other edge follows
normal flow. What a callee does to an entry fact is worked out once and kept as a summary. Whichever
comes first, the summary or the call that needs it, the other finds it, so a return is never missed.

Facts return only to calls that brought them in. If the problem is unbalanced, a context that no
call brought in returns to every caller instead.
-/

namespace TaintFlow.Tabulation

/-- A path edge and one of the successors to which normal flow takes its fact. -/
structure NormalFlow (φ κ : Type) where
  edge : Edge φ κ
  succ : StmtId

namespace Problem

variable {φ κ σ : Type} (P : Problem φ κ σ)

/-- The normal flows of a batch: from every edge that is not at a call to every successor. -/
def flowsOf (batch : List (Edge φ κ)) : List (NormalFlow φ κ) :=
  (batch.filter fun e => !P.view.isCall e.node).flatMap fun e =>
    (P.view.succsOf e.node).map fun succ => ⟨e, succ⟩

def follow (m : NormalFlow φ κ) : Run σ (List φ) := P.normal m.edge.node m.succ m.edge.fact

variable [BEq κ]

/-! ## Calls -/

/-- Follow the summaries of a callee, whose context is `entry`, back to the call edge `e`. -/
def reuseSummaries (e : Edge φ κ) (callee : MethodId) (start : StmtId) (entry : κ)
    (s : State φ κ) : Run σ (State φ κ) :=
  (P.order.summaries.lineUp s (s.summariesOf start entry)).foldlM (fun s (exit, fact) =>
    (P.view.returnSitesOf e.node).foldlM (fun s site => do
      let out ← P.leave e.node callee exit site fact
      return s.propagateAll P.key e.context site out) { s with reuses := s.reuses + 1 }) s

/-- Enter a callee at `start` with one entry fact. -/
def enterWith (e : Edge φ κ) (callee : MethodId) (start : StmtId) (s : State φ κ) (entry : φ) :
    Run σ (State φ κ) :=
  let context := P.key entry
  P.reuseSummaries e callee start context
    ((s.propagate P.key context start entry).addCaller start context e.node (P.key e.fact))

def enterCallee (e : Edge φ κ) (s : State φ κ) (callee : MethodId) : Run σ (State φ κ) := do
  let entries ← P.enter e.node callee e.fact
  (P.view.startsOf callee).foldlM
    (fun s start => entries.foldlM (P.enterWith e callee start) s) s

def passCall (e : Edge φ κ) (s : State φ κ) : Run σ (State φ κ) := do
  let s ← (P.view.calleesOf e.node).foldlM (P.enterCallee e) s
  (P.view.returnSitesOf e.node).foldlM (fun s site => do
    let out ← P.bypass e.node site e.fact
    return s.propagateAll P.key e.context site out) s

/-! ## Exits -/

/-- Return from the exit edge `e` to one call, before which one of `facts` held. -/
def returnTo (e : Edge φ κ) (method : MethodId) (call : StmtId) (facts : List κ)
    (s : State φ κ) : Run σ (State φ κ) :=
  (P.view.returnSitesOf call).foldlM (fun s site => do
    let out ← P.leave call method e.node site e.fact
    return facts.foldl (fun s fact =>
      (P.order.facts.lineUp s (s.contextsOf call fact)).foldl (fun s context =>
        s.propagateAll P.key context site out) s) s) s

/-- Summarize the exit edge `e` and return to every call that brought its context to `start`. -/
def returnFrom (e : Edge φ κ) (method : MethodId) (s : State φ κ) (start : StmtId) :
    Run σ (State φ κ) :=
  let s := s.addSummary P.key start e.context e.node e.fact
  let callers := s.callersInto start e.context
  let factsAt (call : StmtId) :=
    P.order.facts.lineUp s ((callers.filter (·.1 == call)).map Prod.snd)
  (P.order.calls.lineUp s (callers.map Prod.fst).eraseDups).foldlM (fun s call =>
    P.returnTo e method call (factsAt call) s) s

/-- Return to every caller. The zero context stays zero; any other starts over with the fact that
returns. -/
def returnUnbalanced (e : Edge φ κ) (method : MethodId) (s : State φ κ) : Run σ (State φ κ) :=
  match P.view.callersOf method with
  | [] => do
    P.depart method e.node e.fact
    return s
  | callers =>
    callers.foldlM (fun s call =>
      (P.view.returnSitesOf call).foldlM (fun s site => do
        let out ← P.leave call method e.node site e.fact
        return out.foldl (fun s fact =>
          let context := if P.isZero e.context then P.zero else P.key fact
          s.propagate P.key context site fact) s) s) s

def passExit (e : Edge φ κ) (s : State φ κ) : Run σ (State φ κ) := do
  let method := P.view.ownerOf e.node
  let starts := P.view.startsOf method
  -- returning adds no caller, so the order of this test and of the returns is free
  let entered := starts.any fun start => !(s.callersInto start e.context).isEmpty
  let s ← starts.foldlM (P.returnFrom e method) s
  if P.unbalanced && !entered then P.returnUnbalanced e method s else return s

/-! ## Steps -/

/-- The part of an edge's work that crosses method boundaries. -/
def cross (s : State φ κ) (e : Edge φ κ) : Run σ (State φ κ) := do
  if P.view.size ≤ e.node.index then
    throw (.unknownStatement e.node)
  let s ← if P.view.isCall e.node then P.passCall e s else pure s
  if P.view.isExit e.node then P.passExit e s else return s

/-- Record the facts to which normal flows have led. -/
def land (s : State φ κ) (flows : List (NormalFlow φ κ)) (answers : List (List φ)) : State φ κ :=
  (flows.zip answers).foldl (fun s r => s.propagateAll P.key r.1.edge.context r.1.succ r.2) s

/-- Normal flow. Flows are evaluated in the order of the schedule, in which they take effect on the
world; their facts are recorded in the order of the batch. -/
def advance (batch : List (Edge φ κ)) (s : State φ κ) : Run σ (State φ κ) := do
  let flows := P.flowsOf batch
  let turns := P.order.schedule.lineUp s (List.range flows.length)
  return P.land s flows (← Run.collect P.follow flows turns)

/-- Record the inbox, then work off one batch: first what crosses methods, then normal flow. The
answer is whether there was an edge to work off. -/
def step (batchSize : Nat) (s : State φ κ) : Run σ (State φ κ × Bool) := do
  let s := s.drain P.key
  let batch := s.batch (max batchSize 1)
  if batch.isEmpty then
    return (s, false)
  let s := { s with
    processed := s.processed + batch.length
    iterations := s.iterations + 1 }
  let s ← batch.foldlM P.cross s
  let s ← P.advance batch s
  return (s, true)

/-- Step until nothing is left to work off; nothing if `fuel` steps do not get there. -/
def solve (batchSize : Nat) : (fuel : Nat) → State φ κ → Run σ (Option (State φ κ))
  | 0, _ => return none
  | fuel + 1, s => do
    let (s, busy) ← P.step batchSize s
    if busy then solve batchSize fuel s else return some s

/-- Step until nothing is left or `most` edges have been worked off; the answer is whether nothing
is left. Every step that goes on works off at least one edge, so `most` also bounds the steps. -/
def solveWithin (batchSize most : Nat) (s : State φ κ) : Run σ (State φ κ × Bool) :=
  go (most - s.processed) s
where
  go : Nat → State φ κ → Run σ (State φ κ × Bool)
    | 0, s => return (s, s.isIdle)
    | fuel + 1, s => do
      if s.processed < most then
        let (s, busy) ← P.step batchSize s
        if busy then go fuel s else return (s, true)
      else
        return (s, s.isIdle)

end Problem

end TaintFlow.Tabulation
