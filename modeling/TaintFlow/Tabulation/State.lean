import TaintFlow.Tabulation.Index

/-!
# The state of a tabulation

A path edge `(context, node, fact)` says that `fact` holds before `node` whenever `context` holds at
the start of the method. The state keeps every path edge ever found, once, in the order of
discovery. The first `processed` of them have been worked off and the others are the worklist, so
the table of path edges and the queue are one sequence with a cursor.

Three indices go with it: the contexts of every fact at every node, the calls through which a
context entered a method, and the exits that a context is known to reach.
-/

namespace TaintFlow.Tabulation

structure Edge (φ κ : Type) where
  context : κ
  node : StmtId
  fact : φ

structure Statistics where
  /-- Path edges worked off. -/
  propagations : Nat
  /-- Path edges that arrived through the inbox and were new. -/
  injected : Nat
  pathEdges : Nat
  summaries : Nat
  /-- How often a call found its callee summarized already. -/
  reuses : Nat
  /-- Batches taken from the worklist. -/
  iterations : Nat
deriving DecidableEq, Repr

structure State (φ κ : Type) where
  edges : Array (Edge φ κ) := #[]
  processed : Nat := 0
  /-- Under each statement, the facts that hold before it, each with a context. -/
  contexts : Index (κ × κ) := {}
  /-- Under each start point, the contexts brought to it, each with the call that did so and the
  fact before that call. -/
  incoming : Index (κ × StmtId × κ) := {}
  /-- Under each start point, contexts there, each with an exit they lead to and the fact at it. -/
  summaries : Index (κ × StmtId × φ) := {}
  inbox : List (Edge φ κ) := []
  injected : Nat := 0
  summaryCount : Nat := 0
  reuses : Nat := 0
  iterations : Nat := 0

namespace State

variable {φ κ : Type} [BEq κ] (key : φ → κ) (s : State φ κ)

/-! ## Queries -/

/-- The contexts in which a fact with this key holds before `node`. -/
def contextsOf (node : StmtId) (fact : κ) : List κ :=
  ((s.contexts.rows node).filter (·.1 == fact)).map Prod.snd

def holds (context : κ) (node : StmtId) (fact : κ) : Bool :=
  (s.contexts.rows node).contains (fact, context)

def hasFact (node : StmtId) (fact : κ) : Bool := (s.contexts.rows node).any (·.1 == fact)

def factsAt (node : StmtId) : List κ := ((s.contexts.rows node).map Prod.fst).eraseDups

def callersInto (start : StmtId) (context : κ) : List (StmtId × κ) :=
  ((s.incoming.rows start).filter (·.1 == context)).map Prod.snd

def summariesOf (start : StmtId) (context : κ) : List (StmtId × φ) :=
  ((s.summaries.rows start).filter (·.1 == context)).map Prod.snd

def worklist : List (Edge φ κ) := s.edges.toList.drop s.processed

/-- The first `most` edges of the worklist. -/
def batch (most : Nat) : List (Edge φ κ) :=
  (s.edges.extract s.processed (s.processed + most)).toList

def isIdle : Bool := s.edges.size ≤ s.processed && s.inbox.isEmpty

def statistics : Statistics where
  propagations := s.processed
  injected := s.injected
  pathEdges := s.edges.size
  summaries := s.summaryCount
  reuses := s.reuses
  iterations := s.iterations

/-! ## Updates -/

/-- Record a path edge, and thereby schedule it, if it is new. -/
def propagate (context : κ) (node : StmtId) (fact : φ) : State φ κ :=
  if s.holds context node (key fact) then s
  else { s with
    edges := s.edges.push ⟨context, node, fact⟩
    contexts := s.contexts.add node (key fact, context) }

def propagateAll (context : κ) (node : StmtId) (facts : List φ) : State φ κ :=
  facts.foldl (fun s fact => s.propagate key context node fact) s

/-- Put edges into the inbox, to be recorded at the next step. -/
def inject (edges : List (Edge φ κ)) : State φ κ := { s with inbox := s.inbox ++ edges }

/-- Record an edge from the inbox. -/
def receive (e : Edge φ κ) : State φ κ :=
  if s.holds e.context e.node (key e.fact) then s
  else { s.propagate key e.context e.node e.fact with injected := s.injected + 1 }

/-- Record every edge of the inbox. -/
def drain : State φ κ :=
  s.inbox.foldl (fun s e => s.receive key e) { s with inbox := [] }

/-- Remember that `call`, with `fact` before it, brought `context` to `start`. -/
def addCaller (start : StmtId) (context : κ) (call : StmtId) (fact : κ) : State φ κ :=
  if (s.incoming.rows start).contains (context, call, fact) then s
  else { s with incoming := s.incoming.add start (context, call, fact) }

/-- Remember that `context` at `start` leads to `fact` at `exit`. -/
def addSummary (start : StmtId) (context : κ) (exit : StmtId) (fact : φ) : State φ κ :=
  if (s.summariesOf start context).any fun (e, f) => e == exit && key f == key fact then s
  else { s with
    summaries := s.summaries.add start (context, exit, fact)
    summaryCount := s.summaryCount + 1 }

/-- The state before the first step: every seed holds in the zero context. -/
def ofSeeds (zero : κ) (seeds : List (StmtId × φ)) : State φ κ :=
  seeds.foldl (fun s (node, fact) => s.propagate key zero node fact) {}

end State

end TaintFlow.Tabulation
