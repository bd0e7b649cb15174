import TaintFlow.Flow.Backward
import TaintFlow.Flow.Forward
import TaintFlow.Tabulation.Solve

/-!
# The coupled analyses

The forward and the backward analysis each have a tabulation of their own. They share the findings,
and each hands facts to the other: what one hands over arrives in the inbox of the other as an edge
from the fact to itself. A round is one step of each. The run is over when neither has anything left
to do, or when a cap on the number of path edges is reached.
-/

namespace TaintFlow

open Tabulation

/-- What flow functions change besides the table of their own analysis. -/
structure World where
  findings : Findings := {}
  /-- What has been handed to the other analysis. -/
  outbox : List (StmtId × Fact) := []

def World.absorb (w : World) (r : Reaction) : World where
  findings := w.findings.recordAll r.findings
  outbox := w.outbox ++ r.handed

namespace Setup

variable (x : Setup)

/-- Whether one finding was enough. Facts flow no further then. -/
def isHalted (findings : Findings) : Bool :=
  x.settings.stopAfterFirstFlow && !findings.isEmpty

/-- How the analysis of direction `d` reacts. A halted analysis only notices callees that do not
exist. -/
def react (d : Direction) (halted : Bool) (edge : FlowEdge) (f : Fact) : Reaction :=
  if halted then
    match edge with
    | .enter _ callee => x.withMethod callee fun _ => {}
    | _ => {}
  else match d with
    | .forward => Forward.react x edge f
    | .backward => Backward.react x edge f

/-- React, and let the reaction take effect on the world. The facts are taken in the order of
`results`. -/
def run (d : Direction) (edge : FlowEdge) (f : Fact) : Run World (List Fact) := fun w =>
  let r := x.react d (x.isHalted w.findings) edge f
  match r.fault with
  | some fault => .error fault
  | none => .ok (x.results.lineUp (d, edge, f.taint) r.facts, w.absorb r)

/-- In which order the solvers work. Only parallel evaluation leaves the schedule open. -/
def solverOrder : Order Fact Taint := if x.settings.parallel then x.order else x.order.sequential

/-- The data-flow problem of one direction. Both directions leave a method into every caller when no
call brought a fact in: an alias may be sought from the middle of a method whose callers have not
been visited. -/
def problem (d : Direction) : Problem Fact Taint World where
  view := x.program.view d
  key := Fact.taint
  zero := .zero
  isZero := Taint.isZero
  normal s _ f := x.run d (.normal s) f
  enter call callee f := x.run d (.enter call callee) f
  leave call callee exit _ f := x.run d (.leave (some call) callee exit) f
  bypass call _ f := x.run d (.bypass call) f
  depart method exit f := do
    let _ ← x.run d (.leave none method exit) f
  unbalanced := true
  order := x.solverOrder

end Setup

/-- An edge that starts over with the fact it carries. -/
def selfLoop (node : StmtId) (f : Fact) : Edge Fact Taint := ⟨f.taint, node, f⟩

structure Coupled where
  forward : State Fact Taint := {}
  backward : State Fact Taint := {}
  findings : Findings := {}
  /-- How many facts the forward analysis has handed over. -/
  probes : Nat := 0
  /-- How many facts the backward analysis has handed over. -/
  aliases : Nat := 0
  rounds : Nat := 0

namespace Coupled

/-- Before the first step: nothing is tainted at the start points. -/
def ofStarts (starts : List StmtId) : Coupled where
  forward := State.ofSeeds Fact.taint .zero (starts.map fun s => (s, .zero))

variable (x : Setup) (c : Coupled)

def state : Direction → State Fact Taint
  | .forward => c.forward
  | .backward => c.backward

def setState (d : Direction) (s : State Fact Taint) : Coupled :=
  match d with
  | .forward => { c with forward := s }
  | .backward => { c with backward := s }

def isIdle : Bool := c.forward.isIdle && c.backward.isIdle

/-- The number of path edges worked off on both sides. -/
def propagations : Nat := c.forward.processed + c.backward.processed

/-- Deliver what the analysis of direction `d` has handed over. -/
def deliver (d : Direction) (outbox : List (StmtId × Fact)) : Coupled :=
  let edges := outbox.map fun (node, f) => selfLoop node f
  match d with
  | .forward => { c with
    backward := c.backward.inject edges
    probes := c.probes + edges.length }
  | .backward => { c with
    forward := c.forward.inject edges
    aliases := c.aliases + edges.length }

/-- Let one analysis work, then deliver. -/
def work {α : Type} (d : Direction)
    (act : Problem Fact Taint World → State Fact Taint → Run World (State Fact Taint × α)) :
    Except Fault (Coupled × α) := do
  let ((s, a), w) ← act (x.problem d) (c.state d) { findings := c.findings }
  return (({ c.setState d s with findings := w.findings }).deliver d w.outbox, a)

def step (d : Direction) : Except Fault (Coupled × Bool) :=
  c.work x d fun P s => P.step x.settings.batchSize s

/-- One step of each analysis, forward first. -/
def round : Except Fault (Coupled × Bool) := do
  let (c, forwardBusy) ← c.step x .forward
  let (c, backwardBusy) ← c.step x .backward
  return ({ c with rounds := c.rounds + 1 }, forwardBusy || backwardBusy)

/-- Whether the cap on path edges stops the run; no cap is written as `0`. -/
def isCapped : Bool :=
  0 < x.settings.maxPropagations && x.settings.maxPropagations ≤ c.propagations

/-- Rounds until the run is over, with the answer whether it ended by itself and not by the cap;
nothing if `fuel` rounds do not get there. -/
def solve : (fuel : Nat) → Coupled → Except Fault (Option (Coupled × Bool))
  | 0, _ => return none
  | fuel + 1, c => do
    let (c, busy) ← c.round x
    if !busy && c.isIdle then return some (c, true)
    else if c.isCapped x then return some (c, false)
    else solve fuel c

end Coupled

end TaintFlow
