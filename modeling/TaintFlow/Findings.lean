import TaintFlow.Program.Value

/-!
# Findings

A finding says that taint from a source statement reached a sink statement. `Findings` is the log
of a run: an append-only sequence in which equal findings are kept. Every query is a view of that
sequence.
-/

namespace TaintFlow

structure Finding where
  /-- The value observed at the sink. -/
  value : Value
  sink : StmtId
  source : StmtId
  /-- The value that produced the taint at the source. -/
  origin : Value
  /-- The witness path from source to sink, if witness paths are tracked. -/
  path : Option (List StmtId) := none
deriving DecidableEq, Repr

namespace Finding

/-- The order of reports: by sink, then by source. -/
def le (a b : Finding) : Bool :=
  a.sink.index < b.sink.index || (a.sink == b.sink && a.source.index ≤ b.source.index)

end Finding

structure Findings where
  /-- In the order of recording. -/
  log : List Finding := []
deriving DecidableEq, Repr

namespace Findings

variable (fs : Findings)

def record (f : Finding) : Findings := { log := fs.log ++ [f] }

def recordAll (new : List Finding) : Findings := { log := fs.log ++ new }

def size : Nat := fs.log.length

def isEmpty : Bool := fs.log.isEmpty

/-- The findings at one sink. -/
def atSink (sink : StmtId) : List Finding := fs.log.filter (·.sink == sink)

/-- The sinks reached, ascending. -/
def sinks : List StmtId :=
  ((fs.log.map (·.sink)).eraseDups).mergeSort fun a b => a.index ≤ b.index

def containsFlow (sink source : StmtId) : Bool :=
  fs.log.any fun f => f.sink == sink && f.source == source

/-- All findings by sink, then source; findings that agree on both keep their order. -/
def report : List Finding := fs.log.mergeSort Finding.le

end Findings

end TaintFlow
