import TaintFlow.Findings
import TaintFlow.Grouping

/-!
# The recorder of findings

Findings may come from several places at once. A `Recorder` takes them in one at a time, files them
by sink and counts them. Its groups stand in no particular order, so a query that goes over all
sinks sorts what it collects.
-/

namespace TaintFlow

structure Recorder where
  bySink : Grouping StmtId Finding := .empty
  count : Nat := 0

namespace Recorder

variable (r : Recorder)

def record (f : Finding) : Recorder where
  bySink := r.bySink.add f.sink f
  count := r.count + 1

def size : Nat := r.count

def isEmpty : Bool := r.count == 0

/-- The findings at one sink. -/
def atSink (sink : StmtId) : List Finding := r.bySink.under sink

/-- The sinks reached, ascending. -/
def sinks : List StmtId := r.bySink.keys.mergeSort fun a b => a.index ≤ b.index

def containsFlow (sink source : StmtId) : Bool := (r.atSink sink).any (·.source == source)

/-- All findings by sink, then source. -/
def report : List Finding := r.bySink.entries.mergeSort Finding.le

end Recorder

end TaintFlow
