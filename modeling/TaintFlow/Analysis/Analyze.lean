import TaintFlow.Analysis.Coupled

/-!
# Analysing a program

`Setup.analyze` is the whole analysis: it checks the request, runs both directions from the entry
methods and answers with the final state, which holds the findings.
-/

namespace TaintFlow

/-- Why there is no outcome. -/
inductive Failure where
  /-- The request made no sense. -/
  | refused (error : Error)
  /-- The program contradicted itself. -/
  | faulted (fault : Fault)
  /-- The run was not over in the given number of rounds. -/
  | unfinished
deriving DecidableEq, Repr

structure Outcome where
  final : Coupled
  /-- Whether the run ended by itself and not by the cap on path edges. -/
  completed : Bool

/-- What a run from the state `c` comes to in at most `fuel` rounds. -/
def Coupled.outcome (x : Setup) (fuel : Nat) (c : Coupled) : Except Failure Outcome :=
  match Coupled.solve x fuel c with
  | .error fault => .error (.faulted fault)
  | .ok none => .error .unfinished
  | .ok (some (final, completed)) => .ok { final, completed }

namespace Setup

variable (x : Setup)

/-- Run from the given start points, in at most `fuel` rounds. -/
def runFrom (starts : List StmtId) (fuel : Nat) : Except Failure Outcome :=
  Coupled.outcome x fuel (.ofStarts starts)

/-- The start points of the entry methods, which all have to have a body. -/
def entryPoints (entries : List MethodId) : Except Error (List StmtId) := do
  return (← entries.mapM x.program.entryStarts).flatten

/-- Check the settings and the entry methods before anything else. An entry that does not exist is
reported before one that has no body. -/
def check (entries : List MethodId) : Except Error (List StmtId) := do
  match x.settings.validate with
  | .error reason => throw (.settings reason)
  | .ok _ => pure ()
  entries.forM fun m => discard (x.program.requireMethod m)
  x.entryPoints entries

def analyze (entries : List MethodId) (fuel : Nat) : Except Failure Outcome :=
  match x.check entries with
  | .error error => .error (.refused error)
  | .ok starts => x.runFrom starts fuel

/-- The analysis with its entry methods given by signature. -/
def analyzeBySignature (entries : List String) (fuel : Nat) : Except Failure Outcome :=
  match entries.mapM x.program.resolve with
  | .error error => .error (.refused error)
  | .ok methods => x.analyze methods fuel

end Setup

end TaintFlow
