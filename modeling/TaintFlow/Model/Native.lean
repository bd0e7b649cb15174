import TaintFlow.Fact
import TaintFlow.Program.Stmt

/-!
# Native calls

The body of a native method is out of reach. A tainted argument may flow into every object that is
passed along with it, and into the result. Copying an array is known better: only the destination
is written, and only from the source.
-/

namespace TaintFlow

/-- The facts that a native call with the given arguments derives from a fact that reaches it. -/
abbrev NativeModel := Stmt → Fact → List Value → List Fact

namespace NativeModel

/-- The values that may hold the taint afterwards, the result of the call aside. -/
def written (s : Stmt) (f : Fact) (args : List Value) : List Value :=
  if s.call?.any (·.method.name == "arraycopy") then
    -- arraycopy(source, sourcePosition, destination, destinationPosition, length)
    match args with
    | source :: _ :: destination :: _ => if f.path.isRootedAt source then [destination] else []
    | _ => []
  else args.filter Value.isTransferable

def conservative : NativeModel := fun s f args =>
  let targets := (written s f args ++ s.target?.toList).filterMap AccessPath.ofValue?
  Fact.distinct ((targets.filter (· ≠ f.path)).map fun path => (f.moveTo path).visit s.id)

end NativeModel

end TaintFlow
