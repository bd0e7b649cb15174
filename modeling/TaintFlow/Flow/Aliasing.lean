import TaintFlow.Fact

/-!
# When to look for aliases

Tainting memory that other references can reach calls for a search for those references. Tainting a
bare local does not, unless the taint lies in an object behind it; and values of primitive and
string type have no aliases that matter.
-/

namespace TaintFlow

namespace Fact

/-- Whether writing the fact to `v` may taint memory that has other names. -/
def mayAlias (f : Fact) (v : Value) : Bool :=
  if v.isConstant then false
  else if v.isFieldOrElement then true
  else match v with
    | .local l => !l.type.isPrimitiveOrString && !f.path.isLocal
    | _ => !f.path.isLocal

/-- Whether an assignment or a call carries the fact over to `v`. Alias candidates travel only to
where aliases may be. -/
def reaches (f : Fact) (v : Value) : Bool := f.mayAlias v || f.isActive

/-- Whether a search is worth its while for the fact just written to `target`. A bare local that the
write replaced has no older aliases. -/
def isWorthProbing (f : Fact) (target : Value) : Bool :=
  !(f.path.isLocal && f.path.isRootedAt target)

end Fact

end TaintFlow
