import TaintFlow.Signature

/-!
# Locations and values of the analysed program

Programs are in three-address form. A value is what an assignment reads or writes, what a call
passes, or what a branch tests. Only four shapes name a memory location: a local, an instance
field, a static field and an array element.

Every type has one printed form (`text`), the one that findings and error messages show.
-/

namespace TaintFlow

structure MethodId where
  index : Nat
deriving DecidableEq, Repr

structure StmtId where
  index : Nat
deriving DecidableEq, Repr

/-- The owner of the local that stands for "no taint"; no program declares it. -/
def MethodId.synthetic : MethodId := ⟨4294967295⟩

/-- The source statement of the fact that stands for "no taint". -/
def StmtId.synthetic : StmtId := ⟨4294967295⟩

def MethodId.text (m : MethodId) : String := "m" ++ m.index.repr

def StmtId.text (s : StmtId) : String := "s" ++ s.index.repr

inductive Ty where
  | primitive (name : String)
  | string
  | object (className : String)
  | array (elem : Ty)
  | null
deriving DecidableEq, Repr

namespace Ty

def text : Ty → String
  | primitive name => name
  | string => "java.lang.String"
  | object className => className
  | array elem => elem.text ++ "[]"
  | null => "null_type"

/-- Values of these types are passed by value: a callee cannot change what the caller holds. -/
def isPrimitiveOrString : Ty → Bool
  | primitive _ | string => true
  | _ => false

def isArray : Ty → Bool
  | array _ => true
  | _ => false

end Ty

/-- A local variable. Two locals are the same only if owner, name and type agree. -/
structure Local where
  method : MethodId
  name : String
  type : Ty
deriving DecidableEq, Repr

structure FieldRef where
  className : String
  name : String
deriving DecidableEq, Repr

def FieldRef.text (f : FieldRef) : String := f.className ++ "." ++ f.name

inductive Value where
  | local (l : Local)
  | field (base : Local) (f : FieldRef)
  | static (f : FieldRef)
  | element (base : Local) (index : Value)
  | int (n : Int)
  | string (s : String)
  | null
  | caughtException
  | parameter (index : Nat)
  | this
  | binop (op : String) (left right : Value)
  | cast (type : Ty) (operand : Value)
  | length (operand : Value)
  | new (className : String)
  | newArray (elem : Ty) (size : Value)
  | invoke (receiver : Option Local) (method : Signature) (args : List Value)
deriving Repr

namespace Value

mutual

def decEq (a b : Value) : Decidable (a = b) :=
  -- equal values have the same shape, so only sixteen pairs of shapes are left to compare
  if h : a.ctorIdx = b.ctorIdx then
    match a, b, h with
    | .local l, .local l', _ => decidable_of_iff (l = l') (by simp)
    | .field x f, .field x' f', _ => decidable_of_iff (x = x' ∧ f = f') (by simp)
    | .static f, .static f', _ => decidable_of_iff (f = f') (by simp)
    | .element x i, .element x' i', _ =>
      have := decEq i i'
      decidable_of_iff (x = x' ∧ i = i') (by simp)
    | .int n, .int n', _ => decidable_of_iff (n = n') (by simp)
    | .string s, .string s', _ => decidable_of_iff (s = s') (by simp)
    | .null, .null, _ => isTrue rfl
    | .caughtException, .caughtException, _ => isTrue rfl
    | .parameter i, .parameter i', _ => decidable_of_iff (i = i') (by simp)
    | .this, .this, _ => isTrue rfl
    | .binop o l r, .binop o' l' r', _ =>
      have := decEq l l'
      have := decEq r r'
      decidable_of_iff (o = o' ∧ l = l' ∧ r = r') (by simp)
    | .cast t v, .cast t' v', _ =>
      have := decEq v v'
      decidable_of_iff (t = t' ∧ v = v') (by simp)
    | .length v, .length v', _ =>
      have := decEq v v'
      decidable_of_iff (v = v') (by simp)
    | .new c, .new c', _ => decidable_of_iff (c = c') (by simp)
    | .newArray t v, .newArray t' v', _ =>
      have := decEq v v'
      decidable_of_iff (t = t' ∧ v = v') (by simp)
    | .invoke r m as, .invoke r' m' as', _ =>
      have := decEqList as as'
      decidable_of_iff (r = r' ∧ m = m' ∧ as = as') (by simp)
  else isFalse fun e => h (congrArg Value.ctorIdx e)

def decEqList : (as bs : List Value) → Decidable (as = bs)
  | [], [] => isTrue rfl
  | a :: as, b :: bs =>
    have := decEq a b
    have := decEqList as bs
    decidable_of_iff (a = b ∧ as = bs) (by simp)
  | [], _ :: _ => isFalse (by simp)
  | _ :: _, [] => isFalse (by simp)

end

instance : DecidableEq Value := decEq

mutual

def text : Value → String
  | .local l => l.name
  | .field base f => base.name ++ "." ++ f.name
  | .static f => f.text
  | .element base index => base.name ++ "[" ++ index.text ++ "]"
  | .int n => toString n
  | .string s => "\"" ++ s ++ "\""
  | .null => "null"
  | .caughtException => "@caughtexception"
  | .parameter index => "@parameter" ++ index.repr
  | .this => "@this"
  | .binop op left right => left.text ++ " " ++ op ++ " " ++ right.text
  | .cast type operand => "(" ++ type.text ++ ") " ++ operand.text
  | .length operand => "lengthof " ++ operand.text
  | .new className => "new " ++ className
  | .newArray elem size => "newarray (" ++ elem.text ++ ")[" ++ size.text ++ "]"
  | .invoke none method args =>
    "staticinvoke " ++ method.text ++ "(" ++ String.intercalate ", " (texts args) ++ ")"
  | .invoke (some receiver) method args =>
    receiver.name ++ "." ++ method.text ++ "(" ++ String.intercalate ", " (texts args) ++ ")"

def texts : List Value → List String
  | [] => []
  | v :: vs => v.text :: texts vs

end

def asLocal? : Value → Option Local
  | .local l => some l
  | _ => none

/-- The local through which the value reads or writes memory. -/
def base? : Value → Option Local
  | .local l => some l
  | .field base _ => some base
  | .element base _ => some base
  | _ => none

def isConstant : Value → Bool
  | .int _ | .string _ | .null => true
  | _ => false

def isFieldOrElement : Value → Bool
  | .field _ _ | .static _ | .element _ _ => true
  | _ => false

/-- The static type, where the value carries one. -/
def type? : Value → Option Ty
  | .local l => some l.type
  | .cast type _ => some type
  | _ => none

/-- Whether a callee can change what the caller reaches through this argument. -/
def isTransferable (v : Value) : Bool :=
  !(v.isConstant || v.type?.any Ty.isPrimitiveOrString)

/-- The operands whose taint an assignment of this value copies. -/
def operands : Value → List Value
  | .binop _ left right => [left, right]
  | .cast _ operand => [operand]
  | .length operand => [operand]
  | .new _ | .newArray _ _ | .int _ | .string _ | .null => []
  | v => [v]

end Value

/-- A call: the receiver of an instance call, the method named at the call site, the arguments. -/
structure Invocation where
  receiver : Option Local
  method : Signature
  args : List Value
deriving DecidableEq, Repr

namespace Invocation

def toValue (call : Invocation) : Value := .invoke call.receiver call.method call.args

def ofValue? : Value → Option Invocation
  | .invoke receiver method args => some ⟨receiver, method, args⟩
  | _ => none

def text (call : Invocation) : String := call.toValue.text

/-- Whether `l` itself is passed as an argument. -/
def passes (call : Invocation) (l : Local) : Bool :=
  call.args.any fun arg => arg.asLocal? == some l

end Invocation

end TaintFlow
