import TaintFlow.Tabulation.Solve

/-!
# Problems given by tables

A table gives flow functions extensionally: facts are numbers, `0` is the zero fact, and a row lists
the facts that one fact becomes. Where a table says nothing, facts pass unchanged along normal and
call-to-return edges and do not pass between methods. The world counts how often a fact left a
method that nothing calls.
-/

namespace TaintFlow.Tabulation

/-- The edges that a table can speak about; without an end point, all edges from there. -/
inductive FlowTable.Place where
  | normal (stmt : StmtId) (succ : Option StmtId)
  | enter (call : StmtId) (callee : MethodId)
  | leave (call : StmtId) (callee : MethodId) (exit : StmtId)
  | bypass (call : StmtId) (site : Option StmtId)
deriving DecidableEq, Repr

structure FlowTable where
  view : View
  /-- The rows for a place: what each fact becomes there. -/
  rows? : FlowTable.Place → Option (List (Nat × List Nat))
  unbalanced : Bool := false

namespace FlowTable

/-- What `fact` becomes under `rows`; a fact without a row is lost. -/
def image (rows : List (Nat × List Nat)) (fact : Nat) : List Nat :=
  ((rows.find? (·.1 == fact)).map (·.2.eraseDups)).getD []

variable (t : FlowTable)

def alongEdge (exact anywhere : Place) (fact : Nat) : List Nat :=
  match t.rows? exact <|> t.rows? anywhere with
  | some rows => image rows fact
  | none => [fact]

def acrossMethods (place : Place) (fact : Nat) : List Nat :=
  match t.rows? place with
  | some rows => image rows fact
  | none => []

def problem : Problem Nat Nat Nat where
  view := t.view
  key := id
  zero := 0
  isZero fact := fact == 0
  normal stmt succ fact := return t.alongEdge (.normal stmt (some succ)) (.normal stmt none) fact
  enter call callee fact := return t.acrossMethods (.enter call callee) fact
  leave call callee exit _ fact := return t.acrossMethods (.leave call callee exit) fact
  bypass call site fact := return t.alongEdge (.bypass call (some site)) (.bypass call none) fact
  depart _ _ _ := modify (· + 1)
  unbalanced := t.unbalanced

end FlowTable

end TaintFlow.Tabulation
