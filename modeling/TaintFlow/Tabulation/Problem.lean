import TaintFlow.Error
import TaintFlow.Program.Graph
import TaintFlow.Tabulation.State

/-!
# Data-flow problems

A data-flow problem gives, for every edge of a program view, the facts that hold after the edge when
one fact held before it. Facts are compared through `key` alone; what a fact carries beyond its key
is bookkeeping that travels along.

Flow functions may read and change a world `σ`, in which an analysis keeps its findings, and they
stop with a `Fault` on a program that contradicts itself. A problem whose flow functions leave the
world alone is a distributive data-flow problem in the usual sense.

The rows that a solver looks up form sets. They are kept in the order in which they were filed, but
a solver may go through them in any `Order`. The normal flows of a batch may be evaluated side by
side; an `Order` also says in which order they take effect on the world.
-/

namespace TaintFlow.Tabulation

/-- A computation that reads and changes a world and may stop with a fault. -/
abbrev Run (σ : Type) := StateT σ (Except Fault)

namespace Run

variable {σ α β : Type} (ask : α → Run σ (List β)) (questions : List α)

/-- Ask the question at position `i` and put the answer in its place. -/
def answerAt (answers : List (List β)) (i : Nat) : Run σ (List (List β)) :=
  match questions[i]? with
  | some question => do return answers.set i (← ask question)
  | none => return answers

/-- Ask the questions in the order of `turns`, with the answers in the order of the questions. There
is no answer to a question whose turn does not come. -/
def collect (turns : List Nat) : Run σ (List (List β)) :=
  turns.foldlM (answerAt ask questions) (questions.map fun _ => [])

end Run

/-- A way of lining up sets, which may be another one in every state. -/
structure Arrangement (τ α : Type) where
  lineUp : τ → List α → List α
  perm : ∀ t rows, (lineUp t rows).Perm rows

/-- Every set as it was filed. -/
def Arrangement.asFiled {τ α : Type} : Arrangement τ α where
  lineUp _ rows := rows
  perm _ rows := .refl rows

/-- The orders in which a solver goes through what it looks up and what it evaluates. -/
structure Order (φ κ : Type) where
  calls : Arrangement (State φ κ) StmtId := .asFiled
  /-- The facts before a call, and the contexts of such a fact. -/
  facts : Arrangement (State φ κ) κ := .asFiled
  summaries : Arrangement (State φ κ) (StmtId × φ) := .asFiled
  /-- The normal flows of a batch, given by their positions. -/
  schedule : Arrangement (State φ κ) Nat := .asFiled

/-- Normal flows are evaluated one after the other, as they come in the batch. -/
def Order.sequential {φ κ : Type} (o : Order φ κ) : Order φ κ := { o with schedule := .asFiled }

structure Problem (φ κ σ : Type) where
  view : View
  /-- What tells facts apart. -/
  key : φ → κ
  /-- The context in which seeds hold. -/
  zero : κ
  isZero : κ → Bool
  /-- From a statement to one of its successors. -/
  normal : (stmt succ : StmtId) → φ → Run σ (List φ)
  /-- From a call into a callee. -/
  enter : (call : StmtId) → (callee : MethodId) → φ → Run σ (List φ)
  /-- From an exit of the callee back to a return site of the call. -/
  leave : (call : StmtId) → (callee : MethodId) → (exit site : StmtId) → φ → Run σ (List φ)
  /-- From a call to a return site, past the callee. -/
  bypass : (call site : StmtId) → φ → Run σ (List φ)
  /-- Out of a method that nothing calls. No fact goes on from there; only the world may change. -/
  depart : (method : MethodId) → (exit : StmtId) → φ → Run σ Unit
  /-- Whether facts that entered a method through no call leave it into every caller. -/
  unbalanced : Bool := false
  order : Order φ κ := {}

end TaintFlow.Tabulation
