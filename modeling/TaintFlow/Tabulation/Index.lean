import TaintFlow.Program.Value

/-!
# Indices

An index files rows under statements, the newest row first. A program has few statements compared
with the rows that a run files under them, so statements are looked up one after the other.
-/

namespace TaintFlow.Tabulation

structure Index (β : Type) where
  entries : List (StmtId × List β) := []

namespace Index

variable {β : Type}

def rowsIn (s : StmtId) : List (StmtId × List β) → List β
  | [] => []
  | (t, bs) :: es => if s = t then bs else rowsIn s es

/-- The rows filed under `s`. -/
def rows (ix : Index β) (s : StmtId) : List β := rowsIn s ix.entries

def addTo (s : StmtId) (b : β) : List (StmtId × List β) → List (StmtId × List β)
  | [] => [(s, [b])]
  | (t, bs) :: es => if s = t then (t, b :: bs) :: es else (t, bs) :: addTo s b es

/-- File a row under `s`. -/
def add (ix : Index β) (s : StmtId) (b : β) : Index β := ⟨addTo s b ix.entries⟩

theorem rows_empty (s : StmtId) : ({} : Index β).rows s = [] := rfl

theorem rowsIn_addTo (s t : StmtId) (b : β) (es : List (StmtId × List β)) :
    rowsIn t (addTo s b es) = if t = s then b :: rowsIn t es else rowsIn t es := by
  induction es with
  | nil => by_cases h : t = s <;> simp [addTo, rowsIn, h]
  | cons e es ih =>
    by_cases hs : s = e.1
    · by_cases ht : t = e.1 <;> simp_all [addTo, rowsIn]
    · by_cases ht : t = e.1
      · simp [addTo, rowsIn, hs, ht, Ne.symm hs]
      · simp [addTo, rowsIn, hs, ht, ih]

theorem rows_add (ix : Index β) (s t : StmtId) (b : β) :
    (ix.add s b).rows t = if t = s then b :: ix.rows t else ix.rows t :=
  rowsIn_addTo s t b ix.entries

end Index

end TaintFlow.Tabulation
