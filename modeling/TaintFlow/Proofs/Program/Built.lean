import TaintFlow.Program.Builder
import TaintFlow.Proofs.Run

/-!
# Programs that were built

A program is built if it comes out of a description (`Program.Built`). Built programs keep to method
boundaries: a statement of a body belongs to the method of that body, and control-flow edges join
statements of one method. Both views inherit this (`View.StartsOwned`, `View.EdgesLocal`).
-/

namespace TaintFlow

namespace Direction

theorem eq_or_eq_opposite (d d' : Direction) : d' = d ∨ d' = d.opposite := by
  cases d <;> cases d' <;> simp [opposite]

theorem opposite_opposite (d : Direction) : d.opposite.opposite = d := by
  cases d <;> rfl

theorem eq_opposite {d e : Direction} (h : d.opposite = e) : d = e.opposite := by
  rw [← h, opposite_opposite]

theorem opposite_ne (d : Direction) : d.opposite ≠ d := by
  cases d <;> simp [opposite]

end Direction

/-! ## Views that keep to method boundaries -/

section

variable (p : Program) (d : Direction)

theorem Program.isCall_view : (p.view d).isCall = p.isCall := by
  cases d <;> rfl

theorem Program.ownerOf_view : (p.view d).ownerOf = p.ownerOf := by
  cases d <;> rfl

theorem Program.calleesOf_view : (p.view d).calleesOf = p.calleesOf := by
  cases d <;> rfl

theorem Program.callersOf_view : (p.view d).callersOf = p.callersOf := by
  cases d <;> rfl

end

/-- The starts of a method belong to it. -/
def View.StartsOwned (v : View) : Prop := ∀ m, ∀ s ∈ v.startsOf m, v.ownerOf s = m

/-- Control flow stays in a method. -/
def View.EdgesLocal (v : View) : Prop := ∀ s, ∀ t ∈ v.succsOf s, v.ownerOf t = v.ownerOf s

/-- One step in the description of a program. -/
inductive Description where
  | method (text : String) (isStatic isNative : Bool)
  | statement (m : MethodId) (action : Action)
  | edge (source target : StmtId)
  | callEdge (call : StmtId) (callee : MethodId)
deriving DecidableEq, Repr

namespace Builder

def follow (b : Builder) : Description → Except Error Builder
  | .method text isStatic isNative => do
    let (_, b) ← b.declare text isStatic isNative
    return b
  | .statement m action => return (b.append m action).2
  | .edge source target => return b.addEdge source target
  | .callEdge call callee => return b.addCallEdge call callee

end Builder

/-- What a description builds. -/
def Program.ofDescription (steps : List Description) : Except Error Program := do
  let b ← steps.foldlM Builder.follow {}
  b.build

def Program.Built (p : Program) : Prop := ∃ steps, Program.ofDescription steps = .ok p

namespace Builder

/-- Statements in the body of a method belong to it. -/
def BodiesOwned (b : Builder) : Prop :=
  ∀ (i : Nat) (decl : Declaration), b.methods[i]? = some decl → ∀ s ∈ decl.body,
    ∃ stmt : Stmt, b.stmts[s.index]? = some stmt ∧ stmt.method = ⟨i⟩

theorem BodiesOwned.pushStmt {b : Builder} (h : b.BodiesOwned) (stmt : Stmt)
    (refused : Option Error) :
    BodiesOwned { b with stmts := b.stmts.push stmt, refused } := by
  intro i decl hdecl s hs
  obtain ⟨old, hold, howner⟩ := h i decl hdecl s hs
  refine ⟨old, ?_, howner⟩
  have hlt : s.index < b.stmts.size := (Array.getElem?_eq_some_iff.mp hold).1
  simp only [Array.getElem?_push]
  rw [if_neg (by omega)]
  exact hold

theorem BodiesOwned.declare {b b' : Builder} {text : String} {isStatic isNative : Bool}
    {m : MethodId} (h : b.BodiesOwned) (hdecl : b.declare text isStatic isNative = .ok (m, b')) :
    b'.BodiesOwned := by
  unfold Builder.declare at hdecl
  obtain ⟨signature, -, hdecl⟩ := exists_of_bind_eq_ok hdecl
  split at hdecl
  · cases hdecl
  · cases hdecl
    intro i decl hi s hs
    simp only [Array.getElem?_push] at hi
    split at hi
    · -- the new method has no body yet
      cases hi
      cases hs
    · exact h i decl hi s hs

theorem BodiesOwned.append {b : Builder} (h : b.BodiesOwned) (m : MethodId) (action : Action) :
    (b.append m action).2.BodiesOwned := by
  have hpush := h.pushStmt ⟨⟨b.stmts.size⟩, m, action⟩
  unfold Builder.append
  split
  · exact hpush _
  · next decl hdecl =>
    split
    · exact hpush _
    · intro i decl' hi s hs
      -- every other statement of the body stood in a body before
      have howned : ∀ s ∈ decl'.body, s ≠ ⟨b.stmts.size⟩ → ∃ old, b.methods[i]? = some old ∧
          s ∈ old.body := by
        intro s hs hne
        simp only [Array.getElem?_setIfInBounds] at hi
        split at hi
        · next hmi =>
          subst hmi
          split at hi
          · cases hi
            rcases List.mem_append.mp hs with hs | hs
            · exact ⟨decl, hdecl, hs⟩
            · exact absurd (List.mem_singleton.mp hs) hne
          · cases hi
        · exact ⟨decl', hi, hs⟩
      by_cases hnew : s = ⟨b.stmts.size⟩
      · -- the statement just appended; it can only stand in the body of `m`
        subst hnew
        refine ⟨⟨⟨b.stmts.size⟩, m, action⟩, by simp, ?_⟩
        by_cases hmi : m.index = i
        · rw [← hmi]
        · simp only [Array.getElem?_setIfInBounds, if_neg hmi] at hi
          obtain ⟨old, hold, -⟩ := h i decl' hi _ hs
          have hlt := (Array.getElem?_eq_some_iff.mp hold).1
          exact absurd hlt (Nat.lt_irrefl _)
      · obtain ⟨old, hold, hmem⟩ := howned s hs hnew
        exact hpush none i old hold s hmem

theorem BodiesOwned.follow {b b' : Builder} (h : b.BodiesOwned) {step : Description}
    (hstep : b.follow step = .ok b') : b'.BodiesOwned := by
  cases step with
  | method text isStatic isNative =>
    obtain ⟨⟨m, b₁⟩, hdecl, hb₁⟩ := exists_of_bind_eq_ok hstep
    cases hb₁
    exact h.declare hdecl
  | statement m action =>
    cases hstep
    exact h.append m action
  | edge source target =>
    cases hstep
    exact h
  | callEdge call callee =>
    cases hstep
    exact h

theorem BodiesOwned.followAll {b b' : Builder} (h : b.BodiesOwned) {steps : List Description}
    (hsteps : steps.foldlM Builder.follow b = .ok b') : b'.BodiesOwned := by
  induction steps generalizing b with
  | nil =>
    cases hsteps
    exact h
  | cons step steps ih =>
    rw [List.foldlM_cons] at hsteps
    obtain ⟨b₁, hstep, hsteps⟩ := exists_of_bind_eq_ok hsteps
    exact ih (h.follow hstep) hsteps

theorem bodiesOwned_empty : ({} : Builder).BodiesOwned := by
  intro i decl hdecl
  simp at hdecl

/-! ## What a built program consists of -/

theorem getElem?_of_mapM {α β : Type} {f : α → Except Error β} {l : List α} {out : List β}
    (h : l.mapM f = .ok out) {i : Nat} {r : β} (hr : out[i]? = some r) :
    ∃ a, l[i]? = some a ∧ f a = .ok r := by
  have hrow : (l.map f)[i]? = (out.map .ok)[i]? := by
    rw [mapM_eq_ok_iff.mp h]
  rw [List.getElem?_map, List.getElem?_map, hr] at hrow
  exact Option.map_eq_some_iff.mp hrow

theorem build_eq_ok {b : Builder} {p : Program} (h : b.build = .ok p) :
    (∀ e ∈ b.edges, b.checkEdge e = .ok ()) ∧
    ∃ methods, b.methods.toList.mapM b.buildMethod = .ok methods ∧ p.methods = methods.toArray ∧
      p.stmts = b.stmts ∧
      p.succs = table b.stmts.size (fun i =>
        (b.edges.eraseDups.filter (·.1.index == i)).map (·.2)) ∧
      p.preds = table b.stmts.size (fun i =>
        (b.edges.eraseDups.filter (·.2.index == i)).map (·.1)) := by
  unfold build at h
  cases hrefused : b.refused with
  | some e =>
    rw [hrefused] at h
    cases h
  | none =>
    rw [hrefused] at h
    obtain ⟨⟨⟩, hedges, h⟩ := exists_of_bind_eq_ok h
    obtain ⟨⟨⟩, -, h⟩ := exists_of_bind_eq_ok h
    obtain ⟨methods, hmethods, h⟩ := exists_of_bind_eq_ok h
    cases h
    exact ⟨forM_eq_ok_iff.mp hedges, methods, hmethods, rfl, rfl, rfl, rfl⟩

theorem body_buildMethod {b : Builder} {decl : Declaration} {method : Method}
    (h : b.buildMethod decl = .ok method) : method.body = decl.body := by
  unfold buildMethod at h
  split at h
  · cases h
  · cases h
    rfl

theorem mem_of_mem_table {α : Type} {n i : Nat} {row : Nat → List α} {a : α}
    (h : a ∈ (table n row).getD i []) : a ∈ row i := by
  unfold table at h
  rw [Array.getD_eq_getD_getElem?] at h
  by_cases hi : i < n
  · simpa [hi] using h
  · simp [hi] at h

theorem mem_table {α : Type} {n i : Nat} {row : Nat → List α} {a : α} (hi : i < n)
    (h : a ∈ row i) : a ∈ (table n row).getD i [] := by
  unfold table
  rw [Array.getD_eq_getD_getElem?]
  simpa [hi] using h

/-- An edge that passes the check joins two statements of one method. -/
theorem owner_of_checkEdge {b : Builder} {e : StmtId × StmtId} (h : b.checkEdge e = .ok ()) :
    ∃ s t, b.stmts[e.1.index]? = some s ∧ b.stmts[e.2.index]? = some t ∧ s.method = t.method := by
  unfold checkEdge at h
  split at h
  · cases h
  · cases h
  · next s t hs ht =>
    split at h
    · next hmethod => exact ⟨s, t, hs, ht, hmethod⟩
    · cases h

end Builder

namespace Program

open Builder

variable {b : Builder} {p : Program}

theorem ownerOf_of_mem_bodyOf (hb : b.BodiesOwned) (h : b.build = .ok p) {m : MethodId} {s : StmtId}
    (hs : s ∈ p.bodyOf m) : p.ownerOf s = m := by
  obtain ⟨-, methods, hmethods, hpm, hps, -⟩ := build_eq_ok h
  unfold bodyOf method? at hs
  rw [hpm, List.getElem?_toArray] at hs
  cases hmethod : methods[m.index]? with
  | none => simp [hmethod] at hs
  | some method =>
    simp only [hmethod, Option.map_some, Option.getD_some] at hs
    obtain ⟨decl, hdecl, hbuilt⟩ := getElem?_of_mapM hmethods hmethod
    rw [Array.getElem?_toList] at hdecl
    rw [body_buildMethod hbuilt] at hs
    obtain ⟨stmt, hstmt, howner⟩ := hb m.index decl hdecl s hs
    unfold ownerOf stmt?
    rw [hps, hstmt]
    exact howner

theorem ownerOf_edge (h : b.build = .ok p) {s t : StmtId} (hst : (s, t) ∈ b.edges) :
    p.ownerOf t = p.ownerOf s := by
  obtain ⟨hedges, methods, -, -, hps, -⟩ := build_eq_ok h
  obtain ⟨stmt, stmt', hs, ht, hmethod⟩ := owner_of_checkEdge (hedges _ hst)
  unfold ownerOf stmt?
  rw [hps, hs, ht]
  exact hmethod.symm

theorem edge_of_mem_succsOf (h : b.build = .ok p) {s t : StmtId} (ht : t ∈ p.succsOf s) :
    (s, t) ∈ b.edges := by
  obtain ⟨-, methods, -, -, -, hsuccs, -⟩ := build_eq_ok h
  unfold succsOf at ht
  rw [hsuccs] at ht
  have hrow := mem_of_mem_table ht
  simp only [List.mem_map, List.mem_filter, List.mem_eraseDups, beq_iff_eq] at hrow
  obtain ⟨⟨⟨i⟩, t'⟩, ⟨hmem, rfl⟩, rfl⟩ := hrow
  exact hmem

theorem edge_of_mem_predsOf (h : b.build = .ok p) {s t : StmtId} (hs : s ∈ p.predsOf t) :
    (s, t) ∈ b.edges := by
  obtain ⟨-, methods, -, -, -, -, hpreds⟩ := build_eq_ok h
  unfold predsOf at hs
  rw [hpreds] at hs
  have hrow := mem_of_mem_table hs
  simp only [List.mem_map, List.mem_filter, List.mem_eraseDups, beq_iff_eq] at hrow
  obtain ⟨⟨s', ⟨i⟩⟩, ⟨hmem, rfl⟩, rfl⟩ := hrow
  exact hmem

/-- The two tables list the same edges. -/
theorem mem_predsOf_iff (h : b.build = .ok p) {s t : StmtId} :
    s ∈ p.predsOf t ↔ t ∈ p.succsOf s := by
  obtain ⟨hedges, methods, -, -, -, hsuccs, hpreds⟩ := build_eq_ok h
  -- edges of the description join statements that exist
  have hranged : ∀ e ∈ b.edges, e.1.index < b.stmts.size ∧ e.2.index < b.stmts.size := by
    intro e he
    obtain ⟨stmt, stmt', hs, ht, -⟩ := owner_of_checkEdge (hedges e he)
    exact ⟨(Array.getElem?_eq_some_iff.mp hs).1, (Array.getElem?_eq_some_iff.mp ht).1⟩
  constructor
  · intro hs
    have hedge := edge_of_mem_predsOf h hs
    unfold succsOf
    rw [hsuccs]
    apply mem_table (hranged _ hedge).1
    simp only [List.mem_map, List.mem_filter, List.mem_eraseDups, beq_iff_eq]
    exact ⟨(s, t), ⟨hedge, rfl⟩, rfl⟩
  · intro ht
    have hedge := edge_of_mem_succsOf h ht
    unfold predsOf
    rw [hpreds]
    apply mem_table (hranged _ hedge).2
    simp only [List.mem_map, List.mem_filter, List.mem_eraseDups, beq_iff_eq]
    exact ⟨(s, t), ⟨hedge, rfl⟩, rfl⟩

theorem Built.exists_builder (hp : p.Built) : ∃ b : Builder, b.BodiesOwned ∧ b.build = .ok p := by
  obtain ⟨steps, hsteps⟩ := hp
  obtain ⟨b, hb, hbuild⟩ := exists_of_bind_eq_ok hsteps
  exact ⟨b, bodiesOwned_empty.followAll hb, hbuild⟩

/-- Both views of a built program give every start to its own method. -/
theorem Built.startsOwned (hp : p.Built) (d : Direction) : (p.view d).StartsOwned := by
  obtain ⟨b, hb, h⟩ := hp.exists_builder
  intro m s hs
  cases d with
  | forward => exact ownerOf_of_mem_bodyOf hb h (List.mem_of_mem_take hs)
  | backward => exact ownerOf_of_mem_bodyOf hb h (List.mem_filter.mp hs).1

/-- Each view has the edges of the other, turned round. -/
theorem Built.mem_succsOf_opposite (hp : p.Built) {d : Direction} {s t : StmtId} :
    t ∈ (p.view d.opposite).succsOf s ↔ s ∈ (p.view d).succsOf t := by
  obtain ⟨b, -, h⟩ := hp.exists_builder
  cases d with
  | forward => exact mem_predsOf_iff h
  | backward => exact (mem_predsOf_iff h).symm

/-- Both views of a built program keep control flow inside methods. -/
theorem Built.edgesLocal (hp : p.Built) (d : Direction) : (p.view d).EdgesLocal := by
  obtain ⟨b, -, h⟩ := hp.exists_builder
  intro s t ht
  cases d with
  | forward => exact ownerOf_edge h (edge_of_mem_succsOf h ht)
  | backward => exact (ownerOf_edge h (edge_of_mem_predsOf h ht)).symm

end Program

end TaintFlow
