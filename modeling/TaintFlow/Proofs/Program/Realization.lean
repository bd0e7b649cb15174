import TaintFlow.Proofs.Program.Description

/-!
# The graph that a description asks for

`Program.Realizes` says what the tables of a program have to be, given the description from which it
was built: statements in order, bodies, successors and predecessors, callees and callers, start
points and exits, and the locals that methods bind. Whenever a description can be built, the program
realizes it (`Program.realizes_of_build`), whatever steps of the description were refused on the
way.
-/

namespace TaintFlow

/-- The tables of the program are those that the description asks for. -/
structure Program.Realizes (p : Program) (steps : List Description) : Prop where
  stmts : p.stmts.toList = Description.statements steps
  id_eq : ∀ {s stmt}, p.stmt? s = some stmt → stmt.id = s
  bodies : ∀ m, p.bodyOf m = (p.stmts.toList.filter (·.method = m)).map Stmt.id
  /-- Control goes on where the description says so, or by falling through. -/
  succs : ∀ s t, t ∈ p.succsOf s ↔ .edge s t ∈ steps ∨ (∃ m, [s, t] <:+: p.bodyOf m) ∧
    ∃ stmt, p.stmt? s = some stmt ∧ stmt.action.fallsThrough = true
  preds : ∀ s t, s ∈ p.predsOf t ↔ t ∈ p.succsOf s
  edges_nodup : ∀ s, (p.succsOf s).Nodup ∧ (p.predsOf s).Nodup
  edges_local : ∀ {s t}, t ∈ p.succsOf s → p.ownerOf t = p.ownerOf s
  /-- Every method was declared, and under every signature that was declared there is one method. -/
  declared : ∀ {m method}, p.method? m = some method →
    ∃ text, .method text method.isStatic method.isNative ∈ steps ∧
      Signature.require text = .ok method.signature
  bySignature : ∀ signature m, p.methodBySignature? signature = some m ↔
    ∃ method, p.method? m = some method ∧ method.signature = signature
  known : ∀ {text isStatic isNative signature}, .method text isStatic isNative ∈ steps →
    Signature.require text = .ok signature → ∃ m, p.methodBySignature? signature = some m
  calls : ∀ {s}, p.isCall s = false → p.calleesOf s = []
  explicit : ∀ s, Description.calleesAt steps s ≠ [] →
    p.calleesOf s = (Description.calleesAt steps s).eraseDups
  resolved : ∀ {s stmt call}, Description.calleesAt steps s = [] → p.stmt? s = some stmt →
    stmt.call? = some call → p.calleesOf s = (p.methodBySignature? call.method).toList
  callers : ∀ s m, s ∈ p.callersOf m ↔ m ∈ p.calleesOf s
  callers_nodup : ∀ m, (p.callersOf m).Nodup
  starts : ∀ m, p.startsOf m = (p.bodyOf m).head?.toList
  exits : ∀ m s, s ∈ p.exitsOf m ↔
    (∃ stmt, p.stmt? s = some stmt ∧ stmt.method = m) ∧ p.succsOf s = []
  concrete : ∀ {m method}, p.method? m = some method →
    (method.isConcrete = true ↔ ∃ s, s ∈ p.startsOf m)
  /-- In both views the tests for starts and exits agree with the lists. -/
  tests : ∀ {s}, p.Has s → ∀ d : Direction,
    ((p.view d).isStart s = true ↔ s ∈ (p.view d).startsOf (p.ownerOf s)) ∧
    ((p.view d).isExit s = true ↔ s ∈ (p.view d.opposite).startsOf (p.ownerOf s))
  binds : ∀ {m method}, p.method? m = some method → method.isConcrete = true →
    method.params.length = method.signature.params.length ∧
    (method.thisLocal.isSome = true ↔ method.isStatic = false)
  native : ∀ {m method}, p.method? m = some method → method.isNative = true →
    p.bodyOf m = [] ∧ method.params = [] ∧ method.thisLocal = none

namespace Builder

/-! ## Rows of tables -/

theorem nodup_eraseDups {α : Type} [BEq α] [LawfulBEq α] (l : List α) : l.eraseDups.Nodup := by
  -- the induction is on the length, since the tail is filtered before it is looked at
  generalize hn : l.length = n
  induction n using Nat.strong_induction_on generalizing l with
  | _ n ih =>
    cases l with
    | nil => simp
    | cons a l =>
      have hlt : (l.filter fun b => !b == a).length < n := by
        have hle := List.length_filter_le (fun b => !b == a) l
        rw [List.length_cons] at hn
        omega
      rw [List.eraseDups_cons, List.nodup_cons]
      exact ⟨by simp, ih _ hlt _ rfl⟩

theorem getD_table {α : Type} {n i : Nat} {row : Nat → List α} (hi : i < n) :
    (table n row).getD i [] = row i := by
  unfold table
  rw [Array.getD_eq_getD_getElem?]
  simp [hi]

theorem nodup_table {α : Type} {n i : Nat} {row : Nat → List α} (h : ∀ i, (row i).Nodup) :
    ((table n row).getD i []).Nodup := by
  by_cases hi : i < n
  · rw [getD_table hi]
    exact h i
  · unfold table
    rw [Array.getD_eq_getD_getElem?]
    simp [hi]

/-- The far ends of edges that share their near end. -/
theorem nodup_ends {α β : Type} {l : List α} (hl : l.Nodup) {near : α → StmtId} {far : α → β}
    (hends : ∀ e e', near e = near e' → far e = far e' → e = e') (i : Nat) :
    ((l.filter fun e => (near e).index == i).map far).Nodup := by
  apply List.Nodup.map_on
  · intro e he e' he' hfar
    have hnear := (beq_iff_eq.mp (List.mem_filter.mp he).2).trans
      (beq_iff_eq.mp (List.mem_filter.mp he').2).symm
    exact hends e e' (congrArg StmtId.mk hnear) hfar
  · exact hl.filter _

/-! ## Methods -/

section

variable {b : Builder} {decl : Declaration} {method : Method}

theorem header_buildMethod (h : b.buildMethod decl = .ok method) :
    method.signature = decl.signature ∧ method.isStatic = decl.isStatic ∧
      method.isNative = decl.isNative := by
  unfold buildMethod at h
  split at h
  · cases h
  · cases h
    exact ⟨rfl, rfl, rfl⟩

/-- A method with a body binds every parameter, and its receiver if it has one. -/
theorem binds_buildMethod (h : b.buildMethod decl = .ok method) (hbody : decl.body ≠ []) :
    method.params.length = decl.signature.params.length ∧
      (method.thisLocal.isSome = true ↔ decl.isStatic = false) := by
  have hbind := bindBody_of_buildMethod h
  rcases (bindBody_eq_ok_iff hbody).mp hbind with ⟨hadmits, hreceiver, hparams, hthis⟩
  rw [← hthis]
  refine ⟨?_, ?_, hreceiver⟩
  · have hlength := congrArg List.length hparams
    simpa [collected] using hlength.symm
  · intro hbound
    rcases Action.isSome_lastBound_iff.mp hbound with ⟨l, hl⟩
    exact (hadmits _ hl).this l rfl

theorem unbound_buildMethod (h : b.buildMethod decl = .ok method) (hbody : decl.body = []) :
    method.params = [] ∧ method.thisLocal = none := by
  have hbind := bindBody_of_buildMethod h
  rw [bindBody_of_nil hbody, Except.ok.injEq, Prod.mk.injEq] at hbind
  exact ⟨hbind.1.symm, hbind.2.symm⟩

end

theorem refused_of_build {b : Builder} {p : Program} (h : b.build = .ok p) : b.refused = none := by
  unfold build at h
  cases hrefused : b.refused with
  | none => rfl
  | some e =>
    rw [hrefused] at h
    cases h

/-- What was declared under a number is the method with that number. -/
theorem method_of_decl {b : Builder} {p : Program} (h : b.build = .ok p) {m : MethodId}
    {decl : Declaration} (hdecl : b.methods[m.index]? = some decl) :
    ∃ method, p.method? m = some method ∧ b.buildMethod decl = .ok method := by
  obtain ⟨-, methods, hmethods, hpm, -⟩ := build_eq_ok h
  have hlength : methods.length = b.methods.size := by simpa using length_of_mapM hmethods
  have hlt := (Array.getElem?_eq_some_iff.mp hdecl).1
  have hmethod : methods[m.index]? = some (methods.get ⟨m.index, by omega⟩) := by simp
  obtain ⟨decl', hdecl', hbuilt⟩ := getElem?_of_mapM hmethods hmethod
  rw [Array.getElem?_toList] at hdecl'
  cases hdecl.symm.trans hdecl'
  refine ⟨_, ?_, hbuilt⟩
  unfold Program.method?
  rw [hpm, List.getElem?_toArray]
  exact hmethod

theorem decl_of_method {b : Builder} {p : Program} (h : b.build = .ok p) {m : MethodId}
    {method : Method} (hmethod : p.method? m = some method) :
    ∃ decl, b.methods[m.index]? = some decl ∧ b.buildMethod decl = .ok method := by
  obtain ⟨-, methods, hmethods, hpm, -⟩ := build_eq_ok h
  unfold Program.method? at hmethod
  rw [hpm, List.getElem?_toArray] at hmethod
  obtain ⟨decl, hdecl, hbuilt⟩ := getElem?_of_mapM hmethods hmethod
  rw [Array.getElem?_toList] at hdecl
  exact ⟨decl, hdecl, hbuilt⟩

end Builder

open Builder

namespace Program

variable {b : Builder} {p : Program} {steps : List Description}

/-! ## Statements and bodies -/

theorem stmts_of_build (h : b.build = .ok p) : p.stmts = b.stmts := by
  obtain ⟨-, methods, -, -, hstmts, -⟩ := build_eq_ok h
  exact hstmts

theorem stmt?_of_build (h : b.build = .ok p) (s : StmtId) : p.stmt? s = b.stmts[s.index]? := by
  unfold stmt?
  rw [stmts_of_build h]

theorem bodyOf_of_decl (h : b.build = .ok p) {m : MethodId} {decl : Declaration}
    (hdecl : b.methods[m.index]? = some decl) : p.bodyOf m = decl.body := by
  obtain ⟨method, hmethod, hbuilt⟩ := method_of_decl h hdecl
  unfold bodyOf
  rw [hmethod, Option.map_some, Option.getD_some]
  exact body_buildMethod hbuilt

theorem bodyOf_of_none (h : b.build = .ok p) {m : MethodId} (hnone : b.methods[m.index]? = none) :
    p.bodyOf m = [] := by
  unfold bodyOf
  cases hmethod : p.method? m with
  | none => rfl
  | some method =>
    obtain ⟨decl, hdecl, -⟩ := decl_of_method h hmethod
    rw [hnone] at hdecl
    cases hdecl

/-- The owner of every statement is a method of the program, and not a native one. -/
theorem exists_owner (hd : b.Describes steps) (h : b.build = .ok p) {s : StmtId} {stmt : Stmt}
    (hs : p.stmt? s = some stmt) :
    ∃ method, p.method? stmt.method = some method ∧ method.isNative = false := by
  rw [stmt?_of_build h] at hs
  obtain ⟨decl, hdecl, hnative⟩ := hd.placed stmt (Array.mem_of_getElem? hs)
  obtain ⟨method, hmethod, hbuilt⟩ := method_of_decl h hdecl
  exact ⟨method, hmethod, (header_buildMethod hbuilt).2.2.trans hnative⟩

theorem bodyOf_eq (hd : b.Describes steps) (h : b.build = .ok p) (m : MethodId) :
    p.bodyOf m = (p.stmts.toList.filter (·.method = m)).map Stmt.id := by
  rw [stmts_of_build h]
  -- a method that was never declared has no body, and no statement can have been put into it
  cases hdecl : b.methods[m.index]? with
  | some decl =>
    rw [bodyOf_of_decl h hdecl]
    exact hd.bodies m.index decl hdecl
  | none =>
    have hnobody : b.stmts.toList.filter (·.method = m) = [] := by
      apply List.filter_eq_nil_iff.mpr
      intro stmt hstmt howner
      obtain ⟨decl, hsome, -⟩ := hd.placed stmt (Array.mem_toList_iff.mp hstmt)
      rw [of_decide_eq_true howner, hdecl] at hsome
      cases hsome
    rw [bodyOf_of_none h hdecl, hnobody]
    rfl

/-- The body of a method holds the statements that it owns. -/
theorem mem_bodyOf_iff (hd : b.Describes steps) (h : b.build = .ok p) {m : MethodId} {s : StmtId} :
    s ∈ p.bodyOf m ↔ ∃ stmt, p.stmt? s = some stmt ∧ stmt.method = m := by
  rw [bodyOf_eq hd h, List.mem_map]
  constructor
  · rintro ⟨stmt, hstmt, rfl⟩
    obtain ⟨hmem, howner⟩ := List.mem_filter.mp hstmt
    obtain ⟨i, hi⟩ := List.getElem?_of_mem hmem
    rw [Array.getElem?_toList] at hi
    refine ⟨stmt, ?_, of_decide_eq_true howner⟩
    have hid := hd.id_of_getElem (stmts_of_build h ▸ hi)
    unfold stmt?
    rw [hid]
    exact hi
  · rintro ⟨stmt, hstmt, howner⟩
    refine ⟨stmt, List.mem_filter.mpr ⟨?_, decide_eq_true howner⟩, ?_⟩
    · exact Array.mem_toList_iff.mpr (mem_stmts hstmt)
    · rw [stmt?_of_build h] at hstmt
      exact hd.id_of_getElem hstmt

/-! ## Edges -/

theorem mem_succsOf_iff_edge (h : b.build = .ok p) {s t : StmtId} :
    t ∈ p.succsOf s ↔ (s, t) ∈ b.edges := by
  refine ⟨edge_of_mem_succsOf h, ?_⟩
  intro hedge
  obtain ⟨hedges, methods, -, -, -, hsuccs, -⟩ := build_eq_ok h
  obtain ⟨stmt, stmt', hs, -, -⟩ := owner_of_checkEdge (hedges _ hedge)
  unfold succsOf
  rw [hsuccs]
  apply mem_table (Array.getElem?_eq_some_iff.mp hs).1
  simp only [List.mem_map, List.mem_filter, List.mem_eraseDups, beq_iff_eq]
  exact ⟨(s, t), ⟨hedge, rfl⟩, rfl⟩

theorem mem_succsOf_iff (hd : b.Describes steps) (h : b.build = .ok p) (s t : StmtId) :
    t ∈ p.succsOf s ↔ .edge s t ∈ steps ∨ (∃ m, [s, t] <:+: p.bodyOf m) ∧
      ∃ stmt, p.stmt? s = some stmt ∧ stmt.action.fallsThrough = true := by
  have hbodies : (∃ decl ∈ b.methods, [s, t] <:+: decl.body) ↔ ∃ m, [s, t] <:+: p.bodyOf m := by
    constructor
    · rintro ⟨decl, hdecl, hinfix⟩
      obtain ⟨i, hi⟩ := Array.getElem?_of_mem hdecl
      refine ⟨⟨i⟩, ?_⟩
      rw [bodyOf_of_decl h hi]
      exact hinfix
    · rintro ⟨m, hinfix⟩
      cases hdecl : b.methods[m.index]? with
      | some decl =>
        rw [bodyOf_of_decl h hdecl] at hinfix
        exact ⟨decl, Array.mem_of_getElem? hdecl, hinfix⟩
      | none =>
        rw [bodyOf_of_none h hdecl] at hinfix
        cases List.infix_nil.mp hinfix
  rw [mem_succsOf_iff_edge h, hd.edges, FallsInto, hbodies, stmt?_of_build h]

theorem edges_nodup_of_build (h : b.build = .ok p) (s : StmtId) :
    (p.succsOf s).Nodup ∧ (p.predsOf s).Nodup := by
  obtain ⟨-, methods, -, -, -, hsuccs, hpreds⟩ := build_eq_ok h
  unfold succsOf predsOf
  rw [hsuccs, hpreds]
  constructor
  · apply nodup_table
    intro i
    exact nodup_ends (nodup_eraseDups _) (fun e e' h₁ h₂ => Prod.ext h₁ h₂) i
  · apply nodup_table
    intro i
    exact nodup_ends (nodup_eraseDups _) (fun e e' h₂ h₁ => Prod.ext h₁ h₂) i

/-! ## Calls -/

theorem signatures_of_build (h : b.build = .ok p) :
    p.methods.toList.map Method.signature = b.headers.map Declaration.signature := by
  apply List.ext_getElem?
  intro i
  unfold headers
  simp only [List.getElem?_map, Array.getElem?_toList]
  -- positions are compared rather than lists, since methods are built one by one at their places
  cases hdecl : b.methods[i]? with
  | some decl =>
    obtain ⟨method, hmethod, hbuilt⟩ := method_of_decl (m := ⟨i⟩) h hdecl
    unfold method? at hmethod
    rw [hmethod]
    exact congrArg some (header_buildMethod hbuilt).1
  | none =>
    cases hmethod : p.methods[i]? with
    | none => rfl
    | some method =>
      obtain ⟨decl, hsome, -⟩ := decl_of_method (m := ⟨i⟩) h hmethod
      cases hdecl.symm.trans hsome

theorem methodBySignature?_eq (h : b.build = .ok p) (signature : Signature) :
    p.methodBySignature? signature =
      (b.methods.toList.findIdx? fun decl => decl.signature == signature).map MethodId.mk := by
  have hfind : ∀ l : List Method, (l.findIdx? fun m => m.signature == signature) =
      (l.map Method.signature).findIdx? (· == signature) := by
    intro l
    rw [List.findIdx?_map]
    rfl
  unfold methodBySignature?
  rw [hfind, signatures_of_build h, headers, List.map_map, List.findIdx?_map]
  rfl

/-- Under a signature there is at most one method, and looking it up finds it. -/
theorem methodBySignature?_iff (hd : b.Describes steps) (h : b.build = .ok p)
    (signature : Signature) (m : MethodId) : p.methodBySignature? signature = some m ↔
      ∃ method, p.method? m = some method ∧ method.signature = signature := by
  have hnodup : (p.methods.toList.map Method.signature).Nodup :=
    signatures_of_build h ▸ hd.signatures
  have hlookup : ∀ i, p.method? ⟨i⟩ = p.methods.toList[i]? := fun i => Array.getElem?_toList.symm
  unfold methodBySignature?
  rw [Option.map_eq_some_iff]
  constructor
  · rintro ⟨i, hi, rfl⟩
    obtain ⟨hlt, hfound, -⟩ := List.findIdx?_eq_some_iff_getElem.mp hi
    exact ⟨_, (hlookup i).trans (List.getElem?_eq_getElem hlt), beq_iff_eq.mp hfound⟩
  · rintro ⟨method, hmethod, rfl⟩
    obtain ⟨hlt, hget⟩ := List.getElem?_eq_some_iff.mp ((hlookup m.index).symm.trans hmethod)
    refine ⟨m.index, List.findIdx?_eq_some_iff_getElem.mpr ⟨hlt, ?_, ?_⟩, rfl⟩
    · rw [hget, beq_self_eq_true]
    · -- an earlier method has another signature
      intro j hj hsame
      have hother := List.pairwise_iff_getElem.mp hnodup j m.index
        (by rw [List.length_map]; omega) (by rw [List.length_map]; omega) hj
      rw [List.getElem_map, List.getElem_map, hget] at hother
      exact hother (beq_iff_eq.mp hsame)

theorem calleesOf_eq (h : b.build = .ok p) {s : StmtId}
    (hs : s.index < b.stmts.size) : p.calleesOf s = b.calleesAt s.index := by
  obtain ⟨-, hcallees, -⟩ := build_calls h
  unfold calleesOf
  rw [hcallees, getD_table hs]

/-- A call with explicit call edges has these callees and no others. -/
theorem calleesOf_explicit (hd : b.Describes steps) (h : b.build = .ok p) (s : StmtId)
    (hexplicit : Description.calleesAt steps s ≠ []) :
    p.calleesOf s = (Description.calleesAt steps s).eraseDups := by
  have hrow := hd.callEdges s
  rw [← hrow] at hexplicit ⊢
  -- the call edge was checked, so that its call exists
  obtain ⟨hchecked, -, -⟩ := build_calls h
  obtain ⟨m, hm⟩ := List.exists_mem_of_ne_nil _ hexplicit
  obtain ⟨edge, hedge, -⟩ := List.mem_map.mp hm
  obtain ⟨hedge, hindex⟩ := List.mem_filter.mp hedge
  have hlt : s.index < b.stmts.size := by
    have hcheck := hchecked edge hedge
    unfold checkCallEdge at hcheck
    rw [beq_iff_eq.mp hindex] at hcheck
    split at hcheck
    · cases hcheck
    · next stmt hstmt => exact (Array.getElem?_eq_some_iff.mp hstmt).1
  rw [calleesOf_eq h hlt]
  unfold calleesAt
  split
  · next hnil => exact absurd hnil hexplicit
  · rfl

/-- A call without explicit call edges is resolved by its signature. -/
theorem calleesOf_resolved (hd : b.Describes steps) (h : b.build = .ok p) {s : StmtId} {stmt : Stmt}
    {call : Invocation} (hexplicit : Description.calleesAt steps s = [])
    (hs : p.stmt? s = some stmt) (hcall : stmt.call? = some call) :
    p.calleesOf s = (p.methodBySignature? call.method).toList := by
  rw [stmt?_of_build h] at hs
  have hrow := hd.callEdges s
  rw [hexplicit] at hrow
  rw [calleesOf_eq h (Array.getElem?_eq_some_iff.mp hs).1, methodBySignature?_eq h]
  unfold calleesAt
  rw [hrow, hs]
  simp only [Option.bind_some, hcall]

theorem callers_nodup_of_build (h : b.build = .ok p) (m : MethodId) : (p.callersOf m).Nodup := by
  obtain ⟨-, -, hcallers⟩ := build_calls h
  unfold callersOf
  rw [hcallers]
  apply nodup_table
  intro i
  apply List.Nodup.map
  · intro s t hst
    cases hst
    rfl
  · exact List.nodup_range.filter _

/-! ## Starts and exits -/

theorem mem_exitsOf_iff (hd : b.Describes steps) (h : b.build = .ok p) (m : MethodId) (s : StmtId) :
    s ∈ p.exitsOf m ↔
      (∃ stmt, p.stmt? s = some stmt ∧ stmt.method = m) ∧ p.succsOf s = [] := by
  unfold exitsOf
  rw [List.mem_filter, mem_bodyOf_iff hd h, List.isEmpty_iff]

theorem startsOf_eq_head (p : Program) (m : MethodId) :
    p.startsOf m = (p.bodyOf m).head?.toList := by
  unfold startsOf
  cases p.bodyOf m <;> rfl

theorem isConcrete_iff {m : MethodId} {method : Method} (hmethod : p.method? m = some method) :
    method.isConcrete = true ↔ ∃ s, s ∈ p.startsOf m := by
  have hbody : p.bodyOf m = method.body := by
    unfold bodyOf
    rw [hmethod]
    rfl
  rw [startsOf_eq_head, hbody]
  unfold Method.isConcrete
  cases method.body with
  | nil => simp
  | cons s body => simp

theorem isStart_iff {s : StmtId} (hs : p.Has s) :
    p.isStart s = true ↔ s ∈ p.startsOf (p.ownerOf s) := by
  obtain ⟨stmt, hstmt⟩ := exists_stmt_of_has hs
  unfold isStart ownerOf
  rw [hstmt]
  simp

theorem isExit_iff (hd : b.Describes steps) (h : b.build = .ok p) {s : StmtId} (hs : p.Has s) :
    p.isExit s = true ↔ s ∈ p.exitsOf (p.ownerOf s) := by
  obtain ⟨stmt, hstmt⟩ := exists_stmt_of_has hs
  have howner : p.ownerOf s = stmt.method := by
    unfold ownerOf
    rw [hstmt]
    rfl
  rw [mem_exitsOf_iff hd h, howner]
  unfold isExit
  rw [List.isEmpty_iff]
  constructor
  · intro hnil
    exact ⟨⟨stmt, hstmt, rfl⟩, hnil⟩
  · rintro ⟨-, hnil⟩
    exact hnil

theorem tests_of_build (hd : b.Describes steps) (h : b.build = .ok p) {s : StmtId} (hs : p.Has s)
    (d : Direction) :
    ((p.view d).isStart s = true ↔ s ∈ (p.view d).startsOf (p.ownerOf s)) ∧
    ((p.view d).isExit s = true ↔ s ∈ (p.view d.opposite).startsOf (p.ownerOf s)) := by
  cases d with
  | forward => exact ⟨isStart_iff hs, isExit_iff hd h hs⟩
  | backward => exact ⟨isExit_iff hd h hs, isStart_iff hs⟩

/-! ## Methods -/

theorem declared_of_build (hd : b.Describes steps) (h : b.build = .ok p) {m : MethodId}
    {method : Method} (hmethod : p.method? m = some method) :
    ∃ text, .method text method.isStatic method.isNative ∈ steps ∧
      Signature.require text = .ok method.signature := by
  obtain ⟨decl, hdecl, hbuilt⟩ := decl_of_method h hmethod
  obtain ⟨hsignature, hstatic, hnative⟩ := header_buildMethod hbuilt
  rw [hsignature, hstatic, hnative]
  have hheader : { decl with body := [] } ∈ b.headers :=
    List.mem_map.mpr ⟨decl, Array.mem_toList_iff.mpr (Array.mem_of_getElem? hdecl), rfl⟩
  obtain ⟨text, hmem, hparsed⟩ := hd.declared _ hheader
  exact ⟨text, hmem, hparsed⟩

theorem known_of_build (hd : b.Describes steps) (h : b.build = .ok p) {text : String}
    {isStatic isNative : Bool} {signature : Signature}
    (hmem : .method text isStatic isNative ∈ steps)
    (hsignature : Signature.require text = .ok signature) :
    ∃ m, p.methodBySignature? signature = some m := by
  obtain ⟨decl, hdecl, rfl⟩ := hd.known hmem hsignature
  have hlisted : decl.signature ∈ p.methods.toList.map Method.signature := by
    rw [signatures_of_build h]
    exact List.mem_map.mpr ⟨decl, hdecl, rfl⟩
  obtain ⟨method, hmethod, heq⟩ := List.mem_map.mp hlisted
  obtain ⟨i, hi⟩ := Array.getElem?_of_mem (Array.mem_toList_iff.mp hmethod)
  exact ⟨⟨i⟩, (methodBySignature?_iff hd h _ _).mpr ⟨method, hi, heq⟩⟩

theorem binds_of_build (h : b.build = .ok p) {m : MethodId} {method : Method}
    (hmethod : p.method? m = some method) (hconcrete : method.isConcrete = true) :
    method.params.length = method.signature.params.length ∧
      (method.thisLocal.isSome = true ↔ method.isStatic = false) := by
  obtain ⟨decl, hdecl, hbuilt⟩ := decl_of_method h hmethod
  obtain ⟨hsignature, hstatic, -⟩ := header_buildMethod hbuilt
  unfold Method.isConcrete at hconcrete
  rw [body_buildMethod hbuilt] at hconcrete
  rw [hsignature, hstatic]
  exact binds_buildMethod hbuilt (by simpa using hconcrete)

/-- A native method owns no statement, so that its body stays empty. -/
theorem native_of_build (hd : b.Describes steps) (h : b.build = .ok p) {m : MethodId}
    {method : Method} (hmethod : p.method? m = some method) (hnative : method.isNative = true) :
    p.bodyOf m = [] ∧ method.params = [] ∧ method.thisLocal = none := by
  have hbody : p.bodyOf m = [] := by
    apply List.eq_nil_iff_forall_not_mem.mpr
    intro s hs
    obtain ⟨stmt, hstmt, rfl⟩ := (mem_bodyOf_iff hd h).mp hs
    obtain ⟨owner, howner, hother⟩ := exists_owner hd h hstmt
    cases hmethod.symm.trans howner
    rw [hnative] at hother
    cases hother
  obtain ⟨decl, hdecl, hbuilt⟩ := decl_of_method h hmethod
  rw [bodyOf_of_decl h hdecl] at hbody
  exact ⟨bodyOf_of_decl h hdecl ▸ hbody, unbound_buildMethod hbuilt hbody⟩

end Program

/-- The steps that were not refused describe the same builder. -/
theorem Builder.exists_followAll (steps : List Description) :
    ∃ taken : List Description, taken.foldlM Builder.follow {} = .ok (after steps) := by
  -- from the last step on, because a step is taken by the builder that all steps before it have
  -- left
  induction steps using List.reverseRecOn with
  | nil => exact ⟨[], rfl⟩
  | append_singleton steps step ih =>
    obtain ⟨taken, htaken⟩ := ih
    rw [after_concat]
    unfold attempt
    cases hstep : (after steps).follow step with
    | error e => exact ⟨taken, htaken⟩
    | ok b =>
      refine ⟨taken ++ [step], ?_⟩
      rw [List.foldlM_append, htaken]
      change (after steps).follow step >>= pure = _
      rw [hstep]
      rfl

theorem Program.built_of_after {steps : List Description} {p : Program}
    (h : (Builder.after steps).build = .ok p) : p.Built := by
  obtain ⟨taken, htaken⟩ := Builder.exists_followAll steps
  refine ⟨taken, ?_⟩
  unfold ofDescription
  rw [htaken]
  exact h

/-- Whenever a description can be built, the program is what the description asks for. -/
theorem Program.realizes_of_build {steps : List Description} {p : Program}
    (h : (Builder.after steps).build = .ok p) : p.Realizes steps := by
  have hp := built_of_after h
  have hd := describes_after (refused_of_build h)
  -- each clause has its own lemma above; they share only that the builder describes the steps
  exact {
    stmts := (congrArg Array.toList (stmts_of_build h)).trans hd.stmts
    id_eq := hp.id_eq
    bodies := bodyOf_eq hd h
    succs := mem_succsOf_iff hd h
    preds := fun _ _ => mem_predsOf_iff h
    edges_nodup := edges_nodup_of_build h
    edges_local := hp.edgesLocal .forward _ _
    declared := declared_of_build hd h
    bySignature := methodBySignature?_iff hd h
    known := known_of_build hd h
    calls := by
      intro s hcall
      apply List.eq_nil_iff_forall_not_mem.mpr
      intro m hm
      rw [hp.isCall_of_mem_calleesOf hm] at hcall
      cases hcall
    explicit := calleesOf_explicit hd h
    resolved := calleesOf_resolved hd h
    callers := fun _ _ => ⟨hp.mem_calleesOf_of_mem_callersOf, hp.mem_callersOf_of_mem_calleesOf⟩
    callers_nodup := callers_nodup_of_build h
    starts := p.startsOf_eq_head
    exits := mem_exitsOf_iff hd h
    concrete := isConcrete_iff
    tests := tests_of_build hd h
    binds := binds_of_build h
    native := native_of_build hd h }

/-! Two declarations are refused, one without a signature and one that is there already. The body of
`choose` branches, over an edge that is added twice, and the call of `pick` goes to a native method
in spite of its signature. -/

def branching : List Description :=
  let object : Local := ⟨⟨1⟩, "o", .object "A"⟩
  let condition : Local := ⟨⟨1⟩, "c", .object "B"⟩
  let pick : Signature := ⟨"A", "void", "pick", []⟩
  [.method "<A: void pick()>" true false, .method "<A: void choose(B)>" false false,
    .method "choose" true false, .method "<A: void pick()>" true true,
    .method "<A: void load()>" true true,
    .statement ⟨0⟩ (.return none),
    .statement ⟨1⟩ (.identity object .this), .statement ⟨1⟩ (.identity condition (.parameter 0)),
    .statement ⟨1⟩ (.branch (.local condition)), .edge ⟨3⟩ ⟨6⟩,
    .statement ⟨1⟩ (.invoke ⟨none, pick, []⟩), .statement ⟨1⟩ (.invoke ⟨none, pick, []⟩),
    .statement ⟨1⟩ (.return none), .edge ⟨3⟩ ⟨6⟩, .callEdge ⟨5⟩ ⟨2⟩]

theorem Program.realizes_branching : ∃ p, (Builder.after branching).build = .ok p ∧
    p.Realizes branching ∧ p.succsOf ⟨3⟩ = [⟨6⟩, ⟨4⟩] ∧ p.calleesOf ⟨4⟩ = [⟨0⟩] ∧
    p.calleesOf ⟨5⟩ = [⟨2⟩] := by
  have hrun : ((Builder.after branching).build).toOption.any (fun p =>
      p.succsOf ⟨3⟩ == [⟨6⟩, ⟨4⟩] && p.calleesOf ⟨4⟩ == [⟨0⟩] &&
      p.calleesOf ⟨5⟩ == [⟨2⟩]) = true := by
    decide +kernel
  obtain ⟨p, hbuild, hp⟩ := exists_of_any_toOption hrun
  simp only [Bool.and_eq_true, beq_iff_eq] at hp
  exact ⟨p, hbuild, realizes_of_build hbuild, hp.1.1, hp.1.2, hp.2⟩

end TaintFlow
