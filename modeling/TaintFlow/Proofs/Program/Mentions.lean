import TaintFlow.Proofs.Program.Binding
import TaintFlow.Proofs.Program.Built

/-!
# What a program mentions

A program is finite, and so is everything that it mentions: its statements, the locals and fields
that occur in them, and the values that sources produce. In a built program the tables mention
nothing else: successors, predecessors, bodies, callers and callees are statements and methods of
the program, and the locals that a method binds to its parameters are targets of its identity
statements.
-/

namespace TaintFlow

/-! ## Locals and fields of values -/

namespace Value

mutual

/-- The locals that occur in a value. -/
def locals : Value → List Local
  | .local l => [l]
  | .field base _ => [base]
  | .element base index => base :: index.locals
  | .binop _ left right => left.locals ++ right.locals
  | .cast _ operand => operand.locals
  | .length operand => operand.locals
  | .newArray _ size => size.locals
  | .invoke receiver _ args => receiver.toList ++ localsOfAll args
  | _ => []

def localsOfAll : List Value → List Local
  | [] => []
  | v :: vs => v.locals ++ localsOfAll vs

end

mutual

/-- The fields that occur in a value. -/
def fields : Value → List FieldRef
  | .field _ f => [f]
  | .static f => [f]
  | .element _ index => index.fields
  | .binop _ left right => left.fields ++ right.fields
  | .cast _ operand => operand.fields
  | .length operand => operand.fields
  | .newArray _ size => size.fields
  | .invoke _ _ args => fieldsOfAll args
  | _ => []

def fieldsOfAll : List Value → List FieldRef
  | [] => []
  | v :: vs => v.fields ++ fieldsOfAll vs

end

theorem localsOfAll_eq (vs : List Value) : localsOfAll vs = vs.flatMap locals := by
  induction vs with
  | nil => rfl
  | cons v vs ih => rw [localsOfAll, ih, List.flatMap_cons]

theorem fieldsOfAll_eq (vs : List Value) : fieldsOfAll vs = vs.flatMap fields := by
  induction vs with
  | nil => rfl
  | cons v vs ih => rw [fieldsOfAll, ih, List.flatMap_cons]

end Value

namespace Action

/-- The values that an action reads, writes, passes or tests. -/
def values : Action → List Value
  | identity target source => [.local target, source]
  | assign target source => [target, source]
  | invoke call => [call.toValue]
  | .return result => result.toList
  | throw operand => [operand]
  | branch condition => [condition]
  | goto | nop => []

def locals (a : Action) : List Local := a.values.flatMap Value.locals

def fields (a : Action) : List FieldRef := a.values.flatMap Value.fields

/-- The value that a source produces: the call, or what an identity statement binds. -/
def origin? : Action → Option Value
  | identity _ source => some source
  | a => a.call?.map Invocation.toValue

end Action

namespace Program

variable (p : Program)

/-- The statement exists. -/
def Has (s : StmtId) : Prop := s.index < p.stmts.size

/-- Some statement of the program mentions the local. -/
def MentionsLocal (l : Local) : Prop := ∃ stmt ∈ p.stmts, l ∈ stmt.action.locals

def MentionsField (f : FieldRef) : Prop := ∃ stmt ∈ p.stmts, f ∈ stmt.action.fields

/-- Everything that occurs in the value is mentioned. -/
structure MentionsValue (v : Value) : Prop where
  locals : ∀ l ∈ v.locals, p.MentionsLocal l
  fields : ∀ f ∈ v.fields, p.MentionsField f

variable {p}

theorem exists_stmt_of_has {s : StmtId} (h : p.Has s) : ∃ stmt, p.stmt? s = some stmt :=
  ⟨_, Array.getElem?_eq_getElem h⟩

theorem has_of_stmt? {s : StmtId} {stmt : Stmt} (h : p.stmt? s = some stmt) : p.Has s :=
  (Array.getElem?_eq_some_iff.mp h).1

theorem mem_stmts {s : StmtId} {stmt : Stmt} (h : p.stmt? s = some stmt) : stmt ∈ p.stmts :=
  Array.mem_of_getElem? h

theorem genuine_of_stmts (h : ∀ stmt ∈ p.stmts, ∀ l ∈ stmt.action.locals, l.method ≠ .synthetic)
    (l : Local) (hl : p.MentionsLocal l) : l.method ≠ .synthetic := by
  obtain ⟨stmt, hstmt, hl⟩ := hl
  exact h stmt hstmt l hl

theorem mentionsValue_of_mem {stmt : Stmt} (hstmt : stmt ∈ p.stmts) {v : Value}
    (hv : v ∈ stmt.action.values) : p.MentionsValue v where
  locals _ hl := ⟨stmt, hstmt, List.mem_flatMap.mpr ⟨v, hv, hl⟩⟩
  fields _ hf := ⟨stmt, hstmt, List.mem_flatMap.mpr ⟨v, hv, hf⟩⟩

theorem mentionsValue_of_action {s : StmtId} {stmt : Stmt} (hs : p.stmt? s = some stmt) {a : Action}
    (haction : stmt.action = a) {v : Value} (hv : v ∈ a.values) : p.MentionsValue v :=
  mentionsValue_of_mem (mem_stmts hs) (haction ▸ hv)

theorem MentionsValue.of_cast {type : Ty} {v : Value} (h : p.MentionsValue (.cast type v)) :
    p.MentionsValue v where
  locals l hl := h.locals l (by simpa [Value.locals] using hl)
  fields f hf := h.fields f (by simpa [Value.fields] using hf)

/-- The call of a statement is one of its values. -/
theorem toValue_mem_values {stmt : Stmt} {invocation : Invocation}
    (h : stmt.call? = some invocation) : invocation.toValue ∈ stmt.action.values := by
  unfold Stmt.call? Action.call? at h
  -- a call stands alone, or it is what an assignment assigns
  split at h
  · next call haction =>
    cases h
    rw [haction]
    exact List.mem_singleton.mpr rfl
  · next target source haction =>
    rw [haction]
    cases source with
    | invoke receiver method args =>
      cases h
      exact List.mem_cons_of_mem _ (List.mem_singleton.mpr rfl)
    | _ => cases h
  · cases h

theorem mentionsValue_of_arg {stmt : Stmt} (hstmt : stmt ∈ p.stmts) {invocation : Invocation}
    (hcall : stmt.call? = some invocation) {v : Value} (hv : v ∈ invocation.args) :
    p.MentionsValue v := by
  have hwhole := mentionsValue_of_mem hstmt (toValue_mem_values hcall)
  constructor
  · intro l hl
    apply hwhole.locals l
    rw [Invocation.toValue, Value.locals, Value.localsOfAll_eq]
    exact List.mem_append_right _ (List.mem_flatMap.mpr ⟨v, hv, hl⟩)
  · intro f hf
    apply hwhole.fields f
    rw [Invocation.toValue, Value.fields, Value.fieldsOfAll_eq]
    exact List.mem_flatMap.mpr ⟨v, hv, hf⟩

theorem mentionsLocal_of_receiver {stmt : Stmt} (hstmt : stmt ∈ p.stmts)
    {invocation : Invocation} (hcall : stmt.call? = some invocation) {l : Local}
    (hl : invocation.receiver = some l) : p.MentionsLocal l := by
  apply (mentionsValue_of_mem hstmt (toValue_mem_values hcall)).locals l
  rw [Invocation.toValue, Value.locals, hl]
  exact List.mem_append_left _ (List.mem_singleton.mpr rfl)

theorem mentionsValue_local {l : Local} (h : p.MentionsLocal l) : p.MentionsValue (.local l) where
  locals l' hl' := by
    rw [Value.locals, List.mem_singleton] at hl'
    rw [hl']
    exact h
  fields f hf := by
    rw [Value.fields] at hf
    · cases hf
    all_goals exact nofun

theorem target_mem_values {stmt : Stmt} {v : Value} (h : stmt.target? = some v) :
    v ∈ stmt.action.values := by
  unfold Stmt.target? Action.target? at h
  split at h
  · next haction =>
    cases h
    rw [haction]
    exact List.mem_cons_self ..
  · cases h

end Program

/-! ## Statements are numbered in order -/

namespace Builder

/-- What every step of a description keeps holds after the description. -/
theorem invariant_followAll {I : Builder → Prop}
    (hstep : ∀ b step b', I b → b.follow step = .ok b' → I b') {b b' : Builder} (h : I b)
    {steps : List Description} (hsteps : steps.foldlM Builder.follow b = .ok b') : I b' := by
  induction steps generalizing b with
  | nil =>
    cases hsteps
    exact h
  | cons step steps ih =>
    rw [List.foldlM_cons] at hsteps
    obtain ⟨b₁, hfirst, hsteps⟩ := exists_of_bind_eq_ok hsteps
    exact ih (hstep b step b₁ h hfirst) hsteps

/-- Statement number `i` has the id `i`. -/
def Numbered (b : Builder) : Prop :=
  ∀ (i : Nat) (stmt : Stmt), b.stmts[i]? = some stmt → stmt.id = ⟨i⟩

theorem Numbered.append {b : Builder} (h : b.Numbered) (m : MethodId) (action : Action) :
    (b.append m action).2.Numbered := by
  -- a refused statement gets its number too
  have hstmts : (b.append m action).2.stmts = b.stmts.push ⟨⟨b.stmts.size⟩, m, action⟩ := by
    unfold Builder.append
    split
    · rfl
    · split <;> rfl
  intro i stmt hi
  rw [hstmts, Array.getElem?_push] at hi
  split at hi
  · next heq =>
    cases hi
    rw [heq]
  · exact h i stmt hi

theorem Numbered.follow {b b' : Builder} (h : b.Numbered) {step : Description}
    (hstep : b.follow step = .ok b') : b'.Numbered := by
  -- only a statement step adds a statement
  cases step with
  | method text isStatic isNative =>
    obtain ⟨⟨m, b₁⟩, hdecl, hb₁⟩ := exists_of_bind_eq_ok hstep
    cases hb₁
    unfold Builder.declare at hdecl
    obtain ⟨signature, -, hdecl⟩ := exists_of_bind_eq_ok hdecl
    split at hdecl
    · cases hdecl
    · cases hdecl
      exact h
  | statement m action =>
    cases hstep
    exact h.append m action
  | edge source target =>
    cases hstep
    exact h
  | callEdge call callee =>
    cases hstep
    exact h

/-! ## The tables of calls -/

theorem length_of_mapM {α β : Type} {f : α → Except Error β} {l : List α} {out : List β}
    (h : l.mapM f = .ok out) : out.length = l.length := by
  have hlength := congrArg List.length (mapM_eq_ok_iff.mp h)
  simpa using hlength.symm

theorem build_calls {b : Builder} {p : Program} (h : b.build = .ok p) :
    (∀ e ∈ b.callEdges, b.checkCallEdge e = .ok ()) ∧
    p.callees = table b.stmts.size b.calleesAt ∧
    p.callers = table p.methods.size (fun i =>
      ((List.range b.stmts.size).filter fun s =>
        (p.callees.getD s []).contains ⟨i⟩).map StmtId.mk) := by
  unfold build at h
  -- a builder that has refused a step builds nothing, and the checks come before the tables
  cases hrefused : b.refused with
  | some e =>
    rw [hrefused] at h
    cases h
  | none =>
    rw [hrefused] at h
    obtain ⟨⟨⟩, -, h⟩ := exists_of_bind_eq_ok h
    obtain ⟨⟨⟩, hcalls, h⟩ := exists_of_bind_eq_ok h
    obtain ⟨methods, -, h⟩ := exists_of_bind_eq_ok h
    cases h
    exact ⟨forM_eq_ok_iff.mp hcalls, rfl, by simp⟩

/-! ## Bound locals -/

/-- The locals that a method binds are targets of identity statements of its body. -/
theorem mem_buildMethod {b : Builder} {decl : Declaration} {method : Method}
    (h : b.buildMethod decl = .ok method) {l : Local}
    (hl : l ∈ method.params ∨ method.thisLocal = some l) :
    ∃ s ∈ decl.body, ∃ stmt source, b.stmts[s.index]? = some stmt ∧
      stmt.action = .identity l source := by
  have hbind := bindBody_of_buildMethod h
  -- without a body nothing is bound
  by_cases hbody : decl.body = []
  · rw [bindBody_of_nil hbody] at hbind
    cases method
    cases hbind
    simp at hl
  -- parameters and receiver are bound by the last identity statement for them
  · have hbound : ∃ source, Action.lastBound source (b.actionsOf decl) = some l := by
      rcases hl with hparam | hthis
      · rcases List.getElem?_of_mem hparam with ⟨i, hi⟩
        exact ⟨.parameter i, (params_of_bindBody hbody hbind i).symm.trans hi⟩
      · exact ⟨.this, (thisLocal_of_bindBody hbody hbind).symm.trans hthis⟩
    rcases hbound with ⟨source, hbound⟩
    rcases List.mem_filterMap.mp (Action.mem_of_lastBound hbound) with ⟨s, hs, haction⟩
    rcases Option.map_eq_some_iff.mp haction with ⟨stmt, hstmt, haction⟩
    exact ⟨s, hs, stmt, source, hstmt, haction⟩

end Builder

/-! ## Built programs -/

namespace Program.Built

open Builder

variable {p : Program}

/-- A built program comes from a builder that keeps both invariants. -/
theorem exists_numbered (hp : p.Built) :
    ∃ b : Builder, b.BodiesOwned ∧ b.Numbered ∧ b.build = .ok p := by
  obtain ⟨steps, hsteps⟩ := hp
  obtain ⟨b, hb, hbuild⟩ := exists_of_bind_eq_ok hsteps
  refine ⟨b, bodiesOwned_empty.followAll hb, ?_, hbuild⟩
  refine invariant_followAll (fun _ _ _ h hstep => Numbered.follow h hstep) ?_ hb
  intro i stmt hi
  simp at hi

theorem id_eq (hp : p.Built) {s : StmtId} {stmt : Stmt} (h : p.stmt? s = some stmt) :
    stmt.id = s := by
  obtain ⟨b, -, hnumbered, hbuild⟩ := hp.exists_numbered
  obtain ⟨-, methods, -, -, hstmts, -⟩ := build_eq_ok hbuild
  unfold stmt? at h
  rw [hstmts] at h
  exact hnumbered s.index stmt h

theorem has_edge (hp : p.Built) {s t : StmtId} (h : t ∈ p.succsOf s ∨ s ∈ p.predsOf t) :
    p.Has s ∧ p.Has t := by
  obtain ⟨b, -, hbuild⟩ := hp.exists_builder
  have hedge : (s, t) ∈ b.edges := h.elim (edge_of_mem_succsOf hbuild) (edge_of_mem_predsOf hbuild)
  obtain ⟨hedges, methods, -, -, hstmts, -⟩ := build_eq_ok hbuild
  obtain ⟨stmt, stmt', hs, ht, -⟩ := owner_of_checkEdge (hedges _ hedge)
  unfold Has
  rw [hstmts]
  exact ⟨(Array.getElem?_eq_some_iff.mp hs).1, (Array.getElem?_eq_some_iff.mp ht).1⟩

theorem has_of_mem_bodyOf (hp : p.Built) {m : MethodId} {s : StmtId} (hs : s ∈ p.bodyOf m) :
    p.Has s := by
  obtain ⟨b, hbodies, hbuild⟩ := hp.exists_builder
  obtain ⟨-, methods, hmethods, hpm, hstmts, -⟩ := build_eq_ok hbuild
  unfold bodyOf method? at hs
  rw [hpm, List.getElem?_toArray] at hs
  cases hmethod : methods[m.index]? with
  | none => simp [hmethod] at hs
  | some method =>
    simp only [hmethod, Option.map_some, Option.getD_some] at hs
    obtain ⟨decl, hdecl, hbuilt⟩ := getElem?_of_mapM hmethods hmethod
    rw [Array.getElem?_toList] at hdecl
    rw [body_buildMethod hbuilt] at hs
    obtain ⟨stmt, hstmt, -⟩ := hbodies m.index decl hdecl s hs
    unfold Has
    rw [hstmts]
    exact (Array.getElem?_eq_some_iff.mp hstmt).1

/-- Both views start methods at statements of the program. -/
theorem has_of_mem_startsOf (hp : p.Built) {d : Direction} {m : MethodId} {s : StmtId}
    (hs : s ∈ (p.view d).startsOf m) : p.Has s := by
  cases d with
  | forward => exact hp.has_of_mem_bodyOf (List.mem_of_mem_take hs)
  | backward => exact hp.has_of_mem_bodyOf (List.mem_filter.mp hs).1

/-- Both views lead from statements of the program to statements of the program. -/
theorem has_of_mem_succsOf (hp : p.Built) {d : Direction} {s t : StmtId}
    (ht : t ∈ (p.view d).succsOf s) : p.Has t := by
  cases d with
  | forward => exact (hp.has_edge (Or.inl ht)).2
  | backward => exact (hp.has_edge (Or.inr ht)).1

theorem has_of_succsOf (hp : p.Built) {d : Direction} {s t : StmtId}
    (ht : t ∈ (p.view d).succsOf s) : p.Has s := by
  cases d with
  | forward => exact (hp.has_edge (Or.inl ht)).1
  | backward => exact (hp.has_edge (Or.inr ht)).2

/-- A caller of a method is a statement that has it as callee. -/
theorem mem_calleesOf_of_mem_callersOf (hp : p.Built) {m : MethodId} {call : StmtId}
    (h : call ∈ p.callersOf m) : m ∈ p.calleesOf call := by
  obtain ⟨b, -, hbuild⟩ := hp.exists_builder
  obtain ⟨-, -, hcallers⟩ := build_calls hbuild
  unfold callersOf at h
  rw [hcallers] at h
  have hrow := mem_of_mem_table h
  simp only [List.mem_map, List.mem_filter, List.contains_iff_mem] at hrow
  obtain ⟨i, ⟨-, hmem⟩, rfl⟩ := hrow
  exact hmem

theorem has_of_mem_callersOf (hp : p.Built) {m : MethodId} {call : StmtId}
    (h : call ∈ p.callersOf m) : p.Has call := by
  obtain ⟨b, -, hbuild⟩ := hp.exists_builder
  obtain ⟨-, -, hcallers⟩ := build_calls hbuild
  obtain ⟨-, methods, -, -, hstmts, -⟩ := build_eq_ok hbuild
  unfold callersOf at h
  rw [hcallers] at h
  have hrow := mem_of_mem_table h
  simp only [List.mem_map, List.mem_filter, List.mem_range] at hrow
  obtain ⟨i, ⟨hi, -⟩, rfl⟩ := hrow
  unfold Has
  rw [hstmts]
  exact hi

/-- Only calls have callees. -/
theorem isCall_of_mem_calleesOf (hp : p.Built) {m : MethodId} {s : StmtId}
    (h : m ∈ p.calleesOf s) : p.isCall s = true := by
  obtain ⟨b, -, hbuild⟩ := hp.exists_builder
  obtain ⟨hchecked, hcallees, -⟩ := build_calls hbuild
  obtain ⟨-, methods, -, -, hstmts, -⟩ := build_eq_ok hbuild
  unfold calleesOf at h
  rw [hcallees] at h
  have hrow := mem_of_mem_table h
  unfold isCall stmt?
  rw [hstmts]
  unfold calleesAt at hrow
  -- without explicit call edges the callee is the method of the signature
  split at hrow
  · split at hrow
    · next invocation hcall =>
      obtain ⟨stmt, hstmt, hinvocation⟩ := Option.bind_eq_some_iff.mp hcall
      rw [hstmt]
      exact Option.isSome_iff_exists.mpr ⟨invocation, hinvocation⟩
    · cases hrow
  · -- explicit call edges are checked to start at calls
    rw [List.mem_eraseDups, List.mem_map] at hrow
    obtain ⟨edge, hedge, rfl⟩ := hrow
    obtain ⟨hedge, hindex⟩ := List.mem_filter.mp hedge
    rw [beq_iff_eq] at hindex
    have hcheck := hchecked edge hedge
    unfold checkCallEdge at hcheck
    rw [hindex] at hcheck
    split at hcheck
    · cases hcheck
    · next stmt hstmt =>
      rw [hstmt]
      split at hcheck
      · cases hcheck
      · next hcall => simpa using hcall

theorem isCall_of_mem_callersOf (hp : p.Built) {d : Direction} {m : MethodId} {call : StmtId}
    (h : call ∈ p.callersOf m) : (p.view d).isCall call = true := by
  rw [isCall_view]
  exact hp.isCall_of_mem_calleesOf (hp.mem_calleesOf_of_mem_callersOf h)

/-- Every callee is a method of the program. -/
theorem exists_method_of_mem_calleesOf (hp : p.Built) {m : MethodId} {call : StmtId}
    (h : m ∈ p.calleesOf call) : ∃ method, p.method? m = some method := by
  obtain ⟨b, -, hbuild⟩ := hp.exists_builder
  obtain ⟨hchecked, hcallees, -⟩ := build_calls hbuild
  obtain ⟨-, methods, hmethods, hpm, -, -⟩ := build_eq_ok hbuild
  have hlength : methods.length = b.methods.size := by simpa using length_of_mapM hmethods
  -- a signature that was found stands for a method, and an explicit call edge has been checked
  have hlt : m.index < b.methods.size := by
    unfold calleesOf at h
    rw [hcallees] at h
    have hrow := mem_of_mem_table h
    unfold calleesAt at hrow
    split at hrow
    · split at hrow
      · next invocation hcall =>
        rw [Option.mem_toList, Option.map_eq_some_iff] at hrow
        obtain ⟨i, hi, rfl⟩ := hrow
        have hbound := (List.findIdx?_eq_some_iff_getElem.mp hi).1
        simpa using hbound
      · cases hrow
    · rw [List.mem_eraseDups, List.mem_map] at hrow
      obtain ⟨edge, hedge, rfl⟩ := hrow
      have hcheck := hchecked edge (List.mem_filter.mp hedge).1
      unfold checkCallEdge at hcheck
      split at hcheck
      · cases hcheck
      · split at hcheck
        · cases hcheck
        · split at hcheck
          · cases hcheck
          · omega
  refine ⟨methods.get ⟨m.index, by omega⟩, ?_⟩
  unfold method?
  rw [hpm]
  simp

/-- A statement that has the method as callee is a caller of it. -/
theorem mem_callersOf_of_mem_calleesOf (hp : p.Built) {m : MethodId} {call : StmtId}
    (h : m ∈ p.calleesOf call) : call ∈ p.callersOf m := by
  obtain ⟨stmt, hstmt, -⟩ := (Option.any_eq_true _ _).mp (hp.isCall_of_mem_calleesOf h)
  obtain ⟨method, hmethod⟩ := hp.exists_method_of_mem_calleesOf h
  obtain ⟨b, -, hbuild⟩ := hp.exists_builder
  obtain ⟨-, -, hcallers⟩ := build_calls hbuild
  obtain ⟨-, methods, -, -, hstmts, -⟩ := build_eq_ok hbuild
  unfold callersOf
  rw [hcallers]
  apply mem_table (Array.getElem?_eq_some_iff.mp hmethod).1
  simp only [List.mem_map, List.mem_filter, List.mem_range, List.contains_iff_mem]
  refine ⟨call.index, ⟨?_, h⟩, rfl⟩
  rw [← hstmts]
  exact has_of_stmt? hstmt

/-- The locals that a method binds are targets of its identity statements. -/
theorem mentionsLocal_of_bound (hp : p.Built) {m : MethodId} {method : Method}
    (hm : p.method? m = some method) {l : Local}
    (hl : l ∈ method.params ∨ method.thisLocal = some l) : p.MentionsLocal l := by
  obtain ⟨b, -, hbuild⟩ := hp.exists_builder
  obtain ⟨-, methods, hmethods, hpm, hstmts, -⟩ := build_eq_ok hbuild
  unfold method? at hm
  rw [hpm, List.getElem?_toArray] at hm
  obtain ⟨decl, -, hbuilt⟩ := getElem?_of_mapM hmethods hm
  obtain ⟨s, -, stmt, source, hstmt, haction⟩ := mem_buildMethod hbuilt hl
  refine ⟨stmt, ?_, ?_⟩
  · rw [hstmts]
    exact Array.mem_of_getElem? hstmt
  · rw [haction]
    simp [Action.locals, Action.values, Value.locals]

end Program.Built

end TaintFlow
