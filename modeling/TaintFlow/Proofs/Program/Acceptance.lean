import TaintFlow.Proofs.Program.Realization
import TaintFlow.Proofs.Signature.Grammar

/-!
# Descriptions that can be built

What is wrong with a description is noticed at different times: a statement that nobody owns when it
is appended, the rest when the program is built, edge by edge and method by method, and only the
first mistake is reported. `Description.WellFormed` says on the description alone what there is to
be right. A builder that followed the description can be built if and only if it is well-formed
(`Builder.exists_build_iff_wellFormed`), so that no mistake goes unnoticed and nothing else is
refused.
-/

namespace TaintFlow

namespace Description

/-- The method that a step declares. -/
def header? : Description → Option Declaration
  | .method text isStatic isNative =>
    (Signature.parse? text).map fun signature => { signature, isStatic, isNative }
  | _ => none

/-- The methods that a description declares, without bodies, in order. -/
def declarations (steps : List Description) : List Declaration := steps.filterMap header?

/-- What a description appends to the body of a method. -/
def appendedTo (steps : List Description) (m : MethodId) : List Action :=
  ((statements steps).filter (·.method = m)).map Stmt.action

/-- Every statement goes to a method that was declared before it and is not native. -/
def Placed (steps : List Description) : Prop :=
  ∀ before m action after, steps = before ++ .statement m action :: after →
    ∃ decl, (declarations before)[m.index]? = some decl ∧ decl.isNative = false

/-- The description is in order: statements have owners, edges stay in a method, call edges lead
from a call to a method, and bodies bind what their methods declare. -/
structure WellFormed (steps : List Description) : Prop where
  placed : Placed steps
  edges : ∀ s t, .edge s t ∈ steps → ∃ source target, (statements steps)[s.index]? = some source ∧
    (statements steps)[t.index]? = some target ∧ source.method = target.method
  callEdges : ∀ call callee, .callEdge call callee ∈ steps →
    (∃ stmt invocation, (statements steps)[call.index]? = some stmt ∧
      stmt.call? = some invocation) ∧
      ∃ decl, (declarations steps)[callee.index]? = some decl
  bodies : ∀ i decl, (declarations steps)[i]? = some decl → appendedTo steps ⟨i⟩ ≠ [] →
    Builder.Binds decl.signature decl.isStatic (appendedTo steps ⟨i⟩)

theorem mem_calleesAt_iff {steps : List Description} {call : StmtId} {callee : MethodId} :
    callee ∈ calleesAt steps call ↔ .callEdge call callee ∈ steps := by
  have hcallee : ∀ step : Description,
      step.callee? call = some callee ↔ step = .callEdge call callee := by
    intro step
    cases step <;> simp [callee?]
  unfold calleesAt
  rw [List.mem_filterMap]
  simp only [hcallee, exists_eq_right]

theorem placed_concat {steps : List Description} {step : Description} :
    Placed (steps ++ [step]) ↔ Placed steps ∧ ∀ m action, step = .statement m action →
      ∃ decl, (declarations steps)[m.index]? = some decl ∧ decl.isNative = false := by
  unfold Placed
  constructor
  · intro h
    refine ⟨?_, ?_⟩
    · rintro before m action after rfl
      exact h before m action (after ++ [step]) (by simp)
    · rintro m action rfl
      exact h steps m action [] rfl
  · rintro ⟨hold, hnew⟩ before m action after heq
    -- the statement is the last step or one of those before it
    cases after using List.reverseRecOn with
    | nil =>
      rcases List.append_inj' heq rfl with ⟨rfl, hstep⟩
      exact hnew m action (List.singleton_inj.mp hstep)
    | append_singleton after last =>
      rw [← List.cons_append, ← List.append_assoc] at heq
      rcases List.append_inj' heq rfl with ⟨rfl, -⟩
      exact hold before m action after rfl

end Description

namespace Builder

open Description TaintFlow.Action

variable {b : Builder} {steps : List Description}

/-! ## What a builder has followed -/

theorem headers_append (b : Builder) (m : MethodId) (action : Action) :
    (b.append m action).2.headers = b.headers := by
  unfold append
  split
  · rfl
  · next decl hdecl =>
    split
    · rfl
    · exact headers_grown hdecl action

theorem getElem?_headers (b : Builder) (i : Nat) :
    b.headers[i]? = (b.methods[i]?).map fun decl => { decl with body := [] } := by
  unfold headers
  rw [List.getElem?_map, Array.getElem?_toList]

/-- The builder has a method with this number that may have a body. -/
def Takes (b : Builder) (m : MethodId) : Prop :=
  ∃ decl, b.headers[m.index]? = some decl ∧ decl.isNative = false

theorem takes_iff {m : MethodId} :
    b.Takes m ↔ ∃ decl, b.methods[m.index]? = some decl ∧ decl.isNative = false := by
  unfold Takes
  rw [getElem?_headers]
  constructor
  · rintro ⟨header, hheader, hnative⟩
    rcases Option.map_eq_some_iff.mp hheader with ⟨decl, hdecl, rfl⟩
    exact ⟨decl, hdecl, hnative⟩
  · rintro ⟨decl, hdecl, hnative⟩
    exact ⟨_, Option.map_eq_some_iff.mpr ⟨decl, hdecl, rfl⟩, hnative⟩

/-- A step that is not refused adds the method that it declares, if it declares one. -/
theorem headers_follow {b' : Builder} {step : Description} (h : b.follow step = .ok b') :
    b'.headers = b.headers ++ step.header?.toList := by
  -- only a declaration adds a header; statements go into a body, which a header leaves out
  cases step with
  | method text isStatic isNative =>
    rcases exists_of_bind_eq_ok h with ⟨⟨m, b₁⟩, hdeclare, hb₁⟩
    cases hb₁
    unfold declare at hdeclare
    rcases exists_of_bind_eq_ok hdeclare with ⟨signature, hsignature, hdeclare⟩
    split at hdeclare
    · cases hdeclare
    · cases hdeclare
      simp [headers, header?, Signature.require_eq_ok_iff.mp hsignature]
  | statement m action =>
    cases h
    rw [headers_append]
    simp [header?]
  | edge s t =>
    cases h
    simp [headers, addEdge, header?]
  | callEdge call callee =>
    cases h
    simp [headers, addCallEdge, header?]

theorem refused_append {m : MethodId} {action : Action} :
    (b.append m action).2.refused = none ↔ b.refused = none ∧ b.Takes m := by
  rw [takes_iff]
  constructor
  · intro h
    rcases took_append h with ⟨hrefused, htook⟩
    generalize (b.append m action).2 = b' at htook
    cases htook with
    | appended hdecl hnative => exact ⟨hrefused, _, hdecl, hnative⟩
  · rintro ⟨hrefused, decl, hdecl, hnative⟩
    unfold append
    rw [hdecl]
    simp [hnative, hrefused]

/-- A step spoils a builder only if it appends a statement that the builder cannot take. -/
theorem refused_follow {b' : Builder} {step : Description} (h : b.follow step = .ok b') :
    b'.refused = none ↔ b.refused = none ∧ ∀ m action, step = .statement m action → b.Takes m := by
  cases step with
  | method text isStatic isNative =>
    rcases exists_of_bind_eq_ok h with ⟨r, hdeclare, hr⟩
    cases hr
    rw [(took_declare hdeclare).2]
    simp
  | statement m action =>
    cases h
    rw [refused_append]
    simp
  | edge s t =>
    cases h
    simp [addEdge]
  | callEdge call callee =>
    cases h
    simp [addCallEdge]

/-- A whole description: the methods of the builder are those declared, and it is spoiled if and
only if some statement has no place. -/
theorem followAll (h : steps.foldlM Builder.follow {} = .ok b) :
    b.headers = declarations steps ∧ (b.refused = none ↔ Placed steps) := by
  -- from the last step, since a statement needs a method declared before it
  induction steps using List.reverseRecOn generalizing b with
  | nil =>
    cases h
    exact ⟨rfl, iff_of_true rfl (by simp [Placed])⟩
  | append_singleton steps step ih =>
    rw [List.foldlM_append, bind_eq_ok_iff] at h
    rcases h with ⟨b₁, hsteps, hstep⟩
    simp only [List.foldlM_cons, List.foldlM_nil, bind_pure] at hstep
    rcases ih hsteps with ⟨hheaders, hplaced⟩
    refine ⟨?_, ?_⟩
    · rw [headers_follow hstep, hheaders]
      cases hheader : step.header? <;> simp [declarations, hheader]
    · rw [refused_follow hstep, hplaced, placed_concat]
      unfold Takes
      rw [hheaders]

/-! ## Checks -/

theorem checkEdge_iff {e : StmtId × StmtId} : b.checkEdge e = .ok () ↔
    ∃ s t, b.stmts[e.1.index]? = some s ∧ b.stmts[e.2.index]? = some t ∧ s.method = t.method := by
  refine ⟨owner_of_checkEdge, ?_⟩
  rintro ⟨s, t, hs, ht, hmethod⟩
  unfold checkEdge
  rw [hs, ht]
  simp [hmethod]

theorem checkCallEdge_iff {e : StmtId × MethodId} : b.checkCallEdge e = .ok () ↔
    (∃ stmt invocation, b.stmts[e.1.index]? = some stmt ∧ stmt.call? = some invocation) ∧
      ∃ decl, b.headers[e.2.index]? = some decl := by
  have hcallee : (∃ decl, b.headers[e.2.index]? = some decl) ↔ e.2.index < b.methods.size := by
    rw [← Option.isSome_iff_exists]
    simp [headers]
  rw [hcallee]
  unfold checkCallEdge
  -- the call has to be there and be a call, the callee to be declared
  cases b.stmts[e.1.index]? with
  | none => simp
  | some stmt =>
    have hcall : stmt.action.isCall = true ↔ ∃ invocation, stmt.call? = some invocation :=
      Option.isSome_iff_exists
    by_cases hcalls : stmt.action.isCall = true
    · have hstmt := hcall.mp hcalls
      simp [hcalls, hstmt]
    · have hstmt := mt hcall.mpr hcalls
      simp [hcalls, not_exists.mp hstmt]

theorem exists_buildMethod_iff {decl : Declaration} :
    (∃ method, b.buildMethod decl = .ok method) ↔ ∃ r, b.bindBody decl = .ok r := by
  unfold buildMethod
  cases b.bindBody decl <;> simp

/-- A program comes out if and only if every check passes. -/
theorem exists_build_iff : (∃ p, b.build = .ok p) ↔ b.refused = none ∧
    (∀ e ∈ b.edges, b.checkEdge e = .ok ()) ∧ (∀ e ∈ b.callEdges, b.checkCallEdge e = .ok ()) ∧
    ∀ decl ∈ b.methods, ∃ r, b.bindBody decl = .ok r := by
  have hmethods : (∀ decl ∈ b.methods, ∃ r, b.bindBody decl = .ok r) ↔
      ∃ methods, b.methods.toList.mapM b.buildMethod = .ok methods := by
    simp only [exists_mapM_eq_ok_iff, exists_buildMethod_iff, Array.mem_toList_iff]
  rw [hmethods]
  constructor
  · rintro ⟨p, h⟩
    rcases build_eq_ok h with ⟨hedges, methods, hbuilt, -⟩
    exact ⟨refused_of_build h, hedges, (build_calls h).1, methods, hbuilt⟩
  · rintro ⟨hrefused, hedges, hcalls, methods, hbuilt⟩
    unfold build
    rw [hrefused, forM_eq_ok_iff.mpr hedges, forM_eq_ok_iff.mpr hcalls, hbuilt]
    exact ⟨_, rfl⟩

/-! ## What the checks say of the description -/

namespace Describes

theorem getElem?_statements (hd : b.Describes steps) (i : Nat) :
    (statements steps)[i]? = b.stmts[i]? := by
  rw [← hd.stmts, Array.getElem?_toList]

/-- Falling through never leaves a method, so that only explicit edges have to be looked at. -/
theorem checkEdges_iff (hd : b.Describes steps) (howned : b.BodiesOwned) :
    (∀ e ∈ b.edges, b.checkEdge e = .ok ()) ↔
      ∀ s t, .edge s t ∈ steps → ∃ source target, (statements steps)[s.index]? = some source ∧
        (statements steps)[t.index]? = some target ∧ source.method = target.method := by
  simp only [checkEdge_iff, hd.getElem?_statements]
  constructor
  · intro h s t hedge
    exact h (s, t) ((hd.edges s t).mpr (Or.inl hedge))
  · rintro h ⟨s, t⟩ he
    rcases (hd.edges s t).mp he with hedge | ⟨⟨decl, hdecl, hpair⟩, -⟩
    · exact h s t hedge
    · -- both ends are in the body of `decl`, and a body has one owner
      rcases Array.getElem?_of_mem hdecl with ⟨i, hi⟩
      have hmem : s ∈ decl.body ∧ t ∈ decl.body :=
        ⟨hpair.subset (by simp), hpair.subset (by simp)⟩
      rcases howned i decl hi s hmem.1 with ⟨source, hs, hsource⟩
      rcases howned i decl hi t hmem.2 with ⟨target, ht, htarget⟩
      exact ⟨source, target, hs, ht, hsource.trans htarget.symm⟩

theorem mem_callEdges_iff (hd : b.Describes steps) {call : StmtId} {callee : MethodId} :
    (call, callee) ∈ b.callEdges ↔ .callEdge call callee ∈ steps := by
  rw [← mem_calleesAt_iff, ← hd.callEdges, List.mem_map]
  constructor
  · intro h
    exact ⟨(call, callee), List.mem_filter.mpr ⟨h, beq_self_eq_true _⟩, rfl⟩
  · rintro ⟨⟨s, m⟩, he, rfl⟩
    rcases List.mem_filter.mp he with ⟨hmem, hindex⟩
    have hcall : s = call := congrArg StmtId.mk (beq_iff_eq.mp hindex)
    rwa [hcall] at hmem

theorem checkCallEdges_iff (hd : b.Describes steps) (hheaders : b.headers = declarations steps) :
    (∀ e ∈ b.callEdges, b.checkCallEdge e = .ok ()) ↔
      ∀ call callee, .callEdge call callee ∈ steps →
        (∃ stmt invocation, (statements steps)[call.index]? = some stmt ∧
          stmt.call? = some invocation) ∧
        ∃ decl, (declarations steps)[callee.index]? = some decl := by
  simp only [checkCallEdge_iff, hd.getElem?_statements, hheaders, Prod.forall, hd.mem_callEdges_iff]

/-- The actions of a body are those that the description appends to it. -/
theorem actionsOf_eq (hd : b.Describes steps) {i : Nat} {decl : Declaration}
    (hi : b.methods[i]? = some decl) : b.actionsOf decl = appendedTo steps ⟨i⟩ := by
  unfold actionsOf appendedTo
  rw [hd.bodies i decl hi, List.filterMap_map, ← hd.stmts]
  rw [← List.filterMap_eq_map]
  apply List.filterMap_congr
  intro stmt hstmt
  rcases List.getElem?_of_mem (List.mem_filter.mp hstmt).1 with ⟨j, hj⟩
  rw [Array.getElem?_toList] at hj
  simp [hd.id_of_getElem hj, hj]

theorem body_eq_nil_iff (hd : b.Describes steps) {i : Nat} {decl : Declaration}
    (hi : b.methods[i]? = some decl) : decl.body = [] ↔ appendedTo steps ⟨i⟩ = [] := by
  unfold appendedTo
  rw [hd.bodies i decl hi, ← hd.stmts, List.map_eq_nil_iff, List.map_eq_nil_iff]

theorem bindBodies_iff (hd : b.Describes steps) (hheaders : b.headers = declarations steps) :
    (∀ decl ∈ b.methods, ∃ r, b.bindBody decl = .ok r) ↔
      ∀ i decl, (declarations steps)[i]? = some decl → appendedTo steps ⟨i⟩ ≠ [] →
        Binds decl.signature decl.isStatic (appendedTo steps ⟨i⟩) := by
  constructor
  · intro h i header hheader hbody
    rw [← hheaders, getElem?_headers] at hheader
    rcases Option.map_eq_some_iff.mp hheader with ⟨decl, hi, rfl⟩
    rw [← hd.actionsOf_eq hi]
    have hne := mt (hd.body_eq_nil_iff hi).mp hbody
    exact (exists_bindBody_iff hne).mp (h decl (Array.mem_of_getElem? hi))
  · intro h decl hdecl
    rcases Array.getElem?_of_mem hdecl with ⟨i, hi⟩
    -- a method without a body is not checked
    by_cases hbody : decl.body = []
    · exact ⟨_, bindBody_of_nil hbody⟩
    · rw [exists_bindBody_iff hbody, hd.actionsOf_eq hi]
      refine h i { decl with body := [] } ?_ (mt (hd.body_eq_nil_iff hi).mpr hbody)
      rw [← hheaders, getElem?_headers, hi]
      rfl

end Describes

theorem describes_of_followAll (h : steps.foldlM Builder.follow {} = .ok b)
    (hrefused : b.refused = none) : b.Describes steps := by
  rw [← after_of_followAll h] at hrefused ⊢
  exact describes_after hrefused

theorem exists_build_iff_wellFormed (h : steps.foldlM Builder.follow {} = .ok b) :
    (∃ p, b.build = .ok p) ↔ WellFormed steps := by
  rcases followAll h with ⟨hheaders, hplaced⟩
  have howned : b.BodiesOwned := bodiesOwned_empty.followAll h
  rw [exists_build_iff]
  constructor
  · rintro ⟨hrefused, hedges, hcalls, hbodies⟩
    have hd := describes_of_followAll h hrefused
    exact ⟨hplaced.mp hrefused, (hd.checkEdges_iff howned).mp hedges,
      (hd.checkCallEdges_iff hheaders).mp hcalls, (hd.bindBodies_iff hheaders).mp hbodies⟩
  · intro hwell
    have hrefused := hplaced.mpr hwell.placed
    have hd := describes_of_followAll h hrefused
    exact ⟨hrefused, (hd.checkEdges_iff howned).mpr hwell.edges,
      (hd.checkCallEdges_iff hheaders).mpr hwell.callEdges,
      (hd.bindBodies_iff hheaders).mpr hwell.bodies⟩

/-- The locals that a built method binds are the last ones that its body binds. -/
theorem bound_of_build {p : Program} (h : steps.foldlM Builder.follow {} = .ok b)
    (hbuild : b.build = .ok p) {i : Nat} {header : Declaration}
    (hi : (declarations steps)[i]? = some header) (hbody : appendedTo steps ⟨i⟩ ≠ []) :
    ∃ method, p.method? ⟨i⟩ = some method ∧ method.signature = header.signature ∧
      method.params.length = header.signature.params.length ∧
      (∀ k, method.params[k]? = lastBound (.parameter k) (appendedTo steps ⟨i⟩)) ∧
      method.thisLocal = lastBound .this (appendedTo steps ⟨i⟩) := by
  have hd := describes_of_followAll h (refused_of_build hbuild)
  rw [← (followAll h).1, getElem?_headers] at hi
  rcases Option.map_eq_some_iff.mp hi with ⟨decl, hdecl, rfl⟩
  rcases method_of_decl hbuild hdecl with ⟨method, hmethod, hbuilt⟩
  have hne := mt (hd.body_eq_nil_iff hdecl).mp hbody
  refine ⟨method, hmethod, (header_buildMethod hbuilt).1, (binds_buildMethod hbuilt hne).1, ?_⟩
  rw [← hd.actionsOf_eq hdecl]
  have hbind := bindBody_of_buildMethod hbuilt
  exact ⟨params_of_bindBody hne hbind, thisLocal_of_bindBody hne hbind⟩

/-- A description that was followed to its end can be built if and only if it is well-formed. In the
program, the parameters and the receiver of a method with a body are the targets of the last
statements that bind them. -/
theorem build_accepts_wellFormed (h : steps.foldlM Builder.follow {} = .ok b) :
    ((∃ p, b.build = .ok p) ↔ WellFormed steps) ∧
    ∀ p, b.build = .ok p → ∀ i header, (declarations steps)[i]? = some header →
      appendedTo steps ⟨i⟩ ≠ [] →
      ∃ method, p.method? ⟨i⟩ = some method ∧ method.signature = header.signature ∧
        method.params.length = header.signature.params.length ∧
        (∀ k l, method.params[k]? = some l ↔
          ∃ front back, appendedTo steps ⟨i⟩ = front ++ .identity l (.parameter k) :: back ∧
            ∀ l', .identity l' (.parameter k) ∉ back) ∧
        ∀ l, method.thisLocal = some l ↔
          ∃ front back, appendedTo steps ⟨i⟩ = front ++ .identity l .this :: back ∧
            ∀ l', .identity l' .this ∉ back := by
  refine ⟨exists_build_iff_wellFormed h, ?_⟩
  intro p hbuild i header hi hbody
  rcases bound_of_build h hbuild hi hbody with
    ⟨method, hmethod, hsignature, hlength, hparams, hthis⟩
  refine ⟨method, hmethod, hsignature, hlength, ?_, ?_⟩
  · intro k l
    rw [hparams, lastBound_eq_some_iff]
  · intro l
    rw [hthis, lastBound_eq_some_iff]

/-- An instance method that binds its parameter, its receiver and its parameter again. The edge is
added before the statements that it joins. -/
def rebinding : List Description :=
  [.method "<A: void set(java.lang.String)>" false false, .edge ⟨3⟩ ⟨1⟩,
    .statement ⟨0⟩ (.identity ⟨⟨0⟩, "x", .string⟩ (.parameter 0)),
    .statement ⟨0⟩ (.identity ⟨⟨0⟩, "o", .object "A"⟩ .this),
    .statement ⟨0⟩ (.identity ⟨⟨0⟩, "y", .string⟩ (.parameter 0)),
    .statement ⟨0⟩ .goto]

theorem build_accepts_rebinding : ∃ b p method, rebinding.foldlM Builder.follow {} = .ok b ∧
    b.build = .ok p ∧ WellFormed rebinding ∧ p.method? ⟨0⟩ = some method ∧
    method.params[0]? = some ⟨⟨0⟩, "y", .string⟩ := by
  have hrun : (rebinding.foldlM Builder.follow {}).toOption.any (fun b =>
      b.build.toOption.any fun _ => true) = true := by
    decide +kernel
  rcases exists_of_any_toOption hrun with ⟨b, hb, hbuilt⟩
  rcases exists_of_any_toOption hbuilt with ⟨p, hbuild, -⟩
  rcases build_accepts_wellFormed hb with ⟨hwell, hbound⟩
  rcases hbound p hbuild 0 ⟨⟨"A", "void", "set", ["java.lang.String"]⟩, false, false, []⟩
    (by decide +kernel) (by decide +kernel) with ⟨method, hmethod, -, -, hparams, -⟩
  refine ⟨b, p, method, hb, hbuild, hwell.mp ⟨p, hbuild⟩, hmethod, (hparams 0 _).mpr ?_⟩
  exact ⟨[_, _], [_], rfl, by simp⟩

/-- A statement whose method is declared after it has no place. -/
example : (Program.ofDescription
    [.statement ⟨0⟩ .nop, .method "<A: void f()>" true false]).toOption.isNone =
    true := by
  decide +kernel

end Builder

end TaintFlow
