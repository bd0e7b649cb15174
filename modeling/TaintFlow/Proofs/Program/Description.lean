import Mathlib.Data.List.Infix
import Mathlib.Data.List.Nodup
import TaintFlow.Proofs.Program.Mentions

/-!
# Builders and their descriptions

A builder is used step by step, and not every step succeeds. A declaration that is refused leaves
the builder as it is. A statement that is refused spoils it: whatever comes after, nothing can be
built.

`Builder.Took` says once what a step does to a builder that is not spoiled. From there it follows,
by induction on the description, that such a builder is determined by its description
(`Builder.describes_after`): which statements there are and which bodies they stand in, which
methods are declared, and which edges were asked for or come from falling through.
-/

namespace TaintFlow

namespace Description

/-- The statement that a step appends, and the method to which it does. -/
def appended? : Description → Option (MethodId × Action)
  | .statement m action => some (m, action)
  | _ => none

/-- The method that a step says to be called at `call`. -/
def callee? (call : StmtId) : Description → Option MethodId
  | .callEdge s callee => if s = call then some callee else none
  | _ => none

/-- The statements that a description appends, numbered in order. -/
def statements (steps : List Description) : List Stmt :=
  (steps.filterMap appended?).mapIdx fun i r => ⟨⟨i⟩, r.1, r.2⟩

/-- The methods that a description says to be called at `call`. -/
def calleesAt (steps : List Description) (call : StmtId) : List MethodId :=
  steps.filterMap (callee? call)

theorem statements_concat (steps : List Description) (m : MethodId) (action : Action) :
    statements (steps ++ [.statement m action]) =
      statements steps ++ [⟨⟨(statements steps).length⟩, m, action⟩] := by
  simp [statements, appended?, List.mapIdx_append]

theorem statements_concat_of_none {steps : List Description} {step : Description}
    (h : step.appended? = none) : statements (steps ++ [step]) = statements steps := by
  simp [statements, h]

end Description

namespace Builder

/-- Take a step. If it is refused, nothing changes. -/
def attempt (b : Builder) (step : Description) : Builder := (b.follow step).toOption.getD b

/-- The builder after a description. -/
def after (steps : List Description) : Builder := steps.foldl attempt {}

theorem after_concat (steps : List Description) (step : Description) :
    after (steps ++ [step]) = (after steps).attempt step := by
  simp [after]

/-- A description that is followed to its end is attempted with success. -/
theorem after_of_followAll {steps : List Description} {b : Builder}
    (h : steps.foldlM Builder.follow {} = .ok b) : after steps = b := by
  unfold after
  generalize ({} : Builder) = start at h ⊢
  -- over the steps for any start, since the builder that a step leaves is where the next one starts
  induction steps generalizing start with
  | nil =>
    cases h
    rfl
  | cons step steps ih =>
    rw [List.foldlM_cons] at h
    obtain ⟨b₁, hfirst, hrest⟩ := exists_of_bind_eq_ok h
    have hattempt : start.attempt step = b₁ := by
      unfold attempt
      rw [hfirst]
      rfl
    rw [List.foldl_cons, hattempt]
    exact ih b₁ hrest

/-! ## What a step does -/

/-- The builder with one more statement in the body of the method `m`, which is declared as
`decl`. -/
def grown (b : Builder) (m : MethodId) (decl : Declaration) (action : Action) : Builder :=
  { b with
    stmts := b.stmts.push ⟨⟨b.stmts.size⟩, m, action⟩
    edges := b.edges ++ b.fallThrough decl.body ⟨b.stmts.size⟩
    methods := b.methods.setIfInBounds m.index
      { decl with body := decl.body ++ [⟨b.stmts.size⟩] } }

/-- The step takes an unspoiled builder to an unspoiled builder. -/
inductive Took (b : Builder) : Description → Builder → Prop
  | declared {text isStatic isNative signature} : Signature.require text = .ok signature →
    (∀ decl ∈ b.methods, decl.signature ≠ signature) →
    Took b (.method text isStatic isNative)
      { b with methods := b.methods.push { signature, isStatic, isNative } }
  | rejected {text isStatic isNative} :
    (∀ signature, Signature.require text = .ok signature →
      ∃ decl ∈ b.methods, decl.signature = signature) →
    Took b (.method text isStatic isNative) b
  | appended {m action decl} : b.methods[m.index]? = some decl → decl.isNative = false →
    Took b (.statement m action) (b.grown m decl action)
  | edge {s t} : Took b (.edge s t) (b.addEdge s t)
  | callEdge {call callee} : Took b (.callEdge call callee) (b.addCallEdge call callee)

theorem refused_refuse (b : Builder) (e : Error) : (b.refuse e).refused ≠ none := by
  unfold refuse
  cases b.refused <;> simp

theorem any_signature {b : Builder} {signature : Signature} :
    b.methods.toList.any (·.signature == signature) = true ↔
      ∃ decl ∈ b.methods, decl.signature = signature := by
  simp only [List.any_eq_true, Array.mem_toList_iff, beq_iff_eq]

/-- A declaration is refused only if its signature does not parse or is declared already. -/
theorem exists_of_declare_eq_error {b : Builder} {text : String} {isStatic isNative : Bool}
    {e : Error} (h : b.declare text isStatic isNative = .error e) {signature : Signature}
    (hsignature : Signature.require text = .ok signature) :
    ∃ decl ∈ b.methods, decl.signature = signature := by
  by_cases hknown : b.methods.toList.any (·.signature == signature) = true
  · exact any_signature.mp hknown
  · unfold declare at h
    rw [hsignature] at h
    simp [bind, Except.bind, hknown, pure, Except.pure] at h

theorem took_declare {b : Builder} {text : String} {isStatic isNative : Bool}
    {r : MethodId × Builder} (h : b.declare text isStatic isNative = .ok r) :
    b.Took (.method text isStatic isNative) r.2 ∧ r.2.refused = b.refused := by
  unfold declare at h
  obtain ⟨signature, hsignature, h⟩ := exists_of_bind_eq_ok h
  split at h
  · cases h
  · next hknown =>
    cases h
    refine ⟨.declared hsignature ?_, rfl⟩
    intro decl hdecl heq
    exact hknown (any_signature.mpr ⟨decl, hdecl, heq⟩)

theorem took_append {b : Builder} {m : MethodId} {action : Action}
    (h : (b.append m action).2.refused = none) :
    b.refused = none ∧ b.Took (.statement m action) (b.append m action).2 := by
  unfold append at h ⊢
  split at h
  · exact absurd h (refused_refuse _ _)
  · next decl hdecl =>
    -- a refusal stays for good, so it contradicts `h` wherever it is made
    split at h
    · exact absurd h (refused_refuse _ _)
    · next hnative =>
      rw [if_neg hnative]
      exact ⟨h, .appended hdecl (by simpa using hnative)⟩

/-- A builder that is not spoiled after a step was not spoiled before it. -/
theorem took_attempt {b : Builder} {step : Description} (h : (b.attempt step).refused = none) :
    b.refused = none ∧ b.Took step (b.attempt step) := by
  cases step with
  | method text isStatic isNative =>
    -- a declaration fails without a trace; any other step is taken or spoils the builder
    cases hdeclare : b.declare text isStatic isNative with
    | error e =>
      have hattempt : b.attempt (.method text isStatic isNative) = b := by
        dsimp only [attempt, follow]
        rw [hdeclare]
        rfl
      rw [hattempt] at h ⊢
      exact ⟨h, .rejected fun _ hsignature => exists_of_declare_eq_error hdeclare hsignature⟩
    | ok r =>
      have hattempt : b.attempt (.method text isStatic isNative) = r.2 := by
        dsimp only [attempt, follow]
        rw [hdeclare]
        rfl
      obtain ⟨htook, hrefused⟩ := took_declare hdeclare
      rw [hattempt] at h ⊢
      exact ⟨hrefused.symm.trans h, htook⟩
  | statement m action => exact took_append h
  | edge s t => exact ⟨h, .edge⟩
  | callEdge call callee => exact ⟨h, .callEdge⟩

/-! ## What a builder knows of its description -/

/-- `t` comes right after `s` in a body, and `s` falls through. -/
def FallsInto (b : Builder) (s t : StmtId) : Prop :=
  (∃ decl ∈ b.methods, [s, t] <:+: decl.body) ∧
    ∃ stmt, b.stmts[s.index]? = some stmt ∧ stmt.action.fallsThrough = true

/-- The declared methods without their bodies. -/
def headers (b : Builder) : List Declaration :=
  b.methods.toList.map fun decl => { decl with body := [] }

theorem headers_grown {b : Builder} {m : MethodId} {decl : Declaration}
    (hdecl : b.methods[m.index]? = some decl) (action : Action) :
    (b.grown m decl action).headers = b.headers := by
  unfold headers grown
  apply List.ext_getElem?
  intro i
  simp only [List.getElem?_map, Array.getElem?_toList, Array.getElem?_setIfInBounds]
  -- the method that grew keeps its header, and the others are not touched
  split
  · next hi =>
    rw [← hi, if_pos (Array.getElem?_eq_some_iff.mp hdecl).1, hdecl]
    rfl
  · rfl

/-- The builder is what the description says. -/
structure Describes (b : Builder) (steps : List Description) : Prop where
  stmts : b.stmts.toList = Description.statements steps
  placed : ∀ stmt ∈ b.stmts, ∃ decl, b.methods[stmt.method.index]? = some decl ∧
    decl.isNative = false
  bodies : ∀ i decl, b.methods[i]? = some decl →
    decl.body = (b.stmts.toList.filter (·.method = ⟨i⟩)).map Stmt.id
  signatures : (b.headers.map Declaration.signature).Nodup
  declared : ∀ decl ∈ b.headers, ∃ text, .method text decl.isStatic decl.isNative ∈ steps ∧
    Signature.require text = .ok decl.signature
  known : ∀ {text isStatic isNative signature}, .method text isStatic isNative ∈ steps →
    Signature.require text = .ok signature → ∃ decl ∈ b.headers, decl.signature = signature
  edges : ∀ s t, (s, t) ∈ b.edges ↔ .edge s t ∈ steps ∨ b.FallsInto s t
  callEdges : ∀ call : StmtId, (b.callEdges.filter (·.1.index == call.index)).map (·.2) =
    Description.calleesAt steps call

theorem describes_empty : ({} : Builder).Describes [] where
  stmts := rfl
  placed := by simp
  bodies := by simp
  signatures := by simp [headers]
  declared := by simp [headers]
  known := by simp
  edges := by simp [FallsInto]
  callEdges _ := rfl

namespace Describes

variable {b b' : Builder} {steps : List Description} {step : Description}

theorem length_statements (h : b.Describes steps) :
    (Description.statements steps).length = b.stmts.size := by
  rw [← h.stmts, Array.length_toList]

theorem id_of_getElem (h : b.Describes steps) {i : Nat} {stmt : Stmt}
    (hi : b.stmts[i]? = some stmt) : stmt.id = ⟨i⟩ := by
  rw [← Array.getElem?_toList, h.stmts, Description.statements, List.getElem?_mapIdx,
    Option.map_eq_some_iff] at hi
  obtain ⟨r, -, rfl⟩ := hi
  rfl

/-- The statements of a body exist. -/
theorem lt_of_mem_body (h : b.Describes steps) {decl : Declaration} (hdecl : decl ∈ b.methods)
    {s : StmtId} (hs : s ∈ decl.body) : s.index < b.stmts.size := by
  obtain ⟨i, hi⟩ := Array.getElem?_of_mem hdecl
  rw [h.bodies i decl hi] at hs
  obtain ⟨stmt, hstmt, rfl⟩ := List.mem_map.mp hs
  obtain ⟨j, hj⟩ := List.getElem?_of_mem (List.mem_filter.mp hstmt).1
  rw [Array.getElem?_toList] at hj
  rw [h.id_of_getElem hj]
  exact (Array.getElem?_eq_some_iff.mp hj).1

/-! ### Step by step -/

theorem stmts_took (h : b.Describes steps) (hstep : b.Took step b') :
    b'.stmts.toList = Description.statements (steps ++ [step]) := by
  cases hstep with
  | appended _ _ =>
    unfold grown
    rw [Description.statements_concat, Array.toList_push, h.stmts, h.length_statements]
  | _ =>
    rw [Description.statements_concat_of_none rfl]
    exact h.stmts

theorem placed_took (h : b.Describes steps) (hstep : b.Took step b') :
    ∀ stmt ∈ b'.stmts, ∃ decl, b'.methods[stmt.method.index]? = some decl ∧
      decl.isNative = false := by
  cases hstep with
  | declared _ _ =>
    intro stmt hstmt
    obtain ⟨decl, hdecl, hnative⟩ := h.placed stmt hstmt
    have hlt := (Array.getElem?_eq_some_iff.mp hdecl).1
    refine ⟨decl, ?_, hnative⟩
    rw [Array.getElem?_push, if_neg (by omega)]
    exact hdecl
  | @appended m action decl hdecl hnative =>
    have hlt := (Array.getElem?_eq_some_iff.mp hdecl).1
    intro stmt hstmt
    unfold grown at hstmt ⊢
    rw [Array.getElem?_setIfInBounds]
    -- the method of the statement is the one that grew, whose header is kept, or another one
    by_cases hm : m.index = stmt.method.index
    · rw [if_pos hm, if_pos hlt]
      exact ⟨_, rfl, hnative⟩
    · rw [if_neg hm]
      rcases Array.mem_push.mp hstmt with hold | rfl
      · exact h.placed stmt hold
      · exact absurd rfl hm
  | _ => exact h.placed

theorem bodies_took (h : b.Describes steps) (hstep : b.Took step b') :
    ∀ i decl, b'.methods[i]? = some decl →
      decl.body = (b'.stmts.toList.filter (·.method = ⟨i⟩)).map Stmt.id := by
  cases hstep with
  | declared _ _ =>
    intro i decl hi
    rw [Array.getElem?_push] at hi
    split at hi
    · next hnew =>
      -- no statement can stand in a method that was not there
      cases hi
      have hnone : b.stmts.toList.filter (·.method = ⟨i⟩) = [] := by
        apply List.filter_eq_nil_iff.mpr
        intro stmt hstmt howner
        obtain ⟨decl, hdecl, -⟩ := h.placed stmt (Array.mem_toList_iff.mp hstmt)
        rw [of_decide_eq_true howner] at hdecl
        have hlt := (Array.getElem?_eq_some_iff.mp hdecl).1
        dsimp only at hlt
        omega
      rw [hnone]
      rfl
    · exact h.bodies i decl hi
  | @appended m action decl hdecl _ =>
    intro i decl' hi
    unfold grown at hi ⊢
    rw [Array.getElem?_setIfInBounds] at hi
    rw [Array.toList_push, List.filter_append, List.map_append]
    -- the new statement belongs to the body of its own method and to no other
    by_cases hm : m.index = i
    · rw [if_pos hm, if_pos (Array.getElem?_eq_some_iff.mp hdecl).1] at hi
      cases hi
      rw [hm] at hdecl
      have hown : m = ⟨i⟩ := by rw [← hm]
      rw [h.bodies i decl hdecl]
      simp [hown]
    · rw [if_neg hm] at hi
      have hother : m ≠ ⟨i⟩ := by
        rintro rfl
        exact hm rfl
      rw [h.bodies i decl' hi]
      simp [hother]
  | _ => exact h.bodies

/-- A step adds a header or leaves them as they are. -/
theorem headers_took (hstep : b.Took step b') :
    b'.headers = b.headers ∨ ∃ text isStatic isNative signature,
      step = .method text isStatic isNative ∧ Signature.require text = .ok signature ∧
      (∀ decl ∈ b.headers, decl.signature ≠ signature) ∧
      b'.headers = b.headers ++ [({ signature, isStatic, isNative } : Declaration)] := by
  cases hstep with
  | @declared text isStatic isNative signature hsignature hfresh =>
    refine Or.inr ⟨text, isStatic, isNative, signature, rfl, hsignature, ?_, ?_⟩
    · intro decl hdecl
      obtain ⟨old, hold, rfl⟩ := List.mem_map.mp hdecl
      exact hfresh old (Array.mem_toList_iff.mp hold)
    · simp [headers]
  | appended hdecl _ => exact Or.inl (headers_grown hdecl _)
  | _ => exact Or.inl rfl

theorem signatures_took (h : b.Describes steps) (hstep : b.Took step b') :
    (b'.headers.map Declaration.signature).Nodup := by
  rcases headers_took hstep with hsame | ⟨text, isStatic, isNative, signature, -, -, hfresh, hnew⟩
  · rw [hsame]
    exact h.signatures
  · rw [hnew, List.map_append, List.nodup_append_comm]
    refine List.nodup_cons.mpr ⟨?_, h.signatures⟩
    intro hmem
    obtain ⟨decl, hdecl, heq⟩ := List.mem_map.mp hmem
    exact hfresh decl hdecl heq

theorem declared_took (h : b.Describes steps) (hstep : b.Took step b') :
    ∀ decl ∈ b'.headers, ∃ text, .method text decl.isStatic decl.isNative ∈ steps ++ [step] ∧
      Signature.require text = .ok decl.signature := by
  -- a declaration that a step relied on is still among the steps
  have hold : ∀ decl ∈ b.headers, ∃ text, .method text decl.isStatic decl.isNative ∈
      steps ++ [step] ∧ Signature.require text = .ok decl.signature := by
    intro decl hdecl
    obtain ⟨text, hmem, hsignature⟩ := h.declared decl hdecl
    exact ⟨text, List.mem_append_left _ hmem, hsignature⟩
  rcases headers_took hstep with hsame | ⟨text, isStatic, isNative, signature, rfl, hok, -, hnew⟩
  · rw [hsame]
    exact hold
  · rw [hnew]
    intro decl hdecl
    rcases List.mem_append.mp hdecl with hdecl | hdecl
    · exact hold decl hdecl
    · rw [List.mem_singleton.mp hdecl]
      exact ⟨text, List.mem_append_right _ (List.mem_singleton.mpr rfl), hok⟩

theorem known_took (h : b.Describes steps) (hstep : b.Took step b') {text : String}
    {isStatic isNative : Bool} {signature : Signature}
    (hmem : .method text isStatic isNative ∈ steps ++ [step])
    (hsignature : Signature.require text = .ok signature) :
    ∃ decl ∈ b'.headers, decl.signature = signature := by
  have hsub : ∀ decl ∈ b.headers, decl ∈ b'.headers := by
    intro decl hdecl
    rcases headers_took hstep with hsame | ⟨_, _, _, _, -, -, -, hnew⟩
    · rwa [hsame]
    · rw [hnew]
      exact List.mem_append_left _ hdecl
  rcases List.mem_append.mp hmem with hold | hnow
  · obtain ⟨decl, hdecl, heq⟩ := h.known hold hsignature
    exact ⟨decl, hsub decl hdecl, heq⟩
  -- the step itself declares the method: it was taken, or the signature was there before
  · cases List.mem_singleton.mp hnow
    cases hstep with
    | declared hok _ =>
      cases hok.symm.trans hsignature
      exact ⟨_, List.mem_map.mpr ⟨_, Array.mem_toList_iff.mpr Array.mem_push_self, rfl⟩, rfl⟩
    | rejected hknown =>
      obtain ⟨decl, hdecl, heq⟩ := hknown signature hsignature
      exact ⟨_, List.mem_map.mpr ⟨decl, Array.mem_toList_iff.mpr hdecl, rfl⟩, heq⟩

/-- The edge of falling through comes from the last statement of the body. -/
theorem mem_fallThrough {body : List StmtId} {next s t : StmtId} :
    (s, t) ∈ b.fallThrough body next ↔ (body.getLast? = some s ∧ t = next) ∧
      ∃ stmt, b.stmts[s.index]? = some stmt ∧ stmt.action.fallsThrough = true := by
  unfold fallThrough
  -- without a last statement there is nothing to fall from
  cases body.getLast? with
  | none => simp
  | some last =>
    by_cases hfalls : (b.stmts[last.index]?).any (·.action.fallsThrough) = true
    · simp only [hfalls, if_true, List.mem_singleton, Prod.mk.injEq, Option.some.injEq]
      constructor
      · rintro ⟨rfl, rfl⟩
        exact ⟨⟨rfl, rfl⟩, (Option.any_eq_true _ _).mp hfalls⟩
      · rintro ⟨⟨rfl, rfl⟩, -⟩
        exact ⟨rfl, rfl⟩
    · simp only [if_neg hfalls, List.not_mem_nil, false_iff]
      rintro ⟨⟨hlast, -⟩, hstmt⟩
      cases hlast
      exact hfalls ((Option.any_eq_true _ _).mpr hstmt)

/-- Where one statement comes right after another once a body has grown. -/
theorem infix_appended {m : MethodId} {decl : Declaration}
    (hdecl : b.methods[m.index]? = some decl) (id s t : StmtId) :
    (∃ decl' ∈ b.methods.setIfInBounds m.index { decl with body := decl.body ++ [id] },
      [s, t] <:+: decl'.body) ↔
    (∃ decl' ∈ b.methods, [s, t] <:+: decl'.body) ∨ decl.body.getLast? = some s ∧ t = id := by
  have hlt := (Array.getElem?_eq_some_iff.mp hdecl).1
  have hnew : { decl with body := decl.body ++ [id] } ∈
      b.methods.setIfInBounds m.index { decl with body := decl.body ++ [id] } := by
    apply Array.mem_of_getElem? (i := m.index)
    rw [Array.getElem?_setIfInBounds, if_pos rfl, if_pos hlt]
  constructor
  · rintro ⟨decl', hmem, hbody⟩
    obtain ⟨i, hi⟩ := Array.getElem?_of_mem hmem
    rw [Array.getElem?_setIfInBounds] at hi
    by_cases hm : m.index = i
    · rw [if_pos hm, if_pos hlt] at hi
      cases hi
      -- a pair in the longer body ends with the new statement or lies in the old body
      rcases List.infix_concat_iff.mp hbody with hlast | hold
      · right
        rcases List.suffix_concat_iff.mp hlast with hnil | ⟨front, hfront, hsuffix⟩
        · cases hnil
        · have hsplit : [s] ++ [t] = front ++ [id] := hfront
          obtain ⟨hs, ht⟩ := List.append_inj' hsplit rfl
          obtain ⟨rest, hrest⟩ := hs ▸ hsuffix
          cases ht
          exact ⟨List.getLast?_eq_some_iff.mpr ⟨rest, hrest.symm⟩, rfl⟩
      · exact Or.inl ⟨decl, Array.mem_of_getElem? hdecl, hold⟩
    · rw [if_neg hm] at hi
      exact Or.inl ⟨decl', Array.mem_of_getElem? hi, hbody⟩
  · rintro (⟨decl', hmem, hbody⟩ | ⟨hlast, rfl⟩)
    -- the method that grew keeps its pairs, and so do the others
    · obtain ⟨i, hi⟩ := Array.getElem?_of_mem hmem
      by_cases hm : m.index = i
      · rw [← hm, hdecl] at hi
        cases hi
        exact ⟨_, hnew, hbody.trans (List.prefix_append ..).isInfix⟩
      · refine ⟨decl', Array.mem_of_getElem? (i := i) ?_, hbody⟩
        rw [Array.getElem?_setIfInBounds, if_neg hm]
        exact hi
    · obtain ⟨rest, hrest⟩ := List.getLast?_eq_some_iff.mp hlast
      refine ⟨_, hnew, rest, [], ?_⟩
      simp [hrest]

/-- What falls through keeps doing so, and the statement just appended may be fallen into. -/
theorem fallsInto_grown (h : b.Describes steps) {m : MethodId} {decl : Declaration}
    (hdecl : b.methods[m.index]? = some decl) (action : Action) (s t : StmtId) :
    (b.grown m decl action).FallsInto s t ↔
      b.FallsInto s t ∨ (s, t) ∈ b.fallThrough decl.body ⟨b.stmts.size⟩ := by
  -- a statement of a body is found where it was
  have hkept : ∀ decl' ∈ b.methods, s ∈ decl'.body →
      (b.grown m decl action).stmts[s.index]? = b.stmts[s.index]? := by
    intro decl' hmem hs
    have hlt := h.lt_of_mem_body hmem hs
    unfold grown
    rw [Array.getElem?_push, if_neg (by omega)]
  have hlast : decl.body.getLast? = some s → s ∈ decl.body := List.mem_of_getLast?
  unfold FallsInto
  rw [mem_fallThrough, ← or_and_right]
  constructor
  · rintro ⟨hbody, hfalls⟩
    have hbody' := (infix_appended hdecl _ s t).mp hbody
    refine ⟨hbody', ?_⟩
    rcases hbody' with ⟨decl', hmem, hpair⟩ | ⟨hs, -⟩
    · rwa [hkept decl' hmem (hpair.subset (List.mem_cons_self ..))] at hfalls
    · rwa [hkept decl (Array.mem_of_getElem? hdecl) (hlast hs)] at hfalls
  · rintro ⟨hbody, hfalls⟩
    refine ⟨(infix_appended hdecl _ s t).mpr hbody, ?_⟩
    rcases hbody with ⟨decl', hmem, hpair⟩ | ⟨hs, -⟩
    · rwa [hkept decl' hmem (hpair.subset (List.mem_cons_self ..))]
    · rwa [hkept decl (Array.mem_of_getElem? hdecl) (hlast hs)]

theorem edges_took (h : b.Describes steps) (hstep : b.Took step b') (s t : StmtId) :
    (s, t) ∈ b'.edges ↔ .edge s t ∈ steps ++ [step] ∨ b'.FallsInto s t := by
  rw [List.mem_append, List.mem_singleton]
  cases hstep with
  -- appending is the one step that may add both an edge and a place to fall into
  | @appended m action decl hdecl _ =>
    rw [h.fallsInto_grown hdecl]
    unfold grown
    rw [List.mem_append, h.edges, or_assoc]
    simp
  | @declared text isStatic isNative signature _ _ =>
    -- the new method has no body to fall through
    have hbodies : FallsInto
        { b with methods := b.methods.push { signature, isStatic, isNative } } s t ↔
        b.FallsInto s t := by
      simp [FallsInto, Array.mem_push, or_and_right, exists_or]
    rw [hbodies, h.edges]
    simp
  | @edge s' t' =>
    change (s, t) ∈ b.edges ++ [(s', t')] ↔ _ ∨ b.FallsInto s t
    rw [List.mem_append, List.mem_singleton, h.edges, Prod.mk.injEq, Description.edge.injEq]
    exact or_right_comm
  | rejected _ =>
    rw [h.edges]
    simp
  | @callEdge call callee =>
    change (s, t) ∈ b.edges ↔ _ ∨ b.FallsInto s t
    rw [h.edges]
    simp

theorem callEdges_took (h : b.Describes steps) (hstep : b.Took step b') (call : StmtId) :
    (b'.callEdges.filter (·.1.index == call.index)).map (·.2) =
      Description.calleesAt (steps ++ [step]) call := by
  unfold Description.calleesAt
  rw [List.filterMap_append]
  cases hstep with
  | @callEdge s callee =>
    change ((b.callEdges ++ [(s, callee)]).filter (·.1.index == call.index)).map (·.2) = _
    rw [List.filter_append, List.map_append, h.callEdges]
    -- call edges are kept in the order of the description, whatever lies between two of a call
    by_cases hs : s = call
    · simp [Description.callee?, Description.calleesAt, hs]
    · have hindex : s.index ≠ call.index := by
        intro hindex
        exact hs (congrArg StmtId.mk hindex)
      simp [Description.callee?, Description.calleesAt, hs, hindex]
  | _ =>
    rw [show List.filterMap _ [_] = [] from rfl, List.append_nil]
    exact h.callEdges call

theorem took (h : b.Describes steps) (hstep : b.Took step b') : b'.Describes (steps ++ [step]) where
  stmts := h.stmts_took hstep
  placed := h.placed_took hstep
  bodies := h.bodies_took hstep
  signatures := h.signatures_took hstep
  declared := h.declared_took hstep
  known := h.known_took hstep
  edges := h.edges_took hstep
  callEdges := h.callEdges_took hstep

end Describes

/-- An unspoiled builder is what its description says. -/
theorem describes_after {steps : List Description} (h : (after steps).refused = none) :
    (after steps).Describes steps := by
  induction steps using List.reverseRecOn with
  | nil => exact describes_empty
  | append_singleton steps step ih =>
    rw [after_concat] at h ⊢
    obtain ⟨hrefused, hstep⟩ := took_attempt h
    exact (ih hrefused).took hstep

end Builder

end TaintFlow
