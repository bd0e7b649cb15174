import Mathlib.Data.List.Induction
import Mathlib.Data.Set.List
import TaintFlow.Program.Builder
import TaintFlow.Proofs.Run

/-!
# What a body binds

Identity statements bind the parameters of a method and its receiver to locals, and the last of
several statements that bind the same thing decides (`Action.lastBound`). A body is read statement
by statement. As long as no statement binds what the method does not have, the slots filled so far
are the last bindings of the statements read so far (`Builder.bindStmt_eq_ok_iff`,
`Builder.bindAll_eq_ok_iff`), so that a body is accepted if and only if it binds every parameter and
the receiver that there is (`Builder.exists_bindBody_iff`).
-/

namespace TaintFlow

namespace Action

/-- The local to which an action binds `source`. -/
def bound? (source : Value) : Action → Option Local
  | .identity target v => if v = source then some target else none
  | _ => none

/-- The local to which `source` is bound after all these actions. -/
def lastBound (source : Value) (actions : List Action) : Option Local :=
  (actions.filterMap (bound? source)).getLast?

variable {source : Value} {actions : List Action} {l : Local}

theorem bound?_eq_some_iff {action : Action} :
    action.bound? source = some l ↔ action = .identity l source := by
  cases action with
  | identity target v =>
    by_cases hv : v = source
    · simp [bound?, hv]
    · simp [bound?, hv]
  | _ => simp [bound?]

theorem bound?_eq_none_iff {action : Action} :
    action.bound? source = none ↔ ∀ l, action ≠ .identity l source := by
  rw [Option.eq_none_iff_forall_ne_some]
  simp only [ne_eq, bound?_eq_some_iff]

theorem lastBound_concat (action : Action) :
    lastBound source (actions ++ [action]) =
      (action.bound? source).or (lastBound source actions) := by
  unfold lastBound
  rw [List.filterMap_append]
  cases h : action.bound? source with
  | none => simp [h]
  | some l => simp [h]

theorem lastBound_eq_none_iff :
    lastBound source actions = none ↔ ∀ l, .identity l source ∉ actions := by
  unfold lastBound
  rw [List.getLast?_eq_none_iff, List.filterMap_eq_nil_iff]
  simp only [bound?_eq_none_iff]
  constructor
  · intro h l hl
    exact h _ hl l rfl
  · rintro h action haction l rfl
    exact h l haction

theorem isSome_lastBound_iff :
    (lastBound source actions).isSome = true ↔ ∃ l, .identity l source ∈ actions := by
  rw [Option.isSome_iff_ne_none, Ne, lastBound_eq_none_iff]
  simp

/-- The last binding is one after which there is no other. -/
theorem lastBound_eq_some_iff : lastBound source actions = some l ↔
    ∃ front back, actions = front ++ .identity l source :: back ∧
      ∀ l', .identity l' source ∉ back := by
  constructor
  · intro h
    -- from the end, where the last binding is
    induction actions using List.reverseRecOn with
    | nil => cases h
    | append_singleton actions action ih =>
      rw [lastBound_concat] at h
      cases hbound : action.bound? source with
      | some l' =>
        rw [hbound] at h
        cases h
        exact ⟨actions, [], by rw [bound?_eq_some_iff.mp hbound], by simp⟩
      | none =>
        rw [hbound] at h
        rcases ih h with ⟨front, back, rfl, hback⟩
        refine ⟨front, back ++ [action], by simp, ?_⟩
        intro l' hl'
        rcases List.mem_append.mp hl' with hold | hnew
        · exact hback l' hold
        · rw [← List.mem_singleton.mp hnew, bound?_eq_some_iff.mpr rfl] at hbound
          cases hbound
  · rintro ⟨front, back, rfl, hback⟩
    have hnone := lastBound_eq_none_iff.mpr hback
    unfold lastBound at hnone ⊢
    rw [List.getLast?_eq_none_iff] at hnone
    rw [List.filterMap_append, List.filterMap_cons_some (bound?_eq_some_iff.mpr rfl), hnone]
    simp

theorem mem_of_lastBound (h : lastBound source actions = some l) :
    .identity l source ∈ actions := by
  rcases lastBound_eq_some_iff.mp h with ⟨front, back, rfl, -⟩
  simp

end Action

namespace Builder

open TaintFlow.Action

/-! ## Statement by statement -/

variable {decl : Declaration} {actions : List Action}

/-- The action binds nothing that the method does not have. -/
structure Admits (decl : Declaration) (action : Action) : Prop where
  params : ∀ l i, action = .identity l (.parameter i) → i < decl.signature.params.length
  this : ∀ l, action = .identity l .this → decl.isStatic = false

/-- The last bindings of the parameters and of the receiver. -/
def collected (decl : Declaration) (actions : List Action) : Bindings where
  params := (List.range decl.signature.params.length).map fun i => lastBound (.parameter i) actions
  thisLocal := lastBound .this actions

theorem collected_nil (decl : Declaration) :
    collected decl [] = ⟨decl.signature.params.map fun _ => none, none⟩ := by
  simp [collected, lastBound, List.map_const']

theorem collected_concat_of_none {action : Action}
    (hparams : ∀ i, action.bound? (.parameter i) = none) (hthis : action.bound? .this = none) :
    collected decl (actions ++ [action]) = collected decl actions := by
  simp [collected, lastBound_concat, hparams, hthis]

theorem collected_concat_parameter {i : Nat} (l : Local) (hi : i < decl.signature.params.length) :
    collected decl (actions ++ [.identity l (.parameter i)]) =
      { collected decl actions with
        params := (collected decl actions).params.set i (some l) } := by
  unfold collected
  rw [Bindings.mk.injEq]
  constructor
  · apply List.ext_getElem?
    intro j
    by_cases hij : i = j
    · subst hij
      simp [lastBound_concat, bound?, hi]
    · rw [List.getElem?_set_ne hij]
      by_cases hj : j < decl.signature.params.length
      · simp [lastBound_concat, bound?, hij, hj]
      · simp [hj]
  · simp [lastBound_concat, bound?]

theorem collected_concat_this (l : Local) :
    collected decl (actions ++ [.identity l .this]) =
      { collected decl actions with thisLocal := some l } := by
  simp [collected, lastBound_concat, bound?]

/-- One statement is accepted if it binds what the method has, and its binding is the last then. -/
theorem bindStmt_eq_ok_iff {action : Action} {bound : Bindings} :
    bindStmt decl (collected decl actions) action = .ok bound ↔
      Admits decl action ∧ bound = collected decl (actions ++ [action]) := by
  have hlength : (collected decl actions).params.length = decl.signature.params.length := by
    simp [collected]
  unfold bindStmt
  split
  · next target i =>
    rw [hlength]
    by_cases hi : i < decl.signature.params.length
    · rw [if_pos hi, collected_concat_parameter target hi, Except.ok.injEq, eq_comm]
      refine (and_iff_right ⟨?_, ?_⟩).symm
      · rintro l j ⟨⟩
        exact hi
      · rintro l ⟨⟩
    · rw [if_neg hi]
      refine iff_of_false (by simp) ?_
      rintro ⟨hadmits, -⟩
      exact hi (hadmits.params target i rfl)
  · next target =>
    by_cases hstatic : decl.isStatic = true
    · rw [if_pos hstatic]
      refine iff_of_false (by simp) ?_
      rintro ⟨hadmits, -⟩
      rw [hadmits.this target rfl] at hstatic
      cases hstatic
    · rw [if_neg hstatic, collected_concat_this, Except.ok.injEq, eq_comm]
      refine (and_iff_right ⟨?_, ?_⟩).symm
      · rintro l j ⟨⟩
      · rintro l ⟨⟩
        simpa using hstatic
  · next hparam hthis =>
    -- anything else is accepted, and no binding changes
    have hparams : ∀ i, action.bound? (.parameter i) = none :=
      fun i => bound?_eq_none_iff.mpr fun l => hparam l i
    rw [collected_concat_of_none hparams (bound?_eq_none_iff.mpr hthis), Except.ok.injEq, eq_comm]
    refine (and_iff_right ⟨?_, ?_⟩).symm
    · intro l i haction
      exact absurd haction (hparam l i)
    · intro l haction
      exact absurd haction (hthis l)

/-- All statements of a body, one after the other. -/
theorem bindAll_eq_ok_iff {bound : Bindings} :
    actions.foldlM (bindStmt decl) (collected decl []) = .ok bound ↔
      (∀ action ∈ actions, Admits decl action) ∧ bound = collected decl actions := by
  induction actions using List.reverseRecOn generalizing bound with
  | nil => simp [pure, Except.pure, eq_comm]
  | append_singleton actions action ih =>
    rw [List.foldlM_append, bind_eq_ok_iff]
    simp only [ih, List.foldlM_cons, List.foldlM_nil, bind_pure, List.forall_mem_append,
      List.forall_mem_singleton]
    constructor
    · rintro ⟨_, ⟨hactions, rfl⟩, hlast⟩
      rcases bindStmt_eq_ok_iff.mp hlast with ⟨haction, rfl⟩
      exact ⟨⟨hactions, haction⟩, rfl⟩
    · rintro ⟨⟨hactions, haction⟩, rfl⟩
      exact ⟨_, ⟨hactions, rfl⟩, bindStmt_eq_ok_iff.mpr ⟨haction, rfl⟩⟩

/-! ## Whole bodies -/

theorem requireParams_eq_ok_iff {signature : Signature} {i : Nat} {slots : List (Option Local)}
    {params : List Local} :
    requireParams signature i slots = .ok params ↔ slots = params.map some := by
  induction slots generalizing i params with
  | nil =>
    cases params with
    | nil => simp [requireParams]
    | cons l params => simp [requireParams]
  | cons slot slots ih =>
    -- the first slot that is empty is reported, whatever comes behind it
    cases slot with
    | none => cases params <;> simp [requireParams]
    | some l =>
      unfold requireParams
      rw [bind_eq_ok_iff]
      simp only [ih]
      constructor
      · rintro ⟨rest, rfl, h⟩
        cases h
        rfl
      · intro h
        cases params with
        | nil => cases h
        | cons l' params =>
          rw [List.map_cons, List.cons.injEq, Option.some.injEq] at h
          exact ⟨params, h.2, by rw [h.1]; rfl⟩

theorem exists_map_some {slots : List (Option Local)} (h : none ∉ slots) :
    ∃ params : List Local, slots = params.map some := by
  have hrange : slots ∈ Set.range (List.map some) := by
    rw [Set.range_list_map]
    intro slot hslot
    exact Option.ne_none_iff_exists.mp (ne_of_mem_of_not_mem hslot h)
  rcases hrange with ⟨params, rfl⟩
  exact ⟨params, rfl⟩

/-- The actions of a body. -/
def actionsOf (b : Builder) (decl : Declaration) : List Action :=
  decl.body.filterMap fun s => (b.stmts[s.index]?).map Stmt.action

theorem bindBody_of_nil {b : Builder} (hbody : decl.body = []) :
    b.bindBody decl = .ok ([], none) := by
  unfold bindBody
  rw [hbody]
  rfl

theorem bindBody_of_buildMethod {b : Builder} {method : Method}
    (h : b.buildMethod decl = .ok method) :
    b.bindBody decl = .ok (method.params, method.thisLocal) := by
  unfold buildMethod at h
  split at h
  · cases h
  · next params thisLocal hbind =>
    cases h
    exact hbind

theorem bindBody_eq_ok_iff {b : Builder} (hbody : decl.body ≠ []) {params : List Local}
    {thisLocal : Option Local} : b.bindBody decl = .ok (params, thisLocal) ↔
      (∀ action ∈ b.actionsOf decl, Admits decl action) ∧
      (decl.isStatic = false → (lastBound .this (b.actionsOf decl)).isSome = true) ∧
      (collected decl (b.actionsOf decl)).params = params.map some ∧
      lastBound .this (b.actionsOf decl) = thisLocal := by
  have hthis : ¬ (!decl.isStatic && (collected decl (b.actionsOf decl)).thisLocal.isNone) = true ↔
      (decl.isStatic = false → (lastBound .this (b.actionsOf decl)).isSome = true) := by
    simp [collected, Option.isSome_iff_ne_none]
  unfold bindBody
  rw [if_neg (by simpa using hbody), ← collected_nil]
  change (b.actionsOf decl).foldlM (bindStmt decl) (collected decl []) >>= _ = _ ↔ _
  rw [bind_eq_ok_iff]
  constructor
  · rintro ⟨bound, hbound, h⟩
    rcases bindAll_eq_ok_iff.mp hbound with ⟨hadmits, rfl⟩
    split at h
    · cases h
    · next hbound =>
      rcases exists_of_bind_eq_ok h with ⟨slots, hslots, h⟩
      cases h
      exact ⟨hadmits, hthis.mp hbound, requireParams_eq_ok_iff.mp hslots, rfl⟩
  · rintro ⟨hadmits, hreceiver, hparams, rfl⟩
    refine ⟨_, bindAll_eq_ok_iff.mpr ⟨hadmits, rfl⟩, ?_⟩
    dsimp only
    rw [if_neg (hthis.mpr hreceiver), requireParams_eq_ok_iff.mpr hparams]
    rfl

/-- A body of these actions binds what its method declares, and nothing else. -/
structure Binds (signature : Signature) (isStatic : Bool) (actions : List Action) : Prop where
  params : ∀ i, (∃ l, .identity l (.parameter i) ∈ actions) ↔ i < signature.params.length
  this : (∃ l, .identity l .this ∈ actions) ↔ isStatic = false

theorem Binds.admits (h : Binds decl.signature decl.isStatic actions) :
    ∀ action ∈ actions, Admits decl action := by
  intro action haction
  constructor
  · rintro l i rfl
    exact (h.params i).mp ⟨l, haction⟩
  · rintro l rfl
    exact h.this.mp ⟨l, haction⟩

/-- A slot stays empty if and only if it is never bound. -/
theorem none_mem_collected_iff : none ∈ (collected decl actions).params ↔
    ∃ i < decl.signature.params.length, ∀ l, .identity l (.parameter i) ∉ actions := by
  simp [collected, lastBound_eq_none_iff]

theorem exists_bindBody_iff {b : Builder} (hbody : decl.body ≠ []) :
    (∃ r, b.bindBody decl = .ok r) ↔
      Binds decl.signature decl.isStatic (b.actionsOf decl) := by
  constructor
  · rintro ⟨⟨params, thisLocal⟩, h⟩
    rcases (bindBody_eq_ok_iff hbody).mp h with ⟨hadmits, hreceiver, hparams, -⟩
    refine ⟨?_, ?_⟩
    · intro i
      constructor
      · rintro ⟨l, hl⟩
        exact (hadmits _ hl).params l i rfl
      · intro hi
        -- an unbound parameter would leave its slot empty
        by_contra hnone
        have hmem := none_mem_collected_iff.mpr ⟨i, hi, not_exists.mp hnone⟩
        rw [hparams] at hmem
        simp at hmem
    · constructor
      · rintro ⟨l, hl⟩
        exact (hadmits _ hl).this l rfl
      · intro hstatic
        exact isSome_lastBound_iff.mp (hreceiver hstatic)
  · intro h
    have hfull : none ∉ (collected decl (b.actionsOf decl)).params := by
      intro hnone
      rcases none_mem_collected_iff.mp hnone with ⟨i, hi, hunbound⟩
      rcases (h.params i).mpr hi with ⟨l, hl⟩
      exact hunbound l hl
    rcases exists_map_some hfull with ⟨params, hparams⟩
    refine ⟨(params, _), (bindBody_eq_ok_iff hbody).mpr ⟨h.admits, ?_, hparams, rfl⟩⟩
    intro hstatic
    exact isSome_lastBound_iff.mpr (h.this.mpr hstatic)

/-- What a body binds is what its last bindings say. -/
theorem params_of_bindBody {b : Builder} (hbody : decl.body ≠ []) {params : List Local}
    {thisLocal : Option Local} (h : b.bindBody decl = .ok (params, thisLocal)) (i : Nat) :
    params[i]? = lastBound (.parameter i) (b.actionsOf decl) := by
  rcases (bindBody_eq_ok_iff hbody).mp h with ⟨hadmits, -, hparams, -⟩
  have hslot : (collected decl (b.actionsOf decl)).params[i]? = params[i]?.map some := by
    rw [hparams, List.getElem?_map]
  unfold collected at hslot
  by_cases hi : i < decl.signature.params.length
  · rw [List.getElem?_map, List.getElem?_range hi, Option.map_some] at hslot
    rcases Option.map_eq_some_iff.mp hslot.symm with ⟨l, hl, hbound⟩
    rw [hl, hbound]
  · -- there is no slot, and no statement asks for one
    have hunbound : lastBound (.parameter i) (b.actionsOf decl) = none := by
      apply lastBound_eq_none_iff.mpr
      intro l hl
      exact hi ((hadmits _ hl).params l i rfl)
    have hnone : params[i]? = none := by simpa [hi] using hslot.symm
    rw [hunbound, hnone]

theorem thisLocal_of_bindBody {b : Builder} (hbody : decl.body ≠ []) {params : List Local}
    {thisLocal : Option Local} (h : b.bindBody decl = .ok (params, thisLocal)) :
    thisLocal = lastBound .this (b.actionsOf decl) :=
  ((bindBody_eq_ok_iff hbody).mp h).2.2.2.symm

end Builder

end TaintFlow
