import TaintFlow.Analysis.Analyze
import TaintFlow.Proofs.Flow.Bookkeeping
import TaintFlow.Proofs.Flow.Derivation
import TaintFlow.Proofs.Program.Mentions

/-!
# Facts that travel through a callee

A fact about the receiver or an argument of a call does not pass the call by: it is meant to enter
the callee and to come back at its exits. Whether it does is a matter of three rules that are
written separately, and they do not cover each other. A fact that is held back at the call makes the
round trip unless

* the call is a sink and sinks are not inspected, since no fact enters a sink then, or
* it is a candidate for a bare local that is not the receiver. Such candidates, which stand for
  arrays, neither enter a callee nor leave it.
-/

namespace TaintFlow

/-! ## Sequences without faults -/

namespace Reaction

variable {rs : List Reaction} {a : Reaction} {t : Taint}

theorem mem_taints_foldl (ha : a.fault = none) (h : ∀ r ∈ rs, r.fault = none) :
    (rs.foldl append a).fault = none ∧
    (t ∈ (rs.foldl append a).taints ↔ t ∈ a.taints ∨ ∃ r ∈ rs, t ∈ r.taints) := by
  induction rs generalizing a with
  | nil => simp [ha]
  | cons r rs ih =>
    have hr := h r (List.mem_cons_self ..)
    have hfirst : (append a r).fault = none := (fault_append ha).trans hr
    obtain ⟨hfault, hmem⟩ := ih hfirst fun r' hr' => h r' (List.mem_cons_of_mem _ hr')
    refine ⟨hfault, ?_⟩
    rw [List.foldl_cons, hmem, show (t ∈ (append a r).taints ↔ _) from mem_taints_append ha]
    simp only [List.mem_cons, exists_eq_or_imp]
    rw [or_assoc]

/-- Reactions without faults are all taken into account. -/
theorem sequence_spec (h : ∀ r ∈ rs, r.fault = none) :
    (sequence rs).fault = none ∧ ∀ r ∈ rs, ∀ t ∈ r.taints, t ∈ (sequence rs).taints := by
  refine ⟨(mem_taints_foldl (t := .zero) rfl h).1, ?_⟩
  intro r hr t ht
  exact (mem_taints_foldl rfl h).2.mpr (Or.inr ⟨r, hr, ht⟩)

end Reaction

/-- In a body of an instance method some statement binds the receiver. -/
theorem Program.Built.exists_thisLocal {p : Program} (hp : p.Built) {m : MethodId} {method : Method}
    (hmethod : p.method? m = some method) (hconcrete : method.isConcrete = true)
    (hstatic : method.isStatic = false) : ∃ this, method.thisLocal = some this := by
  obtain ⟨b, -, hbuild⟩ := hp.exists_builder
  obtain ⟨-, methods, hmethods, hpm, -⟩ := Builder.build_eq_ok hbuild
  unfold Program.method? at hmethod
  rw [hpm, List.getElem?_toArray] at hmethod
  obtain ⟨decl, -, hbuilt⟩ := Builder.getElem?_of_mapM hmethods hmethod
  unfold Builder.buildMethod at hbuilt
  -- a method without a body is not concrete, and the builder refuses a body that binds no receiver
  split at hbuilt
  · cases hbuilt
  · next params thisLocal hbind =>
    cases hbuilt
    unfold Builder.bindBody at hbind
    split at hbind
    · next hempty =>
      unfold Method.isConcrete at hconcrete
      simp [hempty] at hconcrete
    · obtain ⟨bound, -, hbind⟩ := exists_of_bind_eq_ok hbind
      split at hbind
      · cases hbind
      · next hthis =>
        obtain ⟨params', -, hbind⟩ := exists_of_bind_eq_ok hbind
        cases hbind
        have hdecl : decl.isStatic = false := hstatic
        simpa [hdecl, Option.isSome_iff_exists, Option.ne_none_iff_exists'] using hthis

/-- Going to another local and back. -/
theorem Taint.movedTo_back {t : Taint} {l l' : Local} {most : Nat} (hroot : t.path.root = .local l)
    (hfields : t.path.fields.length ≤ most) (hthrown : t.thrown = false) :
    (t.movedTo l' most).movedTo l most = t := by
  have htake : t.path.fields.take most = t.path.fields := List.take_of_length_le hfields
  unfold movedTo AccessPath.moveToLocal AccessPath.truncated
  simp only [htake, ← hroot, ← hthrown]

/-- The call enters the body of `callee`, which takes as many arguments as the call passes and is
static exactly if the call has no receiver. -/
structure Setup.Invokes (x : Setup) (call : StmtId) (stmt : Stmt) (invocation : Invocation)
    (callee : MethodId) (method : Method) : Prop extends x.CallAt call stmt invocation where
  callee_mem : callee ∈ x.program.calleesOf call
  found : x.program.method? callee = some method
  concrete : method.isConcrete = true
  notInitializer : method.signature.isStaticInitializer = false
  count : method.params.length = invocation.args.length
  static_iff : method.isStatic = true ↔ invocation.receiver = none

/-- The body binds its receiver and its parameters to locals that carry taint, and the receiver to
one that is not a parameter as well: a local that is both is given back to the argument alone. -/
structure Method.BindsApart (method : Method) : Prop where
  genuine : ∀ l, l ∈ method.params ∨ method.thisLocal = some l → l.method ≠ .synthetic
  apart : ∀ this, method.thisLocal = some this → this ∉ method.params

namespace Forward

open Reaction

variable {x : Setup} {call exit : StmtId} {callee : MethodId} {stmt exitStmt : Stmt}
  {invocation : Invocation} {method : Method} {f : Fact}

/-! ## Leaving the callee -/

/-- What is sure to come out: a fact behind a parameter whose argument it reaches, and a fact behind
the receiver unless that local is a parameter as well. -/
theorem unbindOperands_spec (x : Setup) (stmt exitStmt : Stmt) (invocation : Invocation)
    (method : Method) (f : Fact) :
    (unbindOperands x stmt invocation method exitStmt f).fault = none ∧
    (∀ param arg, (param, Value.local arg) ∈ method.params.zip invocation.args →
      f.path.startsAt param = true → (Value.local arg).isTransferable = true →
      f.reaches (.local arg) = true →
      f.taint.movedTo arg x.most ∈ (unbindOperands x stmt invocation method exitStmt f).taints) ∧
    (∀ this receiver, method.thisLocal = some this → invocation.receiver = some receiver →
      this ∉ method.params → f.path.startsAt this = true →
      f.taint.movedTo receiver x.most ∈
        (unbindOperands x stmt invocation method exitStmt f).taints) := by
  unfold unbindOperands
  extract_lets result static bound args receiver
  -- none of the four parts can fail, so each of them is in what comes out
  have hresult : result.fault = none := by
    simp only [result]
    split
    · split
      · split <;> rfl
      · rfl
    · rfl
  have hstatic : static.fault = none := by
    simp only [static]
    split <;> rfl
  obtain ⟨hargs, hmem⟩ : args.fault = none ∧ _ := by
    apply sequence_spec
    intro r hr
    obtain ⟨p, -, rfl⟩ := List.mem_map.mp hr
    dsimp only
    split
    · split <;> rfl
    · rfl
  have hreceiver : receiver.fault = none := by
    simp only [receiver]
    split
    · split <;> rfl
    · rfl
  have hfront : (result ++ static).fault = none := (fault_append hresult).trans hstatic
  have hbefore : (result ++ static ++ args).fault = none := (fault_append hfront).trans hargs
  refine ⟨(fault_append hbefore).trans hreceiver, ?_, ?_⟩
  · intro param arg hzip hstarts htransfer hreaches
    rw [mem_taints_append hbefore, mem_taints_append hfront]
    have hbound : (param, .local arg) ∈ bound := List.mem_filter.mpr ⟨hzip, hstarts⟩
    refine Or.inl (Or.inr (hmem _ (List.mem_map.mpr ⟨_, hbound, rfl⟩) _ ?_))
    dsimp only
    rw [htransfer, hreaches, Fact.moveToValue?_local]
    exact List.mem_singleton.mpr rfl
  · intro this receiver' hthis hinvoked happart hstarts
    -- the receiver is asked last, and only if no parameter is the local that the fact is behind
    have hnone : bound.isEmpty = true := by
      rw [List.isEmpty_iff, List.filter_eq_nil_iff]
      intro p hp hstarts'
      have hparam : p.1 = this := by
        simp only [AccessPath.startsAt, beq_iff_eq] at hstarts hstarts'
        exact Option.some.inj (hstarts'.symm.trans hstarts)
      exact happart (hparam ▸ (List.of_mem_zip hp).1)
    rw [mem_taints_append hbefore]
    right
    simp only [receiver, hthis, hinvoked, hnone, hstarts, Bool.and_self, if_true]
    exact List.mem_singleton.mpr rfl

theorem isStranded_eq_false (hunit : f.isActive = false → ∀ u ∈ f.taint.unit, ∃ s,
    x.program.stmt? u = some s ∧ s.method ≠ callee) : isStranded x callee f = .ok false := by
  unfold isStranded
  split
  · next unit hactive hsome =>
    obtain ⟨s, hs, hmethod⟩ := hunit hactive unit hsome
    rw [hs]
    simp [hmethod]
  · rfl

/-- A fact whose activation unit lies elsewhere leaves the callee with all that its locals give
back. -/
theorem leave_spec (hcall : x.CallAt call stmt invocation)
    (hexit : x.program.stmt? exit = some exitStmt)
    (hmethod : x.program.method? callee = some method)
    (hzero : f.isZero = false) (hsame : f.activateAt call = f)
    (hunit : f.isActive = false → ∀ u ∈ f.taint.unit, ∃ s,
      x.program.stmt? u = some s ∧ s.method ≠ callee) :
    (leave x (some call) callee exit f).fault = none ∧
    ∀ t ∈ (unbindOperands x stmt invocation method exitStmt f.leaveCall).taints,
      t ∈ (leave x (some call) callee exit f).taints := by
  have hstranded : isStranded x callee f.leaveCall = .ok false := isStranded_eq_false hunit
  have hleave : leave x (some call) callee exit f =
      { findings := returnLeak x exitStmt f.leaveCall } ++
        unbindOperands x stmt invocation method exitStmt f.leaveCall := by
    unfold leave
    rw [hzero]
    simp only [Bool.false_eq_true, if_false, Option.map_some, Option.getD_some, hsame, hstranded,
      Setup.withStmt, Setup.withMethod, hexit, hcall.known, hcall.calls, hmethod]
  obtain ⟨hfault, -⟩ := unbindOperands_spec x stmt exitStmt invocation method f.leaveCall
  rw [hleave]
  refine ⟨(fault_append rfl).trans hfault, ?_⟩
  intro t ht
  exact (mem_taints_append rfl).mpr (Or.inr ht)

/-! ## Entering the callee -/

theorem enter_eq (hlibrary : x.library = none) (hcall : x.CallAt call stmt invocation)
    (hmethod : x.program.method? callee = some method) (hconcrete : method.isConcrete = true)
    (hzero : f.isZero = false) :
    enter x call callee f = if !x.settings.inspectSinks && x.isSink stmt then {}
      else bindOperands x stmt invocation callee method (f.activateAt call) := by
  have hexclusive : x.isExclusive stmt f = false := by
    unfold Setup.isExclusive
    rw [hlibrary]
    rfl
  unfold enter Setup.withMethod Setup.withStmt
  simp only [hmethod, hconcrete, Bool.not_true, Bool.false_eq_true, if_false, hzero, hcall.known,
    hcall.calls, hexclusive, Bool.false_or]

/-- What a matching call brings into a callee. -/
theorem mem_taints_bindOperands (hinit : method.signature.isStaticInitializer = false)
    (hcount : method.params.length = invocation.args.length) {t : Taint} :
    t ∈ (bindOperands x stmt invocation callee method f).taints ↔
      (∃ receiver this, invocation.receiver = some receiver ∧ method.thisLocal = some this ∧
        method.isStatic = false ∧ f.path.startsAt receiver = true ∧
        t = f.taint.movedTo this x.most) ∨
      (∃ arg param, (arg, param) ∈ invocation.args.zip method.params ∧
        f.path.isRootedAt arg = true ∧ f.reaches arg = true ∧ t = f.taint.movedTo param x.most) ∨
      f.path.isStatic = true ∧ t = f.taint := by
  unfold bindOperands
  extract_lets bind this static passed
  have hbind : ∀ l, (bind l).taint = f.taint.movedTo l x.most := fun _ => rfl
  have hthis : t ∈ this.map Fact.taint ↔ ∃ receiver this, invocation.receiver = some receiver ∧
      method.thisLocal = some this ∧ method.isStatic = false ∧ f.path.startsAt receiver = true ∧
      t = f.taint.movedTo this x.most := by
    simp only [this]
    -- the four answers about receiver and method are gone through; one of them binds the receiver
    cases invocation.receiver with
    | none => simp
    | some receiver =>
      cases method.thisLocal with
      | none => simp
      | some bound =>
        cases hstatic : method.isStatic <;> cases hstarts : f.path.startsAt receiver <;>
          simp [hbind, hstarts]
  have hpassed : t ∈ (passed.map fun p => bind p.2).map Fact.taint ↔
      ∃ arg param, (arg, param) ∈ invocation.args.zip method.params ∧
        f.path.isRootedAt arg = true ∧ f.reaches arg = true ∧
        t = f.taint.movedTo param x.most := by
    simp only [List.map_map, List.mem_map, passed, List.mem_filter, Bool.and_eq_true]
    constructor
    · rintro ⟨⟨arg, param⟩, ⟨hzip, hrooted, hreaches⟩, rfl⟩
      exact ⟨arg, param, hzip, hrooted, hreaches, rfl⟩
    · rintro ⟨arg, param, hzip, hrooted, hreaches, rfl⟩
      exact ⟨(arg, param), ⟨hzip, hrooted, hreaches⟩, rfl⟩
  have hstatic : t ∈ static.map Fact.taint ↔ f.path.isStatic = true ∧ t = f.taint := by
    simp only [static]
    cases f.path.isStatic <;> simp
  rw [hinit, if_neg Bool.false_ne_true, if_neg fun hne => hne hcount]
  unfold Reaction.pass Reaction.taints
  rw [mem_taints_distinct, List.map_append, List.map_append, List.mem_append,
    List.mem_append, hthis, hstatic, or_assoc]
  exact or_congr_right (or_congr_left hpassed)

/-! ## The round trip -/

/-- The fact does not pass the call by, though the result of the call does not overwrite it. It is
one that the callee could give back: in scope for access paths, no exception in flight, and not to
be activated inside the callee. -/
structure HeldBack (x : Setup) (call : StmtId) (stmt : Stmt) (invocation : Invocation)
    (callee : MethodId) (method : Method) (f : Fact) : Prop
    extends x.Invokes call stmt invocation callee method where
  nonzero : f.isZero = false
  notThrown : f.taint.thrown = false
  fields_le : f.path.fields.length ≤ x.most
  unit_outside : ∀ u ∈ f.taint.unit, ∃ s, x.program.stmt? u = some s ∧ s.method ≠ callee
  notAssigned : ∀ y, stmt.target? = some (.local y) → f.path.startsAt y = false
  suppressed : (f.activateAt call).taint ∉ (bypass x call f).taints

/-- Some fact that enters the callee comes out at every exit as what `f` is behind the call. -/
def RoundTrips (x : Setup) (call : StmtId) (callee : MethodId) (f : Fact) : Prop :=
  ∃ g ∈ (enter x call callee f).facts, ∀ exit ∈ x.program.exitsOf callee,
    (leave x (some call) callee exit g).fault = none ∧
    (f.activateAt call).taint ∈ (leave x (some call) callee exit g).taints

/-- A fact about a local starts at this local alone. -/
theorem startsAt_iff {l l' : Local} (hroot : f.path.root = .local l) :
    f.path.startsAt l' = true ↔ l = l' := by
  simp [AccessPath.startsAt, AccessPath.local?, hroot]

theorem HeldBack.not_passesBy (h : HeldBack x call stmt invocation callee method f)
    (hlibrary : x.library = none) : passesBy x stmt invocation (f.activateAt call) = false := by
  cases hpasses : passesBy x stmt invocation (f.activateAt call) with
  | false => rfl
  | true =>
    have hmodelled : modelled x stmt invocation (f.activateAt call) = {} := by
      unfold modelled
      rw [hlibrary]
    refine absurd ?_ h.suppressed
    unfold bypass Setup.withStmt
    simp only [h.known, h.calls, hpasses, if_true, hmodelled]
    rw [mem_taints_append rfl]
    exact Or.inr (List.mem_map.mpr ⟨_, by simp, rfl⟩)

/-- What does not pass a call by, and is not overwritten by it, is about the receiver or about an
argument that the callee can change. -/
theorem HeldBack.exists_operand (h : HeldBack x call stmt invocation callee method f)
    (hlibrary : x.library = none) :
    ∃ l, f.path.root = .local l ∧ (invocation.receiver = some l ∨
      Value.local l ∈ invocation.args ∧ (Value.local l).isTransferable = true) := by
  have hheld := h.not_passesBy hlibrary
  have htarget : stmt.target?.any f.path.isRootedAt = false := by
    cases htarget : stmt.target? with
    | none => rfl
    | some v =>
      cases v with
      | «local» y => exact h.notAssigned y htarget
      | _ => rfl
  unfold passesBy at hheld
  simp only [f.path_activateAt, htarget, Bool.not_false, Bool.true_and, Bool.not_eq_false',
    Bool.and_eq_true, Bool.or_eq_true, Bool.not_eq_true'] at hheld
  obtain ⟨⟨⟨-, hlocal⟩, -⟩, hoperand⟩ := hheld
  -- a static path passes every call by, so what is held back is behind a local
  obtain ⟨l, hroot⟩ : ∃ l, f.path.root = .local l := by
    unfold AccessPath.isStatic at hlocal
    split at hlocal
    · next l hroot => exact ⟨l, hroot⟩
    · cases hlocal
  refine ⟨l, hroot, ?_⟩
  -- the receiver is given back whatever its type, an argument only if the callee can change it
  rcases hoperand with hreceiver | harg
  · obtain ⟨receiver, hsome, hl⟩ := (Option.any_eq_true _ _).mp hreceiver
    rw [← (startsAt_iff hroot).mp hl] at hsome
    exact Or.inl hsome
  · obtain ⟨arg, harg, hrooted⟩ := List.any_eq_true.mp harg
    rw [Bool.and_eq_true] at hrooted
    obtain ⟨htransfer, hrooted⟩ := hrooted
    cases arg with
    | «local» l' =>
      rw [← (startsAt_iff hroot).mp hrooted] at harg htransfer
      exact Or.inr ⟨harg, htransfer⟩
    | _ => cases hrooted

/-- Behind the statement nothing is left to activate, and what is inactive there is unchanged. -/
theorem activateAt_spec (f : Fact) (s : StmtId) :
    (f.activateAt s).taint.activatedBy s = false ∧
    ((f.activateAt s).isActive = false → f.activateAt s = f) := by
  unfold Fact.activateAt
  split
  · exact ⟨rfl, nofun⟩
  · next hinactive => exact ⟨by simpa using hinactive, fun _ => rfl⟩

/-- A fact that enters behind a local of the callee, and that this local gives back, makes the round
trip. -/
theorem roundTrips_of_formal (hp : x.program.Built)
    (h : HeldBack x call stmt invocation callee method f) {l : Local} (hl : l.method ≠ .synthetic)
    (henters : (f.activateAt call).taint.movedTo l x.most ∈ (enter x call callee f).taints)
    (hback : ∀ g : Fact, ∀ exitStmt, g.taint = (f.activateAt call).taint.movedTo l x.most →
      (f.activateAt call).taint ∈ (unbindOperands x stmt invocation method exitStmt g).taints) :
    RoundTrips x call callee f := by
  obtain ⟨g, hg, htaint⟩ := mem_taints.mp henters
  obtain ⟨hactivated, hinactive⟩ := activateAt_spec f call
  have hzero : g.isZero = false := by
    unfold Fact.isZero
    rw [htaint]
    simpa [Taint.isZero, Taint.movedTo, AccessPath.moveToLocal, AccessPath.truncated,
      AccessPath.local?] using hl
  -- what is activated at the call has been activated before it entered
  have hsame : g.activateAt call = g := by
    have hmoved : ((f.activateAt call).taint.movedTo l x.most).activatedBy call = false :=
      hactivated
    unfold Fact.activateAt
    rw [htaint, hmoved]
    rfl
  -- moving keeps the unit, and the unit of `f` lies outside the callee
  have hgunit : g.isActive = false → ∀ u ∈ g.taint.unit, ∃ s,
      x.program.stmt? u = some s ∧ s.method ≠ callee := by
    intro hgactive u hu
    unfold Fact.isActive at hgactive
    rw [htaint] at hgactive hu
    have hsame := hinactive hgactive
    rw [hsame] at hu
    exact h.unit_outside u hu
  refine ⟨g, hg, ?_⟩
  intro exit hexit
  obtain ⟨exitStmt, hexitStmt⟩ :=
    Program.exists_stmt_of_has (hp.has_of_mem_bodyOf (List.mem_filter.mp hexit).1)
  obtain ⟨hfault, hleaves⟩ := leave_spec h.toCallAt hexitStmt h.found hzero hsame hgunit
  exact ⟨hfault, hleaves _ (hback g.leaveCall exitStmt htaint)⟩

/-- Candidates for bare locals reach no bare local. -/
theorem reaches_local_iff {l : Local} (htransfer : (Value.local l).isTransferable = true) :
    f.reaches (.local l) = true ↔ f.isActive = true ∨ f.path.isLocal = false := by
  have hreference : l.type.isPrimitiveOrString = false := by
    simpa [Value.isTransferable, Value.isConstant, Value.type?] using htransfer
  unfold Fact.reaches Fact.mayAlias
  simp [Value.isConstant, Value.isFieldOrElement, hreference, or_comm]

section

variable {l : Local} (hp : x.program.Built) (hlibrary : x.library = none)
  (h : HeldBack x call stmt invocation callee method f) (hroot : f.path.root = .local l)

include hlibrary h hroot

/-- What enters is about the receiver, or active, or about a field. -/
theorem lets_of_enter {g : Fact} (hg : g ∈ (enter x call callee f).facts) :
    (x.settings.inspectSinks = true ∨ x.isSink stmt = false) ∧
    (invocation.receiver.any f.path.startsAt = true ∨ (f.activateAt call).isActive = true ∨
      f.path.fields ≠ []) := by
  have hpath := f.path_activateAt call
  rw [enter_eq hlibrary h.toCallAt h.found h.concrete h.nonzero] at hg
  split at hg
  · cases hg
  · next hinspect =>
    constructor
    · cases hsetting : x.settings.inspectSinks with
      | true => exact Or.inl rfl
      | false =>
        right
        simpa [hsetting] using hinspect
    · have ht := mem_taints.mpr ⟨g, hg, rfl⟩
      rw [mem_taints_bindOperands h.notInitializer h.count, hpath] at ht
      -- facts enter behind the receiver, a parameter or a static field, which `f` is not behind
      rcases ht with ⟨receiver, this, hreceiver, -, -, hstarts, -⟩ |
        ⟨arg, param, -, hrooted, hreaches, -⟩ | ⟨hstatic, -⟩
      · left
        rw [hreceiver]
        exact hstarts
      · right
        unfold Fact.reaches at hreaches
        -- a fact reaches an argument if it may alias it or is active
        rcases Bool.or_eq_true _ _ ▸ hreaches with halias | hactive
        · right
          intro hnil
          -- a bare local is no alias of anything
          have hbare : (f.activateAt call).path.isLocal = true := by
            simp [hpath, AccessPath.isLocal, hroot, hnil]
          cases arg with
          | «local» l' =>
            simp [Fact.mayAlias, Value.isConstant, Value.isFieldOrElement, hbare] at halias
          | _ => cases hrooted
        · exact Or.inl hactive
      · simp [AccessPath.isStatic, hroot] at hstatic

variable (hinspect : x.settings.inspectSinks = true ∨ x.isSink stmt = false)

include hp hinspect

/-- Entering behind one local and leaving to the local it was about. -/
theorem roundTrips_of_bound {formal : Local} (hformal : formal.method ≠ .synthetic)
    (henters : (f.activateAt call).taint.movedTo formal x.most ∈
      (bindOperands x stmt invocation callee method (f.activateAt call)).taints)
    (hleaves : ∀ g : Fact, ∀ exitStmt, g.path.startsAt formal = true →
      g.isActive = (f.activateAt call).isActive → g.path.fields = f.path.fields →
      g.taint.movedTo l x.most ∈ (unbindOperands x stmt invocation method exitStmt g).taints) :
    RoundTrips x call callee f := by
  have hpath := f.path_activateAt call
  have hkept : (f.activateAt call).taint.thrown = false :=
    (f.thrown_activateAt call).trans h.notThrown
  have hopen : ¬ (!x.settings.inspectSinks && x.isSink stmt) = true := by
    rcases hinspect with hinspect | hsink
    · simp [hinspect]
    · simp [hsink]
  refine roundTrips_of_formal hp h hformal ?_ ?_
  · rw [enter_eq hlibrary h.toCallAt h.found h.concrete h.nonzero, if_neg hopen]
    exact henters
  · intro g exitStmt hg
    -- moving to the formal and back again loses nothing, as the chain is within bounds
    have hgpath : g.path = (f.path.moveToLocal formal x.most) := by
      rw [← hpath]
      exact congrArg Taint.path hg
    have hback := hleaves g exitStmt ?_ ?_ ?_
    · have hfields : (f.activateAt call).path.fields.length ≤ x.most := by
        rw [hpath]
        exact h.fields_le
      rwa [hg, Taint.movedTo_back (by rw [← hroot, ← hpath]; rfl) hfields hkept] at hback
    · rw [hgpath]
      simp [AccessPath.moveToLocal, AccessPath.truncated, AccessPath.startsAt, AccessPath.local?]
    · have hactive := congrArg Taint.active hg
      exact hactive
    · rw [hgpath]
      exact List.take_of_length_le h.fields_le

theorem roundTrips_of_receiver (hbinds : method.BindsApart)
    (hreceiver : invocation.receiver = some l) :
    RoundTrips x call callee f := by
  have hstatic : method.isStatic = false := by
    cases hstatic : method.isStatic with
    | false => rfl
    | true => exact absurd (h.static_iff.mp hstatic) (by simp [hreceiver])
  obtain ⟨this, hthis⟩ := hp.exists_thisLocal h.found h.concrete hstatic
  refine roundTrips_of_bound hp hlibrary h hroot hinspect
    (hbinds.genuine this (Or.inr hthis)) ?_ ?_
  · rw [mem_taints_bindOperands h.notInitializer h.count, f.path_activateAt]
    exact Or.inl ⟨l, this, hreceiver, hthis, hstatic, (startsAt_iff hroot).mpr rfl, rfl⟩
  · intro g exitStmt hstarts _ _
    obtain ⟨-, -, hspec⟩ := unbindOperands_spec x stmt exitStmt invocation method g
    exact hspec this l hthis hreceiver (hbinds.apart this hthis) hstarts

theorem roundTrips_of_arg (hbinds : method.BindsApart) (harg : Value.local l ∈ invocation.args)
    (htransfer : (Value.local l).isTransferable = true)
    (hlets : (f.activateAt call).isActive = true ∨ f.path.fields ≠ []) :
    RoundTrips x call callee f := by
  obtain ⟨i, hi⟩ := List.getElem?_of_mem harg
  have hlt : i < method.params.length := by
    rw [h.count]
    exact (List.getElem?_eq_some_iff.mp hi).1
  have hparam : method.params[i]? = some method.params[i] := List.getElem?_eq_getElem hlt
  -- what let the fact in lets it out again: it has stayed as active and as deep as it was
  have hlets' : ∀ g : Fact, g.isActive = (f.activateAt call).isActive →
      g.path.fields = f.path.fields → g.reaches (.local l) = true := by
    intro g hactive hsame
    rw [reaches_local_iff htransfer, hactive]
    refine hlets.imp_right ?_
    intro hne
    rw [← hsame] at hne
    unfold AccessPath.isLocal
    split
    · simpa using hne
    · rfl
  refine roundTrips_of_bound hp hlibrary h hroot hinspect
    (hbinds.genuine _ (Or.inl (List.getElem_mem hlt))) ?_ ?_
  · rw [mem_taints_bindOperands h.notInitializer h.count]
    refine Or.inr (Or.inl ⟨.local l, method.params[i], ?_, ?_, ?_, rfl⟩)
    · exact List.mem_of_getElem? (List.getElem?_zip_eq_some.mpr ⟨hi, hparam⟩)
    · rw [f.path_activateAt]
      exact (startsAt_iff hroot).mpr rfl
    · exact hlets' _ rfl (by rw [f.path_activateAt])
  · intro g exitStmt hstarts hactive hsame
    obtain ⟨-, hspec, -⟩ := unbindOperands_spec x stmt exitStmt invocation method g
    refine hspec _ l ?_ hstarts htransfer (hlets' g hactive hsame)
    exact List.mem_of_getElem? (List.getElem?_zip_eq_some.mpr ⟨hparam, hi⟩)

end

/-- Of the facts that a call holds back, those make the round trip through its callee that are let
in: sinks are inspected or the call is none, and the fact is about the receiver, or active, or about
a field. -/
theorem heldBack_roundTrips_iff (hp : x.program.Built) (hlibrary : x.library = none)
    (h : HeldBack x call stmt invocation callee method f) (hbinds : method.BindsApart) :
    RoundTrips x call callee f ↔
      (x.settings.inspectSinks = true ∨ x.isSink stmt = false) ∧
      (invocation.receiver.any f.path.startsAt = true ∨ (f.activateAt call).isActive = true ∨
        f.path.fields ≠ []) := by
  obtain ⟨l, hroot, hoperand⟩ := h.exists_operand hlibrary
  constructor
  · rintro ⟨g, hg, -⟩
    exact lets_of_enter hlibrary h hroot hg
  · rintro ⟨hinspect, hlets⟩
    -- the receiver comes first: a local may be the receiver and an argument at once
    by_cases hreceiver : invocation.receiver = some l
    · exact roundTrips_of_receiver hp hlibrary h hroot hinspect hbinds hreceiver
    · obtain ⟨harg, htransfer⟩ := hoperand.resolve_left hreceiver
      refine roundTrips_of_arg hp hlibrary h hroot hinspect hbinds harg htransfer
        (hlets.resolve_left ?_)
      intro hany
      obtain ⟨receiver, hsome, hstarts⟩ := (Option.any_eq_true _ _).mp hany
      rw [← (startsAt_iff hroot).mp hstarts] at hsome
      exact hreceiver hsome

/-! Two programs. In the first an array has two names, one of which is passed to a method that only
looks at it, before a secret is stored through the other name. In the second a box is passed to a
sink that has a body, while sinks are not inspected. -/

def viewedArray : Local := ⟨⟨0⟩, "b", .array .string⟩

def viewing (third : Action) : List Description :=
  let array : Local := ⟨⟨0⟩, "a", .array .string⟩
  let text (name : String) : Local := ⟨⟨0⟩, name, .string⟩
  [.method "<A: void main()>" true false,
    .method "<A: void look(String[])>" true false,
    .statement ⟨0⟩ (.assign (.local array) (.newArray .string (.int 1))),
    .statement ⟨0⟩ (.assign (.local viewedArray) (.local array)),
    .statement ⟨0⟩ third,
    .statement ⟨0⟩ (.assign (.local (text "x")) (.invoke none ⟨"Sec", "String", "get", []⟩ [])),
    .statement ⟨0⟩ (.assign (.element array (.int 0)) (.local (text "x"))),
    .statement ⟨0⟩ (.assign (.local (text "y")) (.element viewedArray (.int 0))),
    .statement ⟨0⟩ (.invoke ⟨none, ⟨"Net", "void", "send", ["String"]⟩, [.local (text "y")]⟩),
    .statement ⟨0⟩ (.return none),
    .statement ⟨1⟩ (.identity ⟨⟨1⟩, "p", .array .string⟩ (.parameter 0)),
    .statement ⟨1⟩ (.return none)]

def viewingSetup (third : Action) : Setup where
  program := (Program.ofDescription (viewing third)).toOption.getD ⟨#[], #[], #[], #[], #[], #[]⟩
  classifier := .ofStatements [⟨3⟩] [⟨6⟩]

def lookCall : Invocation := ⟨none, ⟨"A", "void", "look", ["String[]"]⟩, [.local viewedArray]⟩

def lookMethod : Method where
  signature := ⟨"A", "void", "look", ["String[]"]⟩
  isStatic := true
  isNative := false
  body := [⟨8⟩, ⟨9⟩]
  params := [⟨⟨1⟩, "p", .array .string⟩]
  thisLocal := none

/-- The array holds the secret already, or will hold it once it is stored. -/
def viewedFact (active : Bool) : Fact where
  taint := { path := .ofLocal viewedArray, source := ⟨3⟩, origin := .null, active := active,
             unit := if active then none else some ⟨4⟩ }

theorem heldBack_viewedFact (active : Bool) : HeldBack (viewingSetup (.invoke lookCall)) ⟨2⟩
    ⟨⟨2⟩, ⟨0⟩, .invoke lookCall⟩ lookCall ⟨1⟩ lookMethod (viewedFact active) where
  known := rfl
  calls := rfl
  callee_mem := by decide +kernel
  found := rfl
  concrete := rfl
  notInitializer := rfl
  count := rfl
  static_iff := by decide
  nonzero := by cases active <;> rfl
  notThrown := rfl
  fields_le := Nat.zero_le _
  unit_outside := by
    intro u hu
    cases active with
    | true => cases hu
    | false =>
      cases hu
      exact ⟨_, rfl, by decide⟩
  notAssigned := by
    intro y hy
    cases hy
  suppressed := by cases active <;> decide +kernel

theorem heldBack_roundTrips_viewing :
    RoundTrips (viewingSetup (.invoke lookCall)) ⟨2⟩ ⟨1⟩ (viewedFact true) ∧
    ¬ RoundTrips (viewingSetup (.invoke lookCall)) ⟨2⟩ ⟨1⟩ (viewedFact false) := by
  have hbuilt : (viewingSetup (.invoke lookCall)).program.Built := ⟨viewing (.invoke lookCall), rfl⟩
  have hbinds : lookMethod.BindsApart := by
    refine ⟨?_, nofun⟩
    rintro l (hl | hl)
    · rw [List.mem_singleton.mp hl]
      decide
    · cases hl
  constructor
  · rw [heldBack_roundTrips_iff hbuilt rfl (heldBack_viewedFact true) hbinds]
    exact ⟨Or.inl rfl, Or.inr (Or.inl rfl)⟩
  · rw [heldBack_roundTrips_iff hbuilt rfl (heldBack_viewedFact false) hbinds]
    rintro ⟨-, hreceiver | hactive | hfields⟩
    · cases hreceiver
    · cases hactive
    · exact hfields rfl

def boxedSink : List Description :=
  let box : Local := ⟨⟨0⟩, "b", .object "Box"⟩
  [.method "<A: void main()>" true false,
    .method "<Net: void send(Box)>" true false,
    .statement ⟨0⟩ (.assign (.local box) (.new "Box")),
    .statement ⟨0⟩ (.invoke ⟨none, ⟨"Net", "void", "send", ["Box"]⟩, [.local box]⟩),
    .statement ⟨0⟩ (.return none),
    .statement ⟨1⟩ (.identity ⟨⟨1⟩, "p", .object "Box"⟩ (.parameter 0)),
    .statement ⟨1⟩ (.return none)]

def boxedSinkSetup : Setup where
  program := (Program.ofDescription boxedSink).toOption.getD ⟨#[], #[], #[], #[], #[], #[]⟩
  settings := { inspectSinks := false }
  classifier := .ofStatements [] [⟨1⟩]

def boxedFact : Fact where
  taint := { path := .ofLocal ⟨⟨0⟩, "b", .object "Box"⟩, source := ⟨0⟩, origin := .null }

theorem heldBack_boxedFact : ∃ stmt invocation method,
    HeldBack boxedSinkSetup ⟨1⟩ stmt invocation ⟨1⟩ method boxedFact := by
  let call : Invocation := ⟨none, ⟨"Net", "void", "send", ["Box"]⟩,
    [.local ⟨⟨0⟩, "b", .object "Box"⟩]⟩
  refine ⟨⟨⟨1⟩, ⟨0⟩, .invoke call⟩, call, ⟨⟨"Net", "void", "send", ["Box"]⟩, true, false,
    [⟨3⟩, ⟨4⟩], [⟨⟨1⟩, "p", .object "Box"⟩], none⟩, ?_⟩
  exact {
    known := rfl
    calls := rfl
    callee_mem := by decide +kernel
    found := rfl
    concrete := rfl
    notInitializer := rfl
    count := rfl
    static_iff := by decide
    nonzero := rfl
    notThrown := rfl
    fields_le := Nat.zero_le _
    unit_outside := by
      intro u hu
      cases hu
    notAssigned := by
      intro y hy
      cases hy
    suppressed := by decide +kernel }

/-- Both facts are held back and lost. For the array this is a leak that goes unreported, and that
is reported where nothing looks at the array. -/
theorem heldBack_lost :
    (HeldBack (viewingSetup (.invoke lookCall)) ⟨2⟩ ⟨⟨2⟩, ⟨0⟩, .invoke lookCall⟩ lookCall ⟨1⟩
      lookMethod (viewedFact false) ∧
      ¬ RoundTrips (viewingSetup (.invoke lookCall)) ⟨2⟩ ⟨1⟩ (viewedFact false)) ∧
    ((∃ stmt invocation method, HeldBack boxedSinkSetup ⟨1⟩ stmt invocation ⟨1⟩ method boxedFact) ∧
      ¬ RoundTrips boxedSinkSetup ⟨1⟩ ⟨1⟩ boxedFact) ∧
    (∃ out, (viewingSetup (.invoke lookCall)).analyze [⟨0⟩] 60 = .ok out ∧ out.completed = true ∧
      out.final.findings.containsFlow ⟨6⟩ ⟨3⟩ = false) ∧
    ∃ out, (viewingSetup .nop).analyze [⟨0⟩] 60 = .ok out ∧
      out.final.findings.containsFlow ⟨6⟩ ⟨3⟩ = true := by
  have hnothing : ∀ {x : Setup} {call : StmtId} {callee : MethodId} {f : Fact},
      (enter x call callee f).facts.isEmpty = true → ¬ RoundTrips x call callee f := by
    rintro x call callee f hempty ⟨g, hg, -⟩
    rw [List.isEmpty_iff.mp hempty] at hg
    cases hg
  have hmissed : ((viewingSetup (.invoke lookCall)).analyze [⟨0⟩] 60).toOption.any (fun out =>
      out.completed && !out.final.findings.containsFlow ⟨6⟩ ⟨3⟩) = true := by
    decide +kernel
  have hfound : ((viewingSetup .nop).analyze [⟨0⟩] 60).toOption.any (fun out =>
      out.final.findings.containsFlow ⟨6⟩ ⟨3⟩) = true := by
    decide +kernel
  obtain ⟨out, hrun, hout⟩ := exists_of_any_toOption hmissed
  simp only [Bool.and_eq_true, Bool.not_eq_true'] at hout
  exact ⟨⟨heldBack_viewedFact false, hnothing (by decide +kernel)⟩,
    ⟨heldBack_boxedFact, hnothing (by decide +kernel)⟩, ⟨out, hrun, hout⟩,
    exists_of_any_toOption hfound⟩

end Forward

end TaintFlow
