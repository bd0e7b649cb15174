import TaintFlow.Proofs.Analysis.CallSinks
import TaintFlow.Proofs.Flow.PathLanguage
import TaintFlow.Proofs.Flow.RoundTrip

/-!
# What the result of a call overwrites

Both `t = c` and `t = m(args)` put a new value into `t`, and what was behind `t` before is gone. The
analysis decides about the two in different places. An assignment drops a fact whose path starts
with its target, unless the target is an element of an array. A call drops it only if the target is
a local. So the two agree except on fields (`Forward.result_overwrites_iff`): the result of a call
that goes to a field leaves behind the taint that it overwrites. For a field of an instance this is
a slip. For a static field it follows from a rule of its own, by which facts about static fields
pass every call by (`Forward.static_passes_by`).
-/

namespace TaintFlow

/-- The path is rooted neither at an argument nor at the receiver. -/
def Invocation.Apart (invocation : Invocation) (p : AccessPath) : Prop :=
  ∀ l, p.root = .local l → Value.local l ∉ invocation.args ∧ invocation.receiver ≠ some l

/-- At `call` the result of an invocation goes to `target`. The call is no source, no library model
makes anything of the fact, and the fact is about no operand. -/
structure Setup.StoresResult (x : Setup) (call : StmtId) (stmt : Stmt) (invocation : Invocation)
    (target : Value) (f : Fact) : Prop where
  known : x.program.stmt? call = some stmt
  action : stmt.action = .assign target invocation.toValue
  notSource : x.isSource stmt = false
  unmodelled : ∀ library, x.library = some library → library.derived stmt f.path = []
  apart : invocation.Apart f.path

theorem AccessPath.isRootedAt_iff {p t : AccessPath} {v : Value} (h : v.Names t) :
    p.isRootedAt v = true ↔ p ∈ t.language ∧ v.isFieldOrElement = false := by
  rw [mem_language]
  cases h <;> simp [isRootedAt, startsAt_eq_true, Value.isFieldOrElement]

section

variable {invocation : Invocation} {p : AccessPath} (h : invocation.Apart p)

include h

theorem Invocation.Apart.args : invocation.args.any p.isRootedAt = false := by
  rw [← Bool.not_eq_true]
  intro harg
  obtain ⟨l, hroot, hoperand⟩ := AccessPath.operand_iff.mp (Or.inl harg)
  exact hoperand.elim (h l hroot).1 (h l hroot).2

theorem Invocation.Apart.receiver : invocation.receiver.any p.startsAt = false := by
  rw [← Bool.not_eq_true]
  intro hreceiver
  obtain ⟨l, hroot, hoperand⟩ := AccessPath.operand_iff.mp (Or.inr hreceiver)
  exact hoperand.elim (h l hroot).1 (h l hroot).2

end

namespace Forward

open Reaction

variable {x : Setup} {call : StmtId} {stmt : Stmt} {invocation : Invocation} {target : Value}
  {t : AccessPath} {f : Fact}

theorem fault_modelled : (modelled x stmt invocation f).fault = none := by
  unfold modelled
  split
  · rfl
  · dsimp only
    split
    · rfl
    · refine (sequence_spec ?_).1
      intro r hr
      obtain ⟨path, -, rfl⟩ := List.mem_map.mp hr
      rfl

/-- A call does with a fact what the library model says, and lets it pass by or not. -/
theorem mem_taints_bypass (hcall : x.CallAt call stmt invocation) :
    (bypass x call f).fault = none ∧
    (modelled x stmt invocation (f.activateAt call)).taints ⊆ (bypass x call f).taints ∧
    (passesBy x stmt invocation (f.activateAt call) = true →
      (f.activateAt call).taint ∈ (bypass x call f).taints) := by
  unfold bypass Setup.withStmt
  rw [hcall.known]
  dsimp only
  rw [hcall.calls]
  dsimp only
  refine ⟨fault_append fault_modelled, ?_, ?_⟩
  · intro t ht
    exact (mem_taints_append fault_modelled).mpr (Or.inl ht)
  · intro hpasses
    rw [hpasses]
    refine (mem_taints_append fault_modelled).mpr (Or.inr ?_)
    exact List.mem_map.mpr ⟨_, List.mem_cons_self .., rfl⟩

/-- Neither a callee nor the library model gives a fact back that is about no operand. It passes by
unless it is overwritten. -/
theorem passesBy_of_apart (h : invocation.Apart f.path) :
    passesBy x stmt invocation f = !stmt.target?.any f.path.isRootedAt := by
  have hargs : (invocation.args.any fun arg =>
      arg.isTransferable && f.path.isRootedAt arg) = false := by
    have hnone := List.any_eq_false.mp h.args
    rw [List.any_eq_false]
    intro arg harg hboth
    exact hnone arg harg (Bool.and_eq_true_iff.mp hboth).2
  unfold passesBy
  rw [h.receiver, hargs]
  simp

section

variable (h : x.StoresResult call stmt invocation target f)

include h

theorem modelled_of_storesResult : modelled x stmt invocation f = {} := by
  unfold modelled
  split
  · rfl
  · next library hlibrary =>
    dsimp only
    split
    · rfl
    · rw [h.unmodelled library hlibrary]
      rfl

/-- All that such a call does to the fact is to overwrite it, or not. -/
theorem bypass_of_storesResult (hactive : f.isActive = true) :
    bypass x call f = .pass (if f.path.isRootedAt target then [] else [f]) := by
  have hcalls : stmt.call? = some invocation := congrArg Action.call? h.action
  have htarget : stmt.target? = some target := congrArg Action.target? h.action
  -- the fact is apart from the call, so nothing is derived from it and nothing leaks
  have hnative : throughNative x stmt invocation f = [] := by
    unfold throughNative
    simp [h.apart.args]
  have hcreated : created x stmt invocation f = [] := by
    unfold created
    simp [h.notSource]
  have hleaks : callLeaks x stmt invocation f = [] := by
    unfold callLeaks
    simp [h.apart.args, h.apart.receiver]
  unfold bypass Setup.withStmt
  rw [h.known]
  dsimp only
  rw [hcalls]
  dsimp only
  rw [f.activateAt_of_active hactive, modelled_of_storesResult h, passesBy_of_apart h.apart,
    htarget, hnative, hcreated, hleaks, empty_append, Option.any_some]
  cases f.path.isRootedAt target <;> rfl

theorem mem_taints_bypass_iff (ht : target.Names t) (hactive : f.isActive = true) :
    f.taint ∈ (bypass x call f).taints ↔
      ¬ (f.path ∈ t.language ∧ target.isFieldOrElement = false) := by
  rw [bypass_of_storesResult h hactive, ← AccessPath.isRootedAt_iff ht]
  cases f.path.isRootedAt target <;> simp [Reaction.pass, taints]

end

theorem mem_taints_assign_constant_iff (x : Setup) (stmt : Stmt) {c : Value}
    (hc : c.isConstant = true) (ht : target.Names t) (hzero : f.isZero = false) :
    f.taint ∈ (assign x stmt target c f).taints ↔
      ¬ (f.path ∈ t.language ∧ target.isElement = false) := by
  constructor
  · rintro hkept ⟨hbehind, helement⟩
    rw [assign_eq_empty hzero ht (.constant hc) (List.forall_mem_nil _) hbehind helement] at hkept
    cases hkept
  · intro hoff
    exact mem_taints_assign_kept (mt (AccessPath.passesThrough_iff ht).mp hoff)

/-- Let an active fact with taint meet a call that stores its result, and in the same or another
program an assignment of a constant to the same place. Both flows return. They agree on whether the
fact is kept, unless the place is a field that the path of the fact starts with: then the assignment
drops the fact and the call keeps it. -/
theorem result_overwrites_iff {y : Setup} {s : StmtId} {stmt' : Stmt} {c : Value}
    (site succ : StmtId) (w w' : World) (h : x.StoresResult call stmt invocation target f)
    (hstmt : y.program.stmt? s = some stmt') (haction : stmt'.action = .assign target c)
    (hc : c.isConstant = true) (ht : target.Names t) (hactive : f.isActive = true)
    (hzero : f.isZero = false) (hhalted : x.isHalted w.findings = false)
    (hhalted' : y.isHalted w'.findings = false) :
    ∃ after after' v v',
      ((x.problem .forward).bypass call site f).run w = .ok (after, v) ∧
      ((y.problem .forward).normal s succ f).run w' = .ok (after', v') ∧
      (f.taint ∈ after.map Fact.taint ↔
        ¬ (f.path ∈ t.language ∧ target.isFieldOrElement = false)) ∧
      (f.taint ∈ after'.map Fact.taint ↔ ¬ (f.path ∈ t.language ∧ target.isElement = false)) ∧
      ((f.taint ∈ after.map Fact.taint ↔ f.taint ∈ after'.map Fact.taint) ↔
        (f.path ∈ t.language → target.isFieldOrElement = true → target.isElement = true)) := by
  have hfault : (bypass x call f).fault = none := by
    rw [bypass_of_storesResult h hactive]
    rfl
  obtain ⟨after, hrun, hafter⟩ :=
    Setup.exists_run_eq_ok (d := .forward) hhalted (.bypass call) f hfault
  obtain ⟨after', hrun', hafter'⟩ := run_normal_assign succ hhalted' hstmt haction hactive
  have hkept := mem_taints_bypass_iff h ht hactive
  have hkept' := mem_taints_assign_constant_iff y stmt' hc ht hzero
  have hmem : f.taint ∈ after.map Fact.taint ↔ f.taint ∈ (bypass x call f).taints :=
    (hafter.map Fact.taint).mem_iff
  have hmem' : f.taint ∈ after'.map Fact.taint ↔ f.taint ∈ (assign y stmt' target c f).taints :=
    (hafter'.map Fact.taint).mem_iff
  refine ⟨after, after', _, _, hrun, hrun', hmem.trans hkept, hmem'.trans hkept', ?_⟩
  rw [hmem, hmem', hkept, hkept']
  -- place by place: the two tests differ for instance and static fields
  cases ht <;> simp [Value.isFieldOrElement, Value.isElement]

/-! A secret is put into a place, the place is given something else, and what is in it is sent. -/

def cellOf (name : String) (type : Ty) : Local := ⟨⟨0⟩, name, type⟩

def refilled (target source : Value) : Setup :=
  let secret := cellOf "x" (.primitive "int")
  let sent := cellOf "y" (.primitive "int")
  .ofMain [getInto secret, .assign target (.local secret), .assign target source,
    .assign (.local sent) target, sendOf sent, .return none] []

def readLibrary : Invocation := ⟨none, ⟨"Lib", "int", "read", []⟩, []⟩

def secretAt (path : AccessPath) : Fact where
  taint := { path, source := ⟨0⟩, origin := .null }

/-- Whether the secret is kept where the place is given the result of a call, and where it is given
a constant. -/
def Refills (target : Value) (path : AccessPath) (byCall byConstant : Prop) : Prop :=
  ∃ after after' v v',
    (((refilled target readLibrary.toValue).problem .forward).bypass ⟨2⟩ ⟨3⟩
      (secretAt path)).run {} =
      .ok (after, v) ∧
    (((refilled target (.int 0)).problem .forward).normal ⟨2⟩ ⟨3⟩ (secretAt path)).run {} =
      .ok (after', v') ∧
    ((secretAt path).taint ∈ after.map Fact.taint ↔ byCall) ∧
    ((secretAt path).taint ∈ after'.map Fact.taint ↔ byConstant)

theorem storesResult_refilled (target : Value) (path : AccessPath)
    (hknown : (refilled target readLibrary.toValue).program.stmt? ⟨2⟩ =
      some ⟨⟨2⟩, ⟨0⟩, .assign target readLibrary.toValue⟩) :
    (refilled target readLibrary.toValue).StoresResult ⟨2⟩
      ⟨⟨2⟩, ⟨0⟩, .assign target readLibrary.toValue⟩ readLibrary target (secretAt path) where
  known := hknown
  action := rfl
  notSource := rfl
  unmodelled := by
    intro library hlibrary
    cases hlibrary
  apart := by
    intro l _
    exact ⟨List.not_mem_nil, Option.some_ne_none l |>.symm⟩

/-- In a local the secret is overwritten by the result of a call as it is by a constant, in an array
by neither. -/
theorem result_overwrites_iff_refilled :
    Refills (.local (cellOf "b" .string)) ⟨.local (cellOf "b" .string), []⟩ False False ∧
    Refills (.element (cellOf "a" (.array .string)) (.int 0))
      ⟨.local (cellOf "a" (.array .string)), []⟩ True True := by
  constructor
  · obtain ⟨after, after', v, v', hrun, hrun', hkept, hkept', -⟩ := result_overwrites_iff
      (y := refilled (.local (cellOf "b" .string)) (.int 0)) (s := ⟨2⟩) ⟨3⟩ ⟨3⟩ {} {}
      (storesResult_refilled (.local (cellOf "b" .string)) ⟨.local (cellOf "b" .string), []⟩ rfl)
      rfl rfl rfl (.local _) rfl rfl rfl rfl
    refine ⟨after, after', v, v', hrun, hrun', hkept.trans ?_, hkept'.trans ?_⟩
    · simp [secretAt, Fact.path, AccessPath.mem_language, Value.isFieldOrElement]
    · simp [secretAt, Fact.path, AccessPath.mem_language, Value.isElement]
  · obtain ⟨after, after', v, v', hrun, hrun', hkept, hkept', -⟩ := result_overwrites_iff
      (y := refilled (.element (cellOf "a" (.array .string)) (.int 0)) (.int 0)) (s := ⟨2⟩) ⟨3⟩ ⟨3⟩
      {} {} (storesResult_refilled (.element (cellOf "a" (.array .string)) (.int 0))
        ⟨.local (cellOf "a" (.array .string)), []⟩ rfl)
      rfl rfl rfl (.element _ _) rfl rfl rfl rfl
    refine ⟨after, after', v, v', hrun, hrun', hkept.trans ?_, hkept'.trans ?_⟩
    · simp [Value.isFieldOrElement]
    · simp [Value.isElement]

theorem refills_of_runs {target : Value} {path : AccessPath}
    (hcall : ((((refilled target readLibrary.toValue).problem .forward).bypass ⟨2⟩ ⟨3⟩
      (secretAt path)).run {}).toOption.any
        (fun r => decide ((secretAt path).taint ∈ r.1.map Fact.taint)) = true)
    (hconstant : ((((refilled target (.int 0)).problem .forward).normal ⟨2⟩ ⟨3⟩
      (secretAt path)).run {}).toOption.any
        (fun r => decide ((secretAt path).taint ∉ r.1.map Fact.taint)) = true) :
    Refills target path True False := by
  obtain ⟨⟨after, v⟩, hrun, hkept⟩ := exists_of_any_toOption hcall
  obtain ⟨⟨after', v'⟩, hrun', hgone⟩ := exists_of_any_toOption hconstant
  exact ⟨after, after', v, v', hrun, hrun', iff_true_intro (of_decide_eq_true hkept),
    iff_false_intro (of_decide_eq_true hgone)⟩

/-- What the analysis of the whole program makes of it. -/
def Reports (x : Setup) (reported : Bool) : Prop :=
  ∃ out, x.analyze [⟨0⟩] 40 = .ok out ∧ out.completed = true ∧
    out.final.findings.containsFlow ⟨4⟩ ⟨0⟩ = reported

theorem reports_of_run {x : Setup} {reported : Bool}
    (h : ((x.analyze [⟨0⟩] 40).toOption.any fun out =>
      out.completed && out.final.findings.containsFlow ⟨4⟩ ⟨0⟩ == reported) = true) :
    Reports x reported := by
  obtain ⟨out, hrun, hout⟩ := exists_of_any_toOption h
  rw [Bool.and_eq_true, beq_iff_eq] at hout
  exact ⟨out, hrun, hout⟩

/-- In a field of an instance the secret outlives the call though not the constant, and after the
call it is reported as sent. -/
theorem field_keeps_overwritten_secret :
    Refills (.field (boxNamed "o") (boxField "secret"))
      ⟨.local (boxNamed "o"), [boxField "secret"]⟩ True False ∧
    Reports (refilled (.field (boxNamed "o") (boxField "secret")) readLibrary.toValue) true ∧
    Reports (refilled (.field (boxNamed "o") (boxField "secret")) (.int 0)) false := by
  refine ⟨refills_of_runs ?_ ?_, reports_of_run ?_, reports_of_run ?_⟩ <;> decide +kernel

/-- What is in a static field outlives every call, also one whose result goes to that field. Here
this is intended: a callee may read a static field without being handed anything, so such facts pass
all calls by. -/
theorem static_passes_by (hcall : x.CallAt call stmt invocation)
    (hstatic : f.path.isStatic = true) :
    (f.activateAt call).taint ∈ (bypass x call f).taints := by
  -- only paths that start at a local can be overwritten by a result
  have hunrooted : ∀ v, f.path.isRootedAt v = false := by
    intro v
    rw [← Bool.not_eq_true, AccessPath.isRootedAt_eq_true]
    rintro ⟨l, -, hroot⟩
    simp [AccessPath.isStatic, hroot] at hstatic
  have hoverwritten : stmt.target?.any f.path.isRootedAt = false := by
    cases stmt.target? with
    | none => rfl
    | some target => exact hunrooted target
  have hpasses : passesBy x stmt invocation (f.activateAt call) = true := by
    unfold passesBy
    rw [f.path_activateAt, hoverwritten, hstatic]
    simp
  exact (mem_taints_bypass hcall).2.2 hpasses

example :
    ((refilled (.static (boxField "shared")) readLibrary.toValue).analyze [⟨0⟩] 40).toOption.any
      (fun out => out.completed && out.final.findings.containsFlow ⟨4⟩ ⟨0⟩) = true := by
  decide +kernel

end Forward

end TaintFlow
