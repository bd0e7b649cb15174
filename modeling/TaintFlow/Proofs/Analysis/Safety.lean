import TaintFlow.Proofs.Analysis.ActivationUnits
import TaintFlow.Proofs.Analysis.Phases
import TaintFlow.Proofs.Program.Realization

/-!
# Runs that look up nothing in vain

Statements and methods are looked up by their numbers, and the numbers come from many places: from
the tables of the program, from path edges, from activation units and the levels of alias
candidates, from what one side hands to the other, and from the lists of callers. In a built program
all of these are numbers of statements and methods that exist. So a run over a program whose calls
pass as many arguments as their callees take never breaks off (`Setup.inRange_of_argumentsMatch`),
whatever the entry methods, the classifier and the library model are.

The number of the zero fact's source, which is no statement, is never looked up: zero facts have
neither an activation unit nor a level.
-/

namespace TaintFlow

open Tabulation

/-- Every call passes as many arguments as each of its callees with a body takes, static
initializers aside. -/
def Program.ArgumentsMatch (p : Program) : Prop :=
  ∀ stmt ∈ p.stmts, ∀ call ∈ stmt.call?, ∀ callee ∈ p.calleesOf stmt.id,
    ∀ method ∈ p.method? callee, method.isConcrete = true →
      method.signature.isStaticInitializer = false → method.params.length = call.args.length

/-- The method exists. -/
def Program.HasMethod (p : Program) (m : MethodId) : Prop := ∃ method, p.method? m = some method

/-- The tables of the program name nothing but statements and methods of the program. -/
structure Program.Closed (p : Program) : Prop where
  id_eq : ∀ {s stmt}, p.stmt? s = some stmt → stmt.id = s
  owner : ∀ {s}, p.Has s → p.HasMethod (p.ownerOf s)
  bodies : ∀ {m s}, s ∈ p.bodyOf m → p.Has s
  starts : ∀ {d : Direction} {m s}, s ∈ (p.view d).startsOf m → p.Has s
  succs : ∀ {d : Direction} {s t}, t ∈ (p.view d).succsOf s → p.Has s ∧ p.Has t
  callees : ∀ {s m}, m ∈ p.calleesOf s → p.Has s ∧ p.HasMethod m
  callers : ∀ {s m}, s ∈ p.callersOf m → p.Has s ∧ p.HasMethod m

/-- Nothing is looked up in vain when both sides go on from this state: the steps succeed, and so
does every reaction to an edge of the program for which a path edge of the state asks. -/
structure Coupled.InRange (x : Setup) (c : Coupled) : Prop where
  steps : ∀ d, ∃ r, c.step x d = .ok r
  nodes : ∀ d e, (c.state d).Carries e → x.program.Has e.node
  awaited : ∀ d e, (c.state d).Carries e → ∀ s, e.context.Awaits s ∨ e.fact.taint.Awaits s →
    x.program.Has s
  callers : ∀ d {start k call t}, (k, call, t) ∈ (c.state d).incoming.rows start →
    x.program.Has start ∧ x.program.Has call
  summaries : ∀ d {start k exit f}, (k, exit, f) ∈ (c.state d).summaries.rows start →
    x.program.Has start ∧ x.program.Has exit
  reactions : ∀ d {q f l}, Owed (x.problem d) (fun _ _ _ _ => True)
      (.full {e | (c.state d).Carries e} {e | (c.state d).Carries e}) q f l →
    (∀ fault, q.flowEdge.LooksUp fault → ¬ x.program.Lacks fault) ∧
      ∀ halted, (x.react d halted q.flowEdge f).fault = none

/-! ## Tables -/

theorem Program.Built.exists_describes {p : Program} (hp : p.Built) :
    ∃ (b : Builder) (steps : List Description), b.Describes steps ∧ b.build = .ok p := by
  obtain ⟨steps, hsteps⟩ := hp
  obtain ⟨b, hb, hbuild⟩ := exists_of_bind_eq_ok hsteps
  have hd : (Builder.after steps).refused = none → (Builder.after steps).Describes steps :=
    Builder.describes_after
  rw [Builder.after_of_followAll hb] at hd
  exact ⟨b, steps, hd (Builder.refused_of_build hbuild), hbuild⟩

theorem Program.Built.hasMethod_ownerOf {p : Program} (hp : p.Built) {s : StmtId} (hs : p.Has s) :
    p.HasMethod (p.ownerOf s) := by
  obtain ⟨b, steps, hd, hbuild⟩ := hp.exists_describes
  obtain ⟨stmt, hstmt⟩ := exists_stmt_of_has hs
  obtain ⟨method, hmethod, -⟩ := exists_owner hd hbuild hstmt
  refine ⟨method, ?_⟩
  unfold ownerOf
  rw [hstmt]
  exact hmethod

theorem Program.Built.closed {p : Program} (hp : p.Built) : p.Closed where
  id_eq := hp.id_eq
  owner := hp.hasMethod_ownerOf
  bodies := hp.has_of_mem_bodyOf
  starts := hp.has_of_mem_startsOf
  succs ht := ⟨hp.has_of_succsOf ht, hp.has_of_mem_succsOf ht⟩
  callees hm :=
    ⟨hp.has_of_mem_callersOf (hp.mem_callersOf_of_mem_calleesOf hm),
      hp.exists_method_of_mem_calleesOf hm⟩
  callers hs :=
    ⟨hp.has_of_mem_callersOf hs,
      hp.exists_method_of_mem_calleesOf (hp.mem_calleesOf_of_mem_callersOf hs)⟩

/-! ## Faults -/

section

variable {x : Setup} (hp : x.program.Built)

include hp

theorem Program.ArgumentsMatch.not_mismatch (hmatch : x.program.ArgumentsMatch) (e : Fault) :
    ¬ x.Mismatch e := by
  intro hmismatch
  cases hmismatch with
  | @mk call callee stmt invocation method hcall hcallee hmethod hconcrete hinit hcount =>
    rw [← hp.id_eq hcall.known] at hcallee
    exact hcount (hmatch stmt (mem_stmts hcall.known) invocation hcall.calls callee hcallee
      method hmethod hconcrete hinit)

omit hp in
theorem Setup.Pends.has {t : Taint} (h : x.Pends t) {s : StmtId} (hs : t.Awaits s) :
    x.program.Has s := by
  have hacts : x.Acts s := hs.elim (h.unit s) (h.level s)
  obtain ⟨a, ha, -⟩ := hacts
  exact Program.has_of_stmt? ha

variable (hmatch : x.program.ArgumentsMatch) {d : Direction} {q : Query} {f : Fact}
  {l : Landing Taint}

include hmatch

/-- No question about path edges of the program ends in a fault. -/
theorem Extent.Owes.fault_eq_none (h : (x.program.edgesWith x.Pends).Owes x d q f l) :
    (x.reply d q f).fault = none := by
  obtain ⟨hf, -⟩ := Program.lands_of_owed hp Setup.pends_zero h
  apply Option.eq_none_iff_forall_not_mem.mpr
  intro e he
  have hunit : ∀ s ∈ f.taint.unit, x.program.Has s := fun s hs => hf.has (Or.inl hs)
  exact hmatch.not_mismatch hp e (h.mismatch hp (fun e he => he.1) hunit he)

theorem Program.bounds_pends (hnative : x.native = .conservative) :
    (x.program.edgesWith x.Pends).Bounds x fun _ => False where
  facts := by
    intro d q f l howes g hg
    obtain ⟨hf, hlands⟩ := lands_of_owed hp Setup.pends_zero howes
    exact hlands g ((Setup.pends_reply hp hnative d q hf).1 g (Setup.answer_subset hg))
  handed := by
    intro d q f l howes h hh
    obtain ⟨hf, -⟩ := lands_of_owed hp Setup.pends_zero howes
    have hpends := (Setup.pends_reply hp hnative d q hf).2 h hh
    exact ⟨hp.has_of_mem_succsOf (Setup.site_of_handed hp hh).1, hpends, hpends⟩
  findings _ _ _ := trivial
  fault := by
    intro d q f l howes e he
    rw [howes.fault_eq_none hp hmatch] at he
    cases he
  ranged _ e he := Or.inl he.1

end

/-! ## Runs -/

section

variable {x : Setup} (hp : x.program.Built) {c : Coupled}

include hp

/-- A run ends in no other faults than its steps. -/
theorem Coupled.fault_of_solve {E : Extent} {faults : Fault → Prop} (hE : E.Bounds x faults)
    (h : E.Confines x faults c) {fuel : Nat} {e : Fault}
    (hsolve : Coupled.solve x fuel c = .error e) : faults e := by
  induction fuel generalizing c with
  | zero => cases hsolve
  | succ fuel ih =>
    cases hround : c.round x with
    | error e' =>
      unfold Coupled.solve at hsolve
      rw [hround] at hsolve
      cases hsolve
      exact fault_of_round hE hp h hround
    | ok r =>
      have hnext := (confines_of_round hE hp h hround).1
      rw [solve_of_round hround] at hsolve
      split at hsolve
      · cases hsolve
      · split at hsolve
        · cases hsolve
        · exact ih hnext hsolve

theorem Coupled.inRange_of_confines (hmatch : x.program.ArgumentsMatch)
    (hnative : x.native = .conservative)
    (h : (x.program.edgesWith x.Pends).Confines x (fun _ => False) c) : c.InRange x := by
  have hbounds := Program.bounds_pends hp hmatch hnative
  have hcarries : ∀ d e, (c.state d).Carries e → e ∈ (x.program.edgesWith x.Pends).edges d :=
    fun d _ he => (h.admits d).carries he
  -- a step, the edges, the waiting numbers, the two indices, and the questions that are left
  refine ⟨?_, ?_, ?_, ?_, ?_, ?_⟩
  · intro d
    cases hstep : c.step x d with
    | ok r => exact ⟨r, rfl⟩
    | error e => exact (fault_of_step hbounds hp h hstep).elim
  · intro d e he
    exact (hcarries d e he).1
  · intro d e he s hs
    obtain ⟨-, hcontext, hfact⟩ := hcarries d e he
    exact hs.elim hcontext.has hfact.has
  · intro d start k call t hrow
    obtain ⟨⟨e, he, rfl, -⟩, -, m, -, hstart, -⟩ := (h.admits d).confines.incoming hrow
    exact ⟨hp.has_of_mem_startsOf hstart, he.1⟩
  · intro d start k exit f hrow
    obtain ⟨he, -, hstart⟩ := (h.admits d).confines.summaries hrow
    exact ⟨hp.has_of_mem_startsOf hstart, he.1⟩
  · intro d q f l howed
    have howes : (x.program.edgesWith x.Pends).Owes x d q f l :=
      howed.mono (Progress.full_le (hcarries d) (hcarries d)) fun _ _ _ _ _ => trivial
    have hfault := howes.fault_eq_none hp hmatch
    refine ⟨fun fault hlooks => howes.found hp (fun e he => he.1) hlooks, ?_⟩
    intro halted
    -- a halted analysis has no fault that a running one has not
    cases halted with
    | false => exact hfault
    | true =>
      apply Option.eq_none_iff_forall_not_mem.mpr
      intro e he
      have he' := (Setup.react_halted x d q.flowEdge f).2.2.2 e he
      change e ∈ (x.reply d q f).fault at he'
      rw [hfault] at he'
      cases he'

/-- In a built program whose calls match their callees nothing is looked up in vain: the tables of
the program are closed, every state of every run goes on without a fault and holds no number but
those of the program, and no analysis ends in a fault. Arguments and fields are read only where they
are. -/
theorem Setup.inRange_of_argumentsMatch (hmatch : x.program.ArgumentsMatch)
    (hnative : x.native = .conservative) {entries : List MethodId} {starts : List StmtId}
    (hcheck : x.check entries = .ok starts) :
    x.program.Closed ∧ (∀ c, Coupled.Reachable x starts c → c.InRange x) ∧
    (∀ fuel fault, x.analyze entries fuel ≠ .error (.faulted fault)) ∧
    (∀ stmt f args, ∀ v ∈ NativeModel.written stmt f args, v ∈ args) ∧
    ∀ (path : AccessPath) (cut : Bool), path.remainder cut <:+ path.fields := by
  have hbounds := Program.bounds_pends hp hmatch hnative
  have hknown := Setup.has_of_entryPoints hp (Setup.entryPoints_of_check hcheck)
  have hstarts : ∀ s ∈ starts, (⟨.zero, s, .zero⟩ : Edge Fact Taint) ∈
      (x.program.edgesWith x.Pends).edges .forward :=
    fun s hs => ⟨hknown s hs, pends_zero, pends_zero⟩
  refine ⟨hp.closed, ?_, ?_, fun _ _ _ _ => NativeModel.mem_written, AccessPath.remainder_suffix⟩
  · intro c h
    have hconfines := Coupled.confines_of_reachable hbounds hp hstarts h
    exact Coupled.inRange_of_confines hp hmatch hnative hconfines
  · intro fuel fault hanalyze
    unfold analyze runFrom Coupled.outcome at hanalyze
    rw [hcheck] at hanalyze
    dsimp only at hanalyze
    split at hanalyze
    · next e hsolve =>
      exact Coupled.fault_of_solve hp hbounds (Extent.confines_ofStarts hstarts) hsolve
    · cases hanalyze
    · cases hanalyze

end

/-- The method that calls itself with its argument wrapped once more takes one argument, and is
passed one by both of its calls. -/
theorem Setup.inRange_wrapping : ∃ c, Coupled.Reachable wrappingSetup [⟨0⟩] c ∧
    (∃ e ∈ c.backward.edges, e.fact.isActive = false) ∧ c.InRange wrappingSetup ∧
    ∀ fuel fault, wrappingSetup.analyze [⟨0⟩] fuel ≠ .error (.faulted fault) := by
  have hrun : ((Coupled.ofStarts [⟨0⟩]).steps wrappingSetup [.forward, .forward, .forward, .forward,
      .backward]).toOption.any (fun c => c.backward.edges.toList.any fun e => !e.fact.isActive) =
      true := by
    decide +kernel
  obtain ⟨c, hsteps, hc⟩ := exists_of_any_toOption hrun
  simp only [List.any_eq_true, Array.mem_toList_iff, Bool.not_eq_true'] at hc
  have hmatch : wrappingSetup.program.ArgumentsMatch := by
    unfold Program.ArgumentsMatch
    decide +kernel
  have hcheck : wrappingSetup.check [⟨0⟩] = .ok [⟨0⟩] := by decide +kernel
  have hreachable := Coupled.Reachable.start.steps hsteps
  obtain ⟨-, hrange, hanalyze, -⟩ :=
    inRange_of_argumentsMatch ⟨wrapping, rfl⟩ hmatch rfl hcheck
  exact ⟨c, hreachable, hc, hrange c hreachable, hanalyze⟩

end TaintFlow
