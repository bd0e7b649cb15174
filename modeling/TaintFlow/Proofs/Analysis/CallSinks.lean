import TaintFlow.Proofs.Analysis.Batching
import TaintFlow.Proofs.Analysis.Callless

/-!
# What is found at calls

Findings are written down while facts flow, by three rules: at assignments, at return statements and
at calls. When a run is over, what it has found at a call can be read off its table nevertheless. A
call that is a sink is reported for exactly the sources of those taints before it that one of its
operands carries and that are active by then, whether or not they survive the call.
-/

namespace TaintFlow

open Tabulation

/-- The taint reaches the call `n` through an operand: an argument that is a local, or the receiver.
It has to be active, at the latest when control passes the call. -/
structure Taint.LeaksAt (t : Taint) (n : StmtId) (invocation : Invocation) : Prop where
  genuine : t.isZero = false
  active : t.active = true ∨ t.activatedBy n = true
  operand : ∃ l, t.path.root = .local l ∧
    (.local l ∈ invocation.args ∨ invocation.receiver = some l)

/-! ## One call -/

section

variable {x : Setup} {n : StmtId} {stmt : Stmt} {invocation : Invocation} {f : Fact}

theorem AccessPath.operand_iff {p : AccessPath} :
    (invocation.args.any p.isRootedAt = true ∨ invocation.receiver.any p.startsAt = true) ↔
      ∃ l, p.root = .local l ∧ (.local l ∈ invocation.args ∨ invocation.receiver = some l) := by
  rw [List.any_eq_true, Option.any_eq_true]
  constructor
  · rintro (⟨v, hv, hrooted⟩ | ⟨l, hl, hstarts⟩)
    · obtain ⟨l, rfl, hroot⟩ := isRootedAt_eq_true.mp hrooted
      exact ⟨l, hroot, Or.inl hv⟩
    · exact ⟨l, startsAt_eq_true.mp hstarts, Or.inr hl⟩
  · rintro ⟨l, hroot, harg | hreceiver⟩
    · exact Or.inl ⟨.local l, harg, isRootedAt_eq_true.mpr ⟨l, rfl, hroot⟩⟩
    · exact Or.inr ⟨l, hreceiver, startsAt_eq_true.mpr hroot⟩

/-- Activation comes before the check, and changes neither the path nor the source. -/
theorem Fact.leaksAt_iff : f.taint.LeaksAt n invocation ↔
    (f.activateAt n).isActive = true ∧ (f.activateAt n).isZero = false ∧
      (invocation.args.any (f.activateAt n).path.isRootedAt = true ∨
        invocation.receiver.any (f.activateAt n).path.startsAt = true) := by
  have hzero : (f.activateAt n).isZero = f.taint.isZero := f.isZero_activateAt n
  have hactive : (f.activateAt n).isActive = true ↔
      f.taint.active = true ∨ f.taint.activatedBy n = true := by
    unfold activateAt isActive
    split
    · next hby => simp [activate, Taint.activate, hby]
    · next hby => simp [hby]
  rw [AccessPath.operand_iff, hzero, hactive, f.path_activateAt n]
  constructor
  · intro h
    exact ⟨h.active, h.genuine, h.operand⟩
  · rintro ⟨hactive, hgenuine, hoperand⟩
    exact ⟨hgenuine, hactive, hoperand⟩

theorem Fact.source_activateAt (f : Fact) (s : StmtId) :
    (f.activateAt s).taint.source = f.taint.source := by
  unfold activateAt
  split <;> rfl

theorem Forward.exists_mem_callLeaks (hsink : x.isSink stmt = true)
    (hleaks : f.taint.LeaksAt n invocation) :
    (f.activateAt n).findingAt stmt.id invocation.toValue ∈
      callLeaks x stmt invocation (f.activateAt n) := by
  obtain ⟨hactive, hzero, hoperand⟩ := Fact.leaksAt_iff.mp hleaks
  unfold callLeaks
  rw [hactive, hzero, hsink]
  simp only [Bool.not_false, Bool.and_self, if_true]
  rcases hoperand with harg | hreceiver
  · rw [if_pos harg]
    exact List.mem_append_left _ (List.mem_singleton_self _)
  · rw [if_pos hreceiver]
    exact List.mem_append_right _ (List.mem_singleton_self _)

/-- A leak is found whether or not the fact passes the call by. -/
theorem Forward.mem_findings_bypass (hcall : x.CallAt n stmt invocation)
    (hsink : x.isSink stmt = true) (hleaks : f.taint.LeaksAt n invocation)
    (hfault : (bypass x n f).fault = none) :
    (f.activateAt n).findingAt stmt.id invocation.toValue ∈ (bypass x n f).findings := by
  have hbypass : bypass x n f = modelled x stmt invocation (f.activateAt n) ++ {
      facts := (if passesBy x stmt invocation (f.activateAt n) then [f.activateAt n] else []) ++
        throughNative x stmt invocation (f.activateAt n) ++
          created x stmt invocation (f.activateAt n)
      findings := callLeaks x stmt invocation (f.activateAt n) } := by
    unfold bypass Setup.withStmt
    rw [hcall.known]
    dsimp only
    rw [hcall.calls]
  rw [hbypass] at hfault ⊢
  exact (Reaction.under_append hfault).2.2.findings _ (exists_mem_callLeaks hsink hleaks)

end

/-! ## Finished runs -/

namespace Coupled

variable {x : Setup} {c : Coupled}

/-- The table accounts for every finding at a call. -/
def accounted (x : Setup) (c : Coupled) : Extent where
  edges d := {e | c.Holds d e}
  pairs := {r | ∀ stmt invocation, x.CallAt r.1 stmt invocation → x.isSink stmt = true ∧
    ∃ context t, c.forward.holds context r.1 t = true ∧ t.source = r.2 ∧ t.LeaksAt r.1 invocation}

/-- Of the three rules that write findings down, only the one for calls writes at a call. -/
theorem mem_accounted_of_finds (hp : x.program.Built)
    {enters : StmtId → MethodId → Fact → Taint → Prop}
    {R : Set (Edge Fact Taint)} {q : Query} {f : Fact} {l : Landing Taint}
    (howed : Owed (x.problem .forward) enters (.full ((accounted x c).edges .forward) R) q f l)
    {r : Finding} (hfinds : Forward.Finds x q.flowEdge f r) :
    (r.sink, r.source) ∈ (accounted x c).pairs := by
  intro stmt invocation hcall
  obtain ⟨edge, hedge⟩ : ∃ edge, edge = q.flowEdge := ⟨_, rfl⟩
  rw [← hedge] at hfinds
  -- the statement of the finding is the call, so it makes an invocation
  have hsame : ∀ {s stmt'}, x.program.stmt? s = some stmt' → stmt'.id = r.sink →
      s = r.sink ∧ stmt' = stmt := by
    intro s stmt' hstmt' hid
    rw [hp.id_eq hstmt'] at hid
    subst hid
    exact ⟨rfl, Option.some.inj (hstmt'.symm.trans hcall.known)⟩
  cases hfinds with
  | @assigned s _ stmt' target source hstmt' haction =>
    obtain ⟨-, rfl⟩ := hsame hstmt' rfl
    cases howed with
    | @normal e succ he hnocall hsucc =>
      cases hedge
      have hiscall : x.program.isCall e.node = true := by
        unfold Program.isCall Action.isCall
        rw [hstmt']
        exact Option.isSome_of_eq_some hcall.calls
      rw [show (x.problem .forward).view.isCall e.node = x.program.isCall e.node from rfl,
        hiscall] at hnocall
      cases hnocall
    | release _ _ _ hrel => cases hrel <;> cases hedge
    | _ => cases hedge
  | @returned s _ stmt' result hstmt' haction =>
    obtain ⟨-, rfl⟩ := hsame hstmt' rfl
    have hcalls := hcall.calls
    unfold Stmt.call? at hcalls
    rw [haction] at hcalls
    cases hcalls
  | @left call callee exit _ stmt' result hstmt' haction =>
    obtain ⟨-, rfl⟩ := hsame hstmt' rfl
    have hcalls := hcall.calls
    unfold Stmt.call? at hcalls
    rw [haction] at hcalls
    cases hcalls
  | @called call _ stmt' invocation' hcall' hactive hzero hsink hoperand =>
    obtain ⟨hcalled, rfl⟩ := hsame hcall'.known rfl
    obtain rfl : invocation' = invocation := Option.some.inj (hcall'.calls.symm.trans hcall.calls)
    have hleaks : f.taint.LeaksAt call invocation' :=
      Fact.leaksAt_iff.mpr ⟨hactive, hzero, hoperand⟩
    refine ⟨hsink, ?_⟩
    cases howed with
    | @bypass e site he hiscall hsite =>
      cases hedge
      rw [← hcalled]
      exact ⟨e.context, e.fact.taint, he, (e.fact.source_activateAt e.node).symm, hleaks⟩
    | release _ _ _ hrel => cases hrel <;> cases hedge
    | _ => cases hedge

/-- In a finished run the table accounts for every finding at a call. -/
theorem Consistent.accounts {hstop : x.settings.stopAfterFirstFlow = false} {starts : List StmtId}
    {R : Direction → Set (Edge Fact Taint)} (hp : x.program.Built)
    (hnative : x.native.IgnoresBookkeeping) (h : Consistent hstop starts R c)
    (hidle : c.isIdle = true) : (accounted x c).Contains c := by
  have hfixed := h.isFixedPoint hp hidle
  refine h.least _ ?_ h.started
  apply Extent.closed_of_takesIn
  intro d q f l howed _
  have habsorbs : Absorbs x c d q f l := by
    refine absorbs_of_owed hnative hfixed.absorbs hfixed.coherent ?_
      (fun _ _ _ _ hent => hent) howed
    intro e he hexit _ q' l' hrel
    exact h.absorbs hidle (.release rfl he hexit hrel)
  refine ⟨habsorbs.facts, habsorbs.handed, ?_⟩
  intro r hr
  cases d with
  | forward => exact mem_accounted_of_finds hp howed ((Forward.within_react _).findings r hr)
  | backward => exact ((Backward.within_react _).findings r hr).elim

/-- A leak at a sink that control goes on from has been found. -/
theorem IsFixedPoint.containsFlow_of_leaksAt (h : IsFixedPoint x c) (hp : x.program.Built)
    {n : StmtId} {stmt : Stmt} {invocation : Invocation} (hcall : x.CallAt n stmt invocation)
    (hsucc : x.program.succsOf n ≠ []) (hsink : x.isSink stmt = true) {context t : Taint}
    (hheld : c.forward.holds context n t = true) (hleaks : t.LeaksAt n invocation) :
    c.findings.containsFlow n t.source = true := by
  obtain ⟨site, hsite⟩ := List.exists_mem_of_ne_nil _ hsucc
  obtain ⟨f, rfl, habsorbs⟩ := h.exists_absorbs (d := .forward) hheld hsite
  rw [along_call hcall] at habsorbs
  have hfound := habsorbs.findings _
    (Forward.mem_findings_bypass hcall hsink hleaks habsorbs.fault)
  rw [show ((f.activateAt n).findingAt stmt.id invocation.toValue).sink = n from
    hp.id_eq hcall.known] at hfound
  rw [← f.source_activateAt n]
  exact hfound

end Coupled

/-- When an analysis has run to its end, a call with a successor is reported for a source if and
only if it is a sink and the forward table holds before it a taint from that source which one of its
operands carries and which is active by then. -/
theorem containsFlow_call_iff {x : Setup} (hp : x.program.Built)
    (hnative : x.native.IgnoresBookkeeping) (hstop : x.settings.stopAfterFirstFlow = false)
    {entries : List MethodId} {fuel : Nat} {out : Outcome}
    (hrun : x.analyze entries fuel = .ok out) (hdone : out.completed = true) {n : StmtId}
    {stmt : Stmt} {invocation : Invocation} (hcall : x.CallAt n stmt invocation)
    (hsucc : x.program.succsOf n ≠ []) (s : StmtId) :
    out.final.findings.containsFlow n s = true ↔
      x.isSink stmt = true ∧ ∃ context t, out.final.forward.holds context n t = true ∧
        t.source = s ∧ t.LeaksAt n invocation := by
  obtain ⟨starts, -, hsolve⟩ := Setup.solve_of_analyze hrun
  rw [hdone] at hsolve
  obtain ⟨R, hconsistent, hidle⟩ := (Coupled.Consistent.ofStarts hstop starts).solve hp hsolve
  constructor
  · intro hflow
    obtain ⟨r, hr, rfl, rfl⟩ := Coupled.exists_of_containsFlow hflow
    have haccounts := hconsistent.accounts hp hnative (hidle rfl)
    exact haccounts.pairs r hr stmt invocation hcall
  · rintro ⟨hsink, context, t, hheld, rfl, hleaks⟩
    have hfixed := hconsistent.isFixedPoint hp (hidle rfl)
    exact hfixed.containsFlow_of_leaksAt hp hcall hsucc hsink hheld hleaks

/-- Of the taints before the call of `send`, those that leak are the ones from the call of `get`. -/
theorem containsFlow_call_iff_twoNames : ∃ out,
    Coupled.twoNamesSetup.analyze [⟨0⟩] 40 = .ok out ∧ out.completed = true ∧
    Coupled.twoNamesSetup.program.succsOf ⟨5⟩ ≠ [] ∧
    ∀ s, (∃ context t, out.final.forward.holds context ⟨5⟩ t = true ∧ t.source = s ∧
      t.LeaksAt ⟨5⟩ ⟨none, ⟨"Net", "void", "send", ["String"]⟩, [.local ⟨⟨0⟩, "y", .string⟩]⟩) ↔
        s = ⟨2⟩ := by
  have hrun : (Coupled.twoNamesSetup.analyze [⟨0⟩] 40).toOption.any (fun out =>
      out.completed && out.final.findings.containsFlow ⟨5⟩ ⟨2⟩ &&
      out.final.findings.log.all fun r => r.source == ⟨2⟩) = true := by decide +kernel
  obtain ⟨out, hout, hfound⟩ := exists_of_any_toOption hrun
  simp only [Bool.and_eq_true, List.all_eq_true, beq_iff_eq] at hfound
  obtain ⟨⟨hdone, hflow⟩, honly⟩ := hfound
  have hsucc : Coupled.twoNamesSetup.program.succsOf ⟨5⟩ ≠ [] := by decide +kernel
  refine ⟨out, hout, hdone, hsucc, ?_⟩
  intro s
  have hiff := containsFlow_call_iff (x := Coupled.twoNamesSetup) ⟨Coupled.twoNames, rfl⟩
    NativeModel.conservative_ignoresBookkeeping rfl hout hdone (n := ⟨5⟩) ⟨rfl, rfl⟩ hsucc s
  constructor
  · intro hleaks
    obtain ⟨r, hr, -, rfl⟩ := Coupled.exists_of_containsFlow (hiff.mpr ⟨rfl, hleaks⟩)
    exact honly r hr
  · rintro rfl
    exact (hiff.mp hflow).2

end TaintFlow
