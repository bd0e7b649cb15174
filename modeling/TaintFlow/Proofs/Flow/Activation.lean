import TaintFlow.Proofs.Analysis.ActivationUnits

/-!
# Where facts are activated

An inactive fact says that a location will be tainted once control passes its activation unit. Each
of the four kinds of edges activates facts in its own place, before or after other tests, and what
it makes of them goes through library models, native calls and handlers of exceptions. All of them
come to the same (`Forward.activated_only_at_unit`): at the unit, or at the call that stands for it
on the current level, everything that goes on is active and waits for nothing; anywhere else nothing
is found, and what goes on waits for the same as before. Only a source creates facts that are active
from the start.
-/

namespace TaintFlow

/-- Whether a taint is active, and what it waits for. -/
def Taint.phase (t : Taint) : Bool × Option StmtId × Option StmtId := (t.active, t.unit, t.level)

/-- Along this edge facts pass the statement `n`: they are past it afterwards, or they enter a
callee there, come back to it, or pass it by as a call. -/
inductive FlowEdge.Passes (p : Program) (n : StmtId) : FlowEdge → Prop
  | normal : Passes p n (.normal n)
  | enter (callee) : Passes p n (.enter n callee)
  | leave (callee exit) : Passes p n (.leave (some n) callee exit)
  | bypass : p.isCall n = true → Passes p n (.bypass n)

/-- The fact that the source at `n` creates while `parent` holds: at a local that it binds, or where
it puts the result of its call. -/
inductive Setup.Creates (x : Setup) (n : StmtId) (parent : Fact) : Fact → Prop
  | bound {stmt target source} : x.program.stmt? n = some stmt → x.isSource stmt = true →
    stmt.action = .identity target source →
    Creates x n parent (Forward.newFact x (.ofLocal target) n source parent)
  | returned {stmt invocation v path} : x.CallAt n stmt invocation → x.isSource stmt = true →
    stmt.target? = some v → AccessPath.ofValue? v = some path →
    Creates x n parent (Forward.newFact x path n invocation.toValue parent)

section

variable {x : Setup} {n : StmtId} {f g : Fact}

theorem Setup.Creates.phase {parent : Fact} (h : x.Creates n parent g) :
    g.taint.phase = (true, none, none) := by
  cases h <;> rfl

theorem Fact.phase_activateAt (hinactive : f.isActive = false) (h : f.taint.Awaits n) :
    (f.activateAt n).taint.phase = (true, none, none) := by
  have hactivated : f.taint.activatedBy n = true := by
    unfold Fact.isActive at hinactive
    unfold Taint.activatedBy
    rw [hinactive]
    rcases h with h | h <;> simp [h]
  unfold Fact.activateAt
  rw [if_pos hactivated]
  rfl

theorem Fact.phase_of_moveToValue? {v : Value} {cut : Bool} {most : Nat}
    (h : f.moveToValue? v cut most = some g) : g.taint.phase = f.taint.phase := by
  obtain ⟨path, -, rfl⟩ := Option.map_eq_some_iff.mp h
  rfl

namespace Forward

variable {edge : FlowEdge}

/-- Whatever goes on is in the phase of the fact behind `n`, or is new. -/
theorem phase_of_yields (hp : x.program.Built) (hnative : x.native = .conservative)
    (hpasses : edge.Passes x.program n) (hzero : f.isZero = false) (h : Yields x edge f g) :
    g.taint.phase = (f.activateAt n).taint.phase ∨ x.Creates n (f.activateAt n) g := by
  -- by the way it passes, and then by what the edge yields
  cases hpasses with
  | normal =>
    cases h with
    | kept _ | caught _ _ _ | thrown _ _ _ => exact Or.inl rfl
    | assigned _ _ _ _ hmoved =>
      have hphase := Fact.phase_of_moveToValue? hmoved
      exact Or.inl hphase
    | arrived hs haction hsource =>
      right
      rw [hp.id_eq hs]
      exact .bound hs hsource haction
  | enter callee =>
    cases h with
    | zero _ hzero' =>
      rw [hzero] at hzero'
      cases hzero'
    | bound _ _ _ _ | entered _ _ => exact Or.inl rfl
  | leave callee exit =>
    cases h with
    | returned _ _ _ _ hmoved =>
      have hphase := Fact.phase_of_moveToValue? hmoved
      exact Or.inl hphase
    | left _ _ _ => exact Or.inl rfl
  | bypass hcall =>
    cases h with
    -- passing by is for calls, so an idle statement is not one
    | idle hs hnone =>
      have hno : x.program.isCall n = false := by
        simp only [Program.isCall, hs, Option.any_some, Action.isCall]
        exact congrArg Option.isSome hnone
      rw [hno] at hcall
      cases hcall
    | passed _ _ | modelled _ _ _ _ _ => exact Or.inl rfl
    | native _ hg =>
      left
      unfold throughNative at hg
      dsimp only at hg
      split at hg
      · rw [hnative] at hg
        obtain ⟨v, path, -, -, rfl⟩ := NativeModel.mem_conservative hg
        rfl
      · cases hg
    | created hcall hsource htarget hpath =>
      right
      rw [hp.id_eq hcall.known]
      exact .returned hcall hsource htarget hpath

/-- Only active facts make findings. -/
theorem isActive_of_finds (hpasses : edge.Passes x.program n) {r : Finding} (h : Finds x edge f r) :
    (f.activateAt n).isActive = true := by
  cases hpasses with
  | normal =>
    cases h with
    | assigned _ _ _ hactive _ | returned _ _ hactive _ _ => exact hactive
  | enter callee => cases h
  | leave callee exit =>
    cases h with
    | left _ _ _ hactive _ _ => exact hactive
  | bypass _ =>
    cases h with
    | called _ hactive _ _ _ => exact hactive

theorem findings_eq_nil_of_not_awaits (hpasses : edge.Passes x.program n)
    (hinactive : f.isActive = false) (h : ¬ f.taint.Awaits n) :
    (x.react .forward false edge f).findings = [] := by
  have hwithin : Reaction.Within (allowed x edge f) (x.react .forward false edge f) :=
    within_react edge
  apply List.eq_nil_iff_forall_not_mem.mpr
  intro r hr
  have hactive := isActive_of_finds hpasses (hwithin.findings r hr)
  rw [Fact.activateAt_of_not_awaits h, hinactive] at hactive
  cases hactive

/-- Let an inactive fact with taint pass the statement `n`, with any library model and the
conservative model of native calls. If the fact does not wait for `n`, then nothing is found, even
if the reaction breaks off, and what goes on is inactive and waits for the same, or was created by
the source at `n`. If the fact waits for `n`, then everything that goes on is active and waits for
nothing. -/
theorem activated_only_at_unit (hp : x.program.Built) (hnative : x.native = .conservative)
    (hpasses : edge.Passes x.program n) (hinactive : f.isActive = false) (hzero : f.isZero = false)
    {w : World} (hhalted : x.isHalted w.findings = false) :
    (¬ f.taint.Awaits n → (x.react .forward false edge f).findings = []) ∧
    ∀ out w', (x.run .forward edge f).run w = .ok (out, w') →
      (¬ f.taint.Awaits n → w'.findings = w.findings ∧ ∀ g ∈ out,
        (g.isActive = false ∧ g.taint.unit = f.taint.unit ∧ g.taint.level = f.taint.level) ∨
        x.Creates n f g) ∧
      (f.taint.Awaits n → ∀ g ∈ out,
        g.isActive = true ∧ g.taint.unit = none ∧ g.taint.level = none) := by
  refine ⟨findings_eq_nil_of_not_awaits hpasses hinactive, ?_⟩
  intro out w' hrun
  obtain ⟨-, hout, rfl⟩ := Setup.ensures_run hhalted edge out w' hrun
  -- what goes on is one of the outcomes listed for the edge, each of which keeps the phase
  have hwithin : Reaction.Within (allowed x edge f) (x.react .forward false edge f) :=
    within_react edge
  have hphase : ∀ g ∈ out,
      g.taint.phase = (f.activateAt n).taint.phase ∨ x.Creates n (f.activateAt n) g :=
    fun g hg => phase_of_yields hp hnative hpasses hzero (hwithin.facts g (hout.mem_iff.mp hg))
  constructor
  · intro hawaits
    have hsame : f.activateAt n = f := Fact.activateAt_of_not_awaits hawaits
    rw [hsame] at hphase
    refine ⟨?_, ?_⟩
    · unfold World.absorb Findings.recordAll
      rw [findings_eq_nil_of_not_awaits hpasses hinactive hawaits, List.append_nil]
    · intro g hg
      refine (hphase g hg).imp_left ?_
      intro hg
      simp only [Taint.phase, Prod.mk.injEq] at hg
      exact ⟨hg.1.trans hinactive, hg.2⟩
  · intro hawaits g hg
    have hactive : g.taint.phase = (true, none, none) := by
      rcases hphase g hg with hg | hg
      · exact hg.trans (Fact.phase_activateAt hinactive hawaits)
      · exact hg.phase
    simp only [Taint.phase, Prod.mk.injEq] at hactive
    exact hactive

/-! Where an object has two names: the candidate for the second name, which waits for the secret to
be stored through the first. -/

def pendingSecret : Fact where
  taint := { path := ⟨.local ⟨⟨0⟩, "a", .object "Box"⟩, [⟨"Box", "secret"⟩]⟩, source := ⟨2⟩,
             origin := .null, active := false, unit := some ⟨3⟩ }

/-- The call that gets the secret leaves the candidate alone and creates a fact; the assignment that
stores the secret activates the candidate. -/
theorem activated_only_at_unit_twoNames :
    (∃ out w', (Coupled.twoNamesSetup.run .forward (.bypass ⟨2⟩) pendingSecret).run {} =
        .ok (out, w') ∧ out.length = 2 ∧ w'.findings = {} ∧
      ∀ g ∈ out, (g.isActive = false ∧ g.taint.unit = some ⟨3⟩ ∧ g.taint.level = none) ∨
        Coupled.twoNamesSetup.Creates ⟨2⟩ pendingSecret g) ∧
    ∃ out w', (Coupled.twoNamesSetup.run .forward (.normal ⟨3⟩) pendingSecret).run {} =
        .ok (out, w') ∧ out.length = 1 ∧
      ∀ g ∈ out, g.isActive = true ∧ g.taint.unit = none ∧ g.taint.level = none := by
  have hp : Coupled.twoNamesSetup.program.Built := ⟨Coupled.twoNames, rfl⟩
  have hbypass : ((Coupled.twoNamesSetup.run .forward (.bypass ⟨2⟩) pendingSecret).run
      {}).toOption.any (fun r => r.1.length = 2) = true := by decide +kernel
  have hnormal : ((Coupled.twoNamesSetup.run .forward (.normal ⟨3⟩) pendingSecret).run
      {}).toOption.any (fun r => r.1.length = 1) = true := by decide +kernel
  constructor
  · obtain ⟨⟨out, w'⟩, hrun, hlength⟩ := exists_of_any_toOption hbypass
    have hnot : ¬ pendingSecret.taint.Awaits ⟨2⟩ := by
      rintro (h | h)
      · exact absurd h (by decide)
      · cases h
    obtain ⟨-, hgoes⟩ := activated_only_at_unit (n := ⟨2⟩) (f := pendingSecret) (w := {}) hp rfl
      (.bypass (by decide +kernel)) rfl rfl rfl
    exact ⟨out, w', hrun, of_decide_eq_true hlength, (hgoes out w' hrun).1 hnot⟩
  · obtain ⟨⟨out, w'⟩, hrun, hlength⟩ := exists_of_any_toOption hnormal
    obtain ⟨-, hgoes⟩ := activated_only_at_unit (n := ⟨3⟩) (f := pendingSecret) (w := {}) hp rfl
      .normal rfl rfl rfl
    exact ⟨out, w', hrun, of_decide_eq_true hlength, (hgoes out w' hrun).2 (Or.inl rfl)⟩

end Forward

end

end TaintFlow
