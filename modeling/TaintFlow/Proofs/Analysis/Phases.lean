import TaintFlow.Proofs.Analysis.FixedPoint
import TaintFlow.Proofs.Analysis.Laws
import TaintFlow.Proofs.Flow.Descent

/-!
# Phases of facts

A taint is active, or it waits for its activation unit. Phases change in three places only: passing
the unit activates, a search for aliases starts with a candidate that is inactive, and a call on the
way out becomes the unit on the current level. Every other derivation leaves the phase alone.

In every state of a run, both sides keep facts in one of the two phases, and alias candidates,
inactive and with a taint, are all that the backward side works on and all that either side is
handed.
-/

namespace TaintFlow

open Tabulation

/-- Active without a unit, or inactive with one. Units are statements of the program. -/
structure Taint.InPhase (p : Program) (t : Taint) : Prop where
  active_iff : t.active = true ↔ t.unit = none
  level : t.active = true → t.level = none
  has : ∀ s, t.unit = some s ∨ t.level = some s → p.Has s

/-- A taint of a location that may have got it under another name. -/
structure Taint.IsCandidate (t : Taint) : Prop where
  inactive : t.active = false
  nonzero : t.isZero = false

theorem Taint.inPhase_of_active {p : Program} {t : Taint} (hactive : t.active = true)
    (hunit : t.unit = none) (hlevel : t.level = none) : t.InPhase p := by
  refine ⟨⟨fun _ => hunit, fun _ => hactive⟩, fun _ => hlevel, ?_⟩
  rintro s (hs | hs)
  · rw [hunit] at hs
    cases hs
  · rw [hlevel] at hs
    cases hs

section

variable {p : Program} {f : Fact}

theorem Fact.inPhase_activateAt (h : f.taint.InPhase p) (s : StmtId) :
    (f.activateAt s).taint.InPhase p := by
  unfold activateAt
  split
  · exact Taint.inPhase_of_active rfl rfl rfl
  · exact h

theorem Fact.inPhase_deactivate {s : StmtId} (hs : p.Has s) (f : Fact) :
    (f.deactivate s).taint.InPhase p := by
  refine ⟨⟨?_, ?_⟩, ?_, ?_⟩
  · intro hactive
    cases hactive
  · intro hunit
    cases hunit
  · intro hactive
    cases hactive
  · rintro s' (hunit | hlevel)
    · rwa [← Option.some.inj hunit]
    · cases hlevel

theorem Fact.inPhase_atLevel {s : StmtId} (hs : p.Has s) (h : f.taint.InPhase p)
    (hinactive : f.isActive = false) : (f.atLevel s).taint.InPhase p := by
  refine ⟨h.active_iff, ?_, ?_⟩
  · intro hactive
    exact absurd (hinactive.symm.trans hactive) Bool.false_ne_true
  · rintro s' (hunit | hlevel)
    · exact h.has s' (Or.inl hunit)
    · rwa [← Option.some.inj hlevel]

end

namespace Setup.Descends

variable {x : Setup} {d : Direction} {f g : Fact}

/-- Facts stay in their phases, and the backward analysis activates none. -/
theorem inPhase (h : x.Descends d f g) (hf : f.taint.InPhase x.program)
    (hback : d = .backward → f.isActive = false) :
    g.taint.InPhase x.program ∧ (d = .backward → g.isActive = false) := by
  -- along the descent; only the forward analysis creates and activates
  induction h with
  | refl => exact ⟨hf, hback⟩
  | created _ hd _ _ _ _ =>
    refine ⟨Taint.inPhase_of_active rfl rfl rfl, ?_⟩
    rintro rfl
    cases hd
  | activated s hd _ ih =>
    refine ⟨Fact.inPhase_activateAt ih.1 s, ?_⟩
    rintro rfl
    cases hd
  | @deactivated g s _ _ hs _ => exact ⟨g.inPhase_deactivate hs, fun _ => rfl⟩
  | leveled _ _ hinactive hs ih =>
    exact ⟨Fact.inPhase_atLevel hs ih.1 (hinactive.elim id ih.2), ih.2⟩
  | moved _ _ _ ih | thrown _ _ ih =>
    exact ⟨⟨ih.1.active_iff, ih.1.level, ih.1.has⟩, ih.2⟩
  | visited _ _ ih | entered _ ih | left _ ih => exact ih

theorem isZero (h : x.Descends d f g) (hf : f.isZero = false) : g.isZero = false := by
  induction h with
  | refl => exact hf
  | created _ _ _ _ _ hpath => exact Taint.isZero_of_isGenuine hpath
  | moved _ _ hpath _ => exact Taint.isZero_of_isGenuine hpath
  | @activated g s _ _ ih => exact (g.isZero_activateAt s).trans ih
  | thrown _ _ ih | deactivated _ _ _ ih | leveled _ _ _ _ ih => exact ih
  | visited _ _ ih | entered _ ih | left _ ih => exact ih

end Setup.Descends

/-- Both sides keep facts in phase; the backward side and the inboxes hold candidates. -/
def Law.phases (p : Program) : Law where
  facts d f := f.taint.InPhase p ∧ (d = .backward → f.taint.IsCandidate)
  contexts d t := t.InPhase p ∧ (d = .backward → t.IsCandidate)
  handed _ f := f.taint.InPhase p ∧ f.taint.IsCandidate
  findings _ := True

theorem Law.keptBy_phases {x : Setup} (hp : x.program.Built)
    (hgenuine : ∀ l, x.program.MentionsLocal l → l.method ≠ .synthetic)
    (hnative : x.native = .conservative) : (Law.phases x.program).KeptBy x where
  zero := by
    refine ⟨Taint.inPhase_of_active rfl rfl rfl, fun hd => ?_⟩
    cases hd
  react := by
    intro d f edge hf
    have hback : d = .backward → f.isActive = false := fun hd => (hf.2 hd).inactive
    -- the answer of an edge descends from its fact, and so do the facts handed over
    refine (Setup.within_descent hgenuine hp hnative d edge f).mono ?_ ?_ (fun _ _ => trivial)
      fun _ _ => trivial
    · intro g hdescends
      have hphase := hdescends.inPhase hf.1 hback
      exact ⟨hphase.1, fun hd => ⟨hphase.2 hd, hdescends.isZero (hf.2 hd).nonzero⟩⟩
    · rintro h ⟨hdescends, hzero, hinactive⟩
      have hphase := hdescends.inPhase hf.1 hback
      exact ⟨hphase.1, hinactive.elim id hphase.2, hzero⟩
  arrival h := ⟨h.1, fun _ => h.2⟩
  context h := h
  restart := by
    intro d t ht hzero
    refine ⟨Taint.inPhase_of_active rfl rfl rfl, fun hd => ?_⟩
    exact absurd ((ht.2 hd).nonzero.symm.trans hzero) Bool.false_ne_true

namespace Coupled

variable {x : Setup}

/-- One step after the other, on the sides that `ds` says. -/
def steps (x : Setup) (c : Coupled) (ds : List Direction) : Except Fault Coupled :=
  ds.foldlM (fun c d => do return (← c.step x d).1) c

theorem Reachable.steps {starts : List StmtId} {c c' : Coupled} {ds : List Direction}
    (h : Reachable x starts c) (hsteps : c.steps x ds = .ok c') : Reachable x starts c' := by
  unfold Coupled.steps at hsteps
  induction ds generalizing c with
  | nil =>
    cases hsteps
    exact h
  | cons d ds ih =>
    rw [List.foldlM_cons] at hsteps
    obtain ⟨c₁, hfirst, hrest⟩ := exists_of_bind_eq_ok hsteps
    obtain ⟨r, hstep, hr⟩ := exists_of_bind_eq_ok hfirst
    cases hr
    exact ih (h.step hstep) hrest

/-- In every state of a run both sides keep taints in phase, contexts as well as facts. The backward
side carries candidates only, and so do both inboxes. -/
theorem inPhase_of_reachable (hp : x.program.Built)
    (hgenuine : ∀ l, x.program.MentionsLocal l → l.method ≠ .synthetic)
    (hnative : x.native = .conservative) {starts : List StmtId} {c : Coupled}
    (h : Reachable x starts c) :
    (∀ d e, (c.state d).Carries e →
      e.context.InPhase x.program ∧ e.fact.taint.InPhase x.program) ∧
    (∀ e, c.backward.Carries e → e.context.IsCandidate ∧ e.fact.taint.IsCandidate) ∧
    ∀ d, ∀ e ∈ (c.state d).inbox, e.context.IsCandidate ∧ e.fact.taint.IsCandidate := by
  have hholds := (Law.keptBy_phases hp hgenuine hnative).holds hp h
  refine ⟨?_, ?_, ?_⟩
  · intro d e he
    obtain ⟨hcontext, hfact⟩ := hholds.carries d e he
    exact ⟨hcontext.1, hfact.1⟩
  · intro e he
    obtain ⟨hcontext, hfact⟩ := hholds.carries .backward e he
    exact ⟨hcontext.2 rfl, hfact.2 rfl⟩
  · intro d e he
    obtain ⟨hcontext, -, hcandidate⟩ := hholds.inbox d e he
    exact ⟨hcontext ▸ hcandidate, hcandidate⟩

/-- Four steps of the forward side and two of the backward side reach a state in which the first
name of the object is on its way back. -/
theorem inPhase_twoNames : ∃ c, Reachable twoNamesSetup [⟨0⟩] c ∧
    (∃ e ∈ c.forward.inbox, e.fact.taint.InPhase twoNamesProgram ∧ e.fact.taint.IsCandidate) ∧
    ∃ e ∈ c.backward.edges, e.context.IsCandidate ∧ e.fact.taint.IsCandidate := by
  have hrun : ((ofStarts [⟨0⟩]).steps twoNamesSetup [.forward, .forward, .forward, .forward,
      .backward, .backward]).toOption.any (fun c =>
        !c.forward.inbox.isEmpty && !c.backward.edges.toList.isEmpty) = true := by
    decide +kernel
  obtain ⟨c, hsteps, hc⟩ := exists_of_any_toOption hrun
  simp only [Bool.and_eq_true, Bool.not_eq_true', List.isEmpty_eq_false_iff_exists_mem,
    Array.mem_toList_iff] at hc
  obtain ⟨⟨e, he⟩, e', he'⟩ := hc
  have hreachable := Reachable.start.steps hsteps
  have hgenuine := Program.genuine_of_stmts (p := twoNamesProgram) (by decide +kernel)
  obtain ⟨hphase, hbackward, hinbox⟩ :=
    inPhase_of_reachable ⟨twoNames, rfl⟩ hgenuine rfl hreachable
  exact ⟨c, hreachable, ⟨e, he, (hphase .forward e (.waiting he)).2, (hinbox .forward e he).2⟩,
    e', he', hbackward e' (.recorded he')⟩

end Coupled

end TaintFlow
