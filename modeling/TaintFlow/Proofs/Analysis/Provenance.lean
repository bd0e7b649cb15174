import TaintFlow.Proofs.Analysis.Phases

/-!
# Provenance of taints and witness paths

A taint says at which source it was created and from which value, and derivations never change that.
If witness paths are tracked, a fact also carries the statements that brought its taint from the
source here, and a finding carries them from the source to the sink.

In every state of a run, every taint on either side stems from a statement that is classified as a
source, every finding is made at one that is classified as a sink, and witness paths begin and end
there. Without tracking there are none.
-/

namespace TaintFlow

namespace Setup

variable (x : Setup)

/-- Statement `s` is a source, and `v` is what it receives: the call that it makes, or the
right-hand side of an identity. -/
def IsSourceOf (s : StmtId) (v : Value) : Prop :=
  ∃ stmt, x.program.stmt? s = some stmt ∧ x.isSource stmt = true ∧ stmt.action.origin? = some v

def IsSinkAt (s : StmtId) : Prop :=
  ∃ stmt, x.program.stmt? s = some stmt ∧ x.isSink stmt = true

/-- The taint that stands for none, or one that a source created. -/
def Stems (t : Taint) : Prop :=
  t = .zero ∨ t.isZero = false ∧ x.IsSourceOf t.source t.origin

/-- The fact stems from a source, and so does its witness path if paths are tracked. -/
structure Witnesses (f : Fact) : Prop where
  stems : x.Stems f.taint
  tracked : x.settings.tracksPaths = true → f.taint ≠ .zero →
    ∃ rest, f.trail = some (f.taint.source :: rest)
  untracked : x.settings.tracksPaths = false → f.trail = none

/-- The finding leads from a source to a sink, and so does its path if paths are tracked. -/
structure WitnessesFlow (r : Finding) : Prop where
  sink : x.IsSinkAt r.sink
  source : x.IsSourceOf r.source r.origin
  tracked : x.settings.tracksPaths = true →
    ∃ middle, r.path = some (r.source :: middle ++ [r.sink])
  untracked : x.settings.tracksPaths = false → r.path = none

end Setup

section

variable {x : Setup} {f g g' : Fact}

theorem Setup.Stems.source {t : Taint} (h : x.Stems t) (hne : t ≠ .zero) :
    x.IsSourceOf t.source t.origin := by
  rcases h with hzero | ⟨-, hsource⟩
  · exact absurd hzero hne
  · exact hsource

theorem Setup.witnesses_zero (x : Setup) : x.Witnesses .zero :=
  ⟨Or.inl rfl, fun _ hne => absurd rfl hne, fun _ => rfl⟩

/-- A derivation that keeps source, origin and path of a taint keeps its provenance. -/
theorem Setup.Witnesses.derive (h : x.Witnesses g) (hne : g.taint ≠ .zero)
    (hzero : g'.isZero = false) (hsource : g'.taint.source = g.taint.source)
    (horigin : g'.taint.origin = g.taint.origin) (htrail : g'.trail = g.trail) :
    x.Witnesses g' := by
  refine ⟨Or.inr ⟨hzero, ?_⟩, ?_, ?_⟩
  · rw [hsource, horigin]
    exact h.stems.source hne
  · intro htracks _
    rw [hsource, htrail]
    exact h.tracked htracks hne
  · intro htracks
    rw [htrail]
    exact h.untracked htracks

theorem Setup.Witnesses.isZero (h : x.Witnesses g) (hne : g.taint ≠ .zero) : g.isZero = false := by
  rcases h.stems with hzero | ⟨hzero, -⟩
  · exact absurd hzero hne
  · exact hzero

theorem Setup.Witnesses.activateAt (h : x.Witnesses g) (s : StmtId) :
    x.Witnesses (g.activateAt s) := by
  unfold Fact.activateAt
  split
  · next hactivated =>
    -- the zero taint is active from the beginning
    have hne : g.taint ≠ .zero := by
      intro hzero
      rw [hzero] at hactivated
      cases hactivated
    exact h.derive hne (h.isZero hne) rfl rfl rfl
  · exact h

theorem Setup.Witnesses.visit (h : x.Witnesses g) (s : StmtId) : x.Witnesses (g.visit s) := by
  refine ⟨h.stems, ?_, ?_⟩
  · intro htracks hne
    obtain ⟨rest, hrest⟩ := h.tracked htracks hne
    refine ⟨rest ++ [s], ?_⟩
    change g.trail.map (· ++ [s]) = _
    rw [hrest]
    rfl
  · intro htracks
    change g.trail.map (· ++ [s]) = none
    rw [h.untracked htracks]
    rfl

/-- A new fact starts at its source. -/
theorem Forward.witnesses_newFact {s : StmtId} {stmt : Stmt} (hp : x.program.Built)
    (hs : x.program.stmt? s = some stmt) (hsource : x.isSource stmt = true) {origin : Value}
    (horigin : stmt.action.origin? = some origin) {path : AccessPath} (hpath : path.IsGenuine)
    (parent : Fact) : x.Witnesses (newFact x path stmt.id origin parent) := by
  refine ⟨Or.inr ⟨Taint.isZero_of_isGenuine hpath, stmt, ?_, hsource, horigin⟩, ?_, ?_⟩
  · change x.program.stmt? stmt.id = some stmt
    rw [hp.id_eq hs]
    exact hs
  · intro htracks _
    exact ⟨[], if_pos htracks⟩
  · intro htracks
    exact if_neg (by rw [htracks]; exact Bool.false_ne_true)

theorem Setup.Descends.witnesses {d : Direction} (hp : x.program.Built) (h : x.Descends d f g)
    (hf : x.Witnesses f) : x.Witnesses g := by
  induction h with
  | refl => exact hf
  | created parent _ hs hsource horigin hpath =>
    exact Forward.witnesses_newFact hp hs hsource horigin hpath parent
  | moved _ hne hpath ih => exact ih.derive hne (Taint.isZero_of_isGenuine hpath) rfl rfl rfl
  | activated s _ _ ih => exact ih.activateAt s
  | thrown _ hne ih | deactivated _ hne _ ih | leveled _ hne _ _ ih =>
    exact ih.derive hne (ih.isZero hne) rfl rfl rfl
  | visited s _ ih => exact ih.visit s
  | entered _ ih | left _ ih => exact ⟨ih.stems, ih.tracked, ih.untracked⟩

theorem Setup.Leaks.witnessesFlow {r : Finding} (hp : x.program.Built) (h : x.Leaks f r)
    (hf : x.Witnesses f) : x.WitnessesFlow r := by
  obtain @⟨g, s, stmt, v, hdescends, hne, hs, hsink⟩ := h
  have hg := hdescends.witnesses hp hf
  refine ⟨⟨stmt, ?_, hsink⟩, hg.stems.source hne, ?_, ?_⟩
  · change x.program.stmt? stmt.id = some stmt
    rw [hp.id_eq hs]
    exact hs
  -- the path of a finding is that of its fact, with the sink behind it
  · intro htracks
    obtain ⟨rest, hrest⟩ := hg.tracked htracks hne
    refine ⟨rest, ?_⟩
    change g.trail.map (· ++ [stmt.id]) = _
    rw [hrest]
    rfl
  · intro htracks
    change g.trail.map (· ++ [stmt.id]) = none
    rw [hg.untracked htracks]
    rfl

end

/-- Facts witness where they come from, and findings where they lead. -/
def Law.provenance (x : Setup) : Law where
  facts _ := x.Witnesses
  contexts _ := x.Stems
  handed _ := x.Witnesses
  findings := x.WitnessesFlow

theorem Law.keptBy_provenance {x : Setup} (hp : x.program.Built)
    (hgenuine : ∀ l, x.program.MentionsLocal l → l.method ≠ .synthetic)
    (hnative : x.native = .conservative) : (Law.provenance x).KeptBy x where
  zero := x.witnesses_zero
  react := by
    intro d f edge hf
    refine (Setup.within_descent hgenuine hp hnative d edge f).mono ?_ ?_ ?_ fun _ _ => trivial
    · intro g hdescends
      exact hdescends.witnesses hp hf
    · intro h hhanded
      exact hhanded.1.witnesses hp hf
    · intro r hleaks
      exact hleaks.witnessesFlow hp hf
  arrival h := h
  context h := h.stems
  restart _ _ := Or.inl rfl

namespace Coupled

variable {x : Setup}

/-- In every state of a run, taints other than zero stem from sources and findings lead from sources
to sinks. With tracking, facts carry a path that begins at their source, and findings one that ends
at their sink as well; without it, no path is carried at all. -/
theorem provenance_of_reachable (hp : x.program.Built)
    (hgenuine : ∀ l, x.program.MentionsLocal l → l.method ≠ .synthetic)
    (hnative : x.native = .conservative) {starts : List StmtId} {c : Coupled}
    (h : Reachable x starts c) :
    (∀ d e, (c.state d).Carries e →
      (e.context ≠ .zero → x.IsSourceOf e.context.source e.context.origin) ∧
      (e.fact.taint ≠ .zero → x.IsSourceOf e.fact.taint.source e.fact.taint.origin)) ∧
    (∀ r ∈ c.findings.log, x.IsSinkAt r.sink ∧ x.IsSourceOf r.source r.origin) ∧
    (x.settings.pathTracking = .forward →
      (∀ d e, (c.state d).Carries e → e.fact.taint ≠ .zero →
        ∃ rest, e.fact.trail = some (e.fact.taint.source :: rest)) ∧
      ∀ r ∈ c.findings.log, ∃ middle, r.path = some (r.source :: middle ++ [r.sink])) ∧
    (x.settings.pathTracking = .off →
      (∀ d e, (c.state d).Carries e → e.fact.trail = none) ∧
      ∀ r ∈ c.findings.log, r.path = none) := by
  have hholds := (Law.keptBy_provenance hp hgenuine hnative).holds hp h
  refine ⟨?_, ?_, ?_, ?_⟩
  · intro d e he
    obtain ⟨hcontext, hfact⟩ := hholds.carries d e he
    exact ⟨hcontext.source, hfact.stems.source⟩
  · intro r hr
    exact ⟨(hholds.findings r hr).sink, (hholds.findings r hr).source⟩
  · intro hforward
    have htracks : x.settings.tracksPaths = true := by
      unfold Settings.tracksPaths
      rw [hforward]
      rfl
    refine ⟨?_, ?_⟩
    · intro d e he
      exact (hholds.carries d e he).2.tracked htracks
    · intro r hr
      exact (hholds.findings r hr).tracked htracks
  · intro hoff
    have htracks : x.settings.tracksPaths = false := by
      unfold Settings.tracksPaths
      rw [hoff]
      rfl
    refine ⟨?_, ?_⟩
    · intro d e he
      exact (hholds.carries d e he).2.untracked htracks
    · intro r hr
      exact (hholds.findings r hr).untracked htracks

def twoNamesTracked : Setup := twoNamesSetup.tracking .forward {}

/-- The secret that is stored through one name and sent through the other has a witness path from
source to sink, and the alias candidates on the way carry one from the source. -/
theorem provenance_twoNames : ∃ c, Reachable twoNamesTracked [⟨0⟩] c ∧
    (∃ r ∈ c.findings.log, twoNamesTracked.IsSinkAt r.sink ∧
      twoNamesTracked.IsSourceOf r.source r.origin ∧
      ∃ middle, r.path = some (r.source :: middle ++ [r.sink])) ∧
    ∃ e ∈ c.backward.edges, e.fact.taint ≠ .zero ∧
      twoNamesTracked.IsSourceOf e.fact.taint.source e.fact.taint.origin ∧
      ∃ rest, e.fact.trail = some (e.fact.taint.source :: rest) := by
  have hrun : (Coupled.solve twoNamesTracked 40 (.ofStarts [⟨0⟩])).toOption.any (fun found =>
      found.any fun r => !r.1.findings.log.isEmpty &&
        r.1.backward.edges.toList.any fun e => e.fact.taint ≠ .zero) = true := by
    decide +kernel
  obtain ⟨found, hsolve, hfound⟩ := exists_of_any_toOption hrun
  obtain ⟨⟨c, completed⟩, rfl, hc⟩ := (Option.any_eq_true _ _).mp hfound
  simp only [Bool.and_eq_true, Bool.not_eq_true', List.isEmpty_eq_false_iff_exists_mem,
    List.any_eq_true, Array.mem_toList_iff, decide_eq_true_eq] at hc
  obtain ⟨⟨r, hr⟩, e, he, hne⟩ := hc
  have hreachable := Reachable.start.solve hsolve
  have hgenuine := Program.genuine_of_stmts (p := twoNamesProgram) (by decide +kernel)
  obtain ⟨hcarried, hfound, htracked, -⟩ :=
    provenance_of_reachable ⟨twoNames, rfl⟩ hgenuine rfl hreachable
  obtain ⟨htrails, hpaths⟩ := htracked rfl
  have hrecorded : (c.state .backward).Carries e := .recorded he
  exact ⟨c, hreachable, ⟨r, hr, (hfound r hr).1, (hfound r hr).2, hpaths r hr⟩,
    e, he, hne, (hcarried .backward e hrecorded).2 hne, htrails .backward e hrecorded hne⟩

end Coupled

end TaintFlow
