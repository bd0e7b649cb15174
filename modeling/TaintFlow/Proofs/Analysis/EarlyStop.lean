import TaintFlow.Proofs.Analysis.Phases
import TaintFlow.Proofs.Analysis.Simulation
import TaintFlow.Proofs.Analysis.Termination
import TaintFlow.Proofs.Tabulation.EarlyStop

/-!
# Stopping after the first finding

Once one finding is enough, every flow function of both sides falls silent, wherever in a batch that
is. Up to that moment a run with this order and the same run without it are one and the same.
Afterwards the first has only its worklists left to work off, and records nothing; the second
records more, at the end of the same log.

So the order to stop never changes whether there is a leak, under any cap on path edges
(`Setup.log_begins_of_stopping`). The two need not take the same number of rounds: a cap may end the
second while the first still has path edges to work off. It is their outcomes that are compared.
-/

namespace TaintFlow

open Tabulation

/-- The same analysis, with or without the order to stop after the first finding. -/
def Setup.stopping (x : Setup) (stop : Bool) : Setup :=
  { x with settings := { x.settings with stopAfterFirstFlow := stop } }

def World.log (w : World) : List Finding := w.findings.log

def Coupled.log (c : Coupled) : List Finding := c.findings.log

def Outcome.log (o : Outcome) : List Finding := o.final.log

/-! ## Flow functions -/

namespace Setup

variable {x : Setup} {d : Direction} {edge : FlowEdge} {f : Fact} {w : World}

theorem isHalted_stopping (stop : Bool) (fs : Findings) :
    (x.stopping stop).isHalted fs = (stop && !fs.log.isEmpty) := rfl

/-- As long as nothing has been found, the order to stop makes no difference. -/
theorem run_stopping (hlog : w.log = []) :
    (x.stopping true).run d edge f w = (x.stopping false).run d edge f w := by
  have hnone : w.findings.log.isEmpty = true := List.isEmpty_iff.mpr hlog
  unfold run
  rw [isHalted_stopping, isHalted_stopping, hnone]
  rfl

/-- After the first finding, all that can happen is that a callee does not exist. -/
theorem run_of_found (hlog : w.log ≠ [])
    (hedge : ∀ call callee, edge = .enter call callee →
      ∃ method, x.program.method? callee = some method) :
    (x.stopping true).run d edge f w = .ok ([], w) := by
  have hsome : w.findings.log.isEmpty = false := List.isEmpty_eq_false_iff.mpr hlog
  have hreact : (x.stopping true).react d true edge f = {} := by
    -- only on its way into a callee does a halted analysis look anything up
    cases edge with
    | enter call callee =>
      obtain ⟨method, hmethod⟩ := hedge call callee rfl
      change x.withMethod callee (fun _ => {}) = {}
      simp only [withMethod, hmethod]
    | _ => rfl
  have hnothing : w.absorb {} = w := by
    unfold World.absorb Findings.recordAll
    rw [List.append_nil, List.append_nil]
  unfold run
  simp only [isHalted_stopping, hsome, Bool.not_false, Bool.and_true, hreact, hnothing,
    Arrangement.lineUp_nil]

theorem curtails_run
    (hedge : ∀ call callee, edge = .enter call callee →
      ∃ method, x.program.method? callee = some method) :
    Run.Curtails World.log (· = []) ((x.stopping true).run d edge f)
      ((x.stopping false).run d edge f) where
  silent w hw := ⟨[], run_of_found hw hedge, rfl⟩
  grows w := by
    refine (ensures_run (isHalted_eq_false rfl _) edge).mono ?_
    rintro out w' ⟨-, -, rfl⟩
    exact List.prefix_append _ _
  together w hw := by
    have hsame : ((x.stopping true).run d edge f).run w = ((x.stopping false).run d edge f).run w :=
      run_stopping hw
    rw [hsame]
    exact .refl _

/-- With the order to stop, the data-flow problems of both directions fall silent after the first
finding. -/
theorem curtails_problem (hp : x.program.Built) (d : Direction) :
    ((x.stopping true).problem d).Curtails World.log ((x.stopping false).problem d) where
  view := rfl
  key := rfl
  zero := rfl
  isZero := rfl
  unbalanced := rfl
  order := rfl
  normal s _ f := curtails_run (by intro _ _ h; cases h)
  enter call f callee hcallee := by
    refine curtails_run ?_
    intro call' callee' heq
    cases heq
    -- both views have the callees of the program, and those exist
    have hcallees : ((x.stopping true).problem d).view.calleesOf = x.program.calleesOf := by
      cases d <;> rfl
    rw [hcallees] at hcallee
    exact hp.exists_method_of_mem_calleesOf hcallee
  leave call callee exit _ f := curtails_run (by intro _ _ h; cases h)
  bypass call _ f := curtails_run (by intro _ _ h; cases h)
  depart method exit f := by
    refine Run.curtails_bind (curtails_run (by intro _ _ h; cases h)) ?_
    intro _
    exact Run.curtails_pure fun _ => trivial

end Setup

/-! ## Steps -/

/-- Path edges of the program, whatever they carry. -/
theorem Program.bounds_everywhere (x : Setup) (hp : x.program.Built) :
    (x.program.edgesWith fun _ => True).Bounds x fun _ => True where
  facts := by
    intro d q f l howes g hg
    exact (lands_of_owed hp trivial howes).2 g trivial
  handed := by
    intro d q f l howes h hh
    exact ⟨hp.has_of_mem_succsOf (Setup.site_of_handed hp hh).1, trivial, trivial⟩
  findings _ _ _ := trivial
  fault _ _ _ := trivial
  ranged _ _ he := Or.inl he.1

namespace Coupled

def load (c : Coupled) : Nat := c.forward.load + c.backward.load

variable {x : Setup} {c c' : Coupled} {d : Direction} {r : Coupled × Bool}

theorem load_eq (c : Coupled) (d : Direction) :
    c.load = (c.state d).load + (c.state d.opposite).load := by
  cases d with
  | forward => rfl
  | backward => exact Nat.add_comm _ _

theorem log_advanced (c : Coupled) (d : Direction) (s : State Fact Taint) (w : World) :
    (c.advanced d s w).log = w.log :=
  congrArg Findings.log (findings_advanced c d s w)

theorem step_of_run {s : State Fact Taint} {busy : Bool} {w : World}
    (h : ((x.problem d).step x.settings.batchSize (c.state d)).run { findings := c.findings } =
      .ok ((s, busy), w)) : c.step x d = .ok (c.advanced d s w, busy) := by
  unfold step work
  change (((x.problem d).step x.settings.batchSize (c.state d)).run
    { findings := c.findings } >>= _) = _
  rw [h]
  rfl

section

variable (hp : x.program.Built) {starts : List StmtId} (hstarts : ∀ s ∈ starts, x.program.Has s)
  {stop : Bool}

include hp hstarts

theorem confines_everywhere (h : Reachable (x.stopping stop) starts c) :
    (x.program.edgesWith fun _ => True).Confines (x.stopping stop) (fun _ => True) c :=
  confines_of_reachable (Program.bounds_everywhere (x.stopping stop) hp) hp
    (fun s hs => ⟨hstarts s hs, trivial, trivial⟩) h

/-- Both sides may take a step, with or without the order to stop. -/
theorem curtails_stepOf (h : Reachable (x.stopping stop) starts c) (d : Direction) :
    Run.Curtails World.log (fun r => ((c.state d).drain Fact.taint).SameEdges r.1)
      (((x.stopping true).problem d).step x.settings.batchSize (c.state d))
      (((x.stopping false).problem d).step x.settings.batchSize (c.state d)) := by
  refine (Setup.curtails_problem hp d).step (c.state d) ?_ x.settings.batchSize
  intro e he
  have hhas := ((confines_everywhere hp hstarts h).admits d).drain.1.confines.edges e he
  cases d <;> exact hhas.1

theorem exists_step_of_found (h : Reachable (x.stopping true) starts c) (hlog : c.log ≠ [])
    (d : Direction) :
    ∃ r, c.step (x.stopping true) d = .ok r ∧ r.1.log = c.log ∧ r.1.load ≤ c.load := by
  obtain ⟨⟨s, busy⟩, hrun, hedges⟩ :=
    (curtails_stepOf hp hstarts h d).silent { findings := c.findings } hlog
  have hstepped := (safe_stepOf (Program.bounds_everywhere (x.stopping true) hp) hp
    (confines_everywhere hp hstarts h) d).result _ _ hrun
  refine ⟨_, step_of_run hrun, log_advanced .., ?_⟩
  rw [load_eq _ d, load_eq c d, state_advanced, state_opposite_advanced]
  -- the inbox has been recorded, and nothing was handed over
  have hworked : s.load ≤ (c.state d).load := by
    have hsize := State.size_drain_le Fact.taint (c.state d)
    have hempty : s.inbox = [] := hstepped.emptied
    have hsame : s.edges = ((c.state d).drain Fact.taint).edges := hedges
    unfold State.load at hsize ⊢
    rw [hempty, hsame]
    exact hsize
  have hother : ((c.state d.opposite).inject []).load = (c.state d.opposite).load := by
    unfold State.load State.inject
    rw [List.append_nil]
  exact Nat.add_le_add hworked hother.le

theorem log_of_step (h : Reachable (x.stopping false) starts c)
    (hstep : c.step (x.stopping false) d = .ok r) : c.log <+: r.1.log := by
  obtain ⟨s, w, hrun, heq⟩ := step_eq_ok hstep
  have hbegins := (curtails_stepOf hp hstarts h d).grows { findings := c.findings } _ _ hrun
  rw [heq, log_advanced]
  exact hbegins

theorem curtails_step (h : Reachable (x.stopping stop) starts c) (hlog : c.log = [])
    (d : Direction) :
    Curtails (fun r => r.1.log) (c.step (x.stopping true) d) (c.step (x.stopping false) d) := by
  refine ((curtails_stepOf hp hstarts h d).together { findings := c.findings } hlog).bind ?_ ?_ ?_
  · intro a _ _ _
    exact .refl _
  · intro a _ _
    exact ⟨_, rfl, log_advanced c d a.1.1 a.2⟩
  · intro a b _ hb
    cases hb
    change a.2.log <+: (c.advanced d a.1.1 a.2).log
    rw [log_advanced]

/-! ## Schedules -/

theorem exists_steps_of_found (h : Reachable (x.stopping true) starts c) (hlog : c.log ≠ [])
    (ds : List Direction) : ∃ c', c.steps (x.stopping true) ds = .ok c' ∧ c'.log = c.log := by
  unfold Coupled.steps
  induction ds generalizing c with
  | nil => exact ⟨c, rfl, rfl⟩
  | cons d ds ih =>
    obtain ⟨r, hstep, hsame, -⟩ := exists_step_of_found hp hstarts h hlog d
    obtain ⟨c', hsteps, hsame'⟩ := ih (h.step hstep) (hsame ▸ hlog)
    refine ⟨c', ?_, hsame'.trans hsame⟩
    rw [List.foldlM_cons, hstep]
    exact hsteps

theorem log_of_steps (h : Reachable (x.stopping false) starts c) {ds : List Direction}
    (hsteps : c.steps (x.stopping false) ds = .ok c') : c.log <+: c'.log := by
  unfold Coupled.steps at hsteps
  induction ds generalizing c with
  | nil =>
    cases hsteps
    exact List.prefix_refl _
  | cons d ds ih =>
    rw [List.foldlM_cons] at hsteps
    obtain ⟨c₁, hfirst, hrest⟩ := exists_of_bind_eq_ok hsteps
    obtain ⟨r, hstep, hr⟩ := exists_of_bind_eq_ok hfirst
    cases hr
    exact (log_of_step hp hstarts h hstep).trans (ih (h.step hstep) hrest)

/-- However steps are scheduled, the run that is told to stop curtails the one that is not. -/
theorem curtails_steps (h : Reachable (x.stopping true) starts c)
    (h' : Reachable (x.stopping false) starts c) (hlog : c.log = []) (ds : List Direction) :
    Curtails Coupled.log (c.steps (x.stopping true) ds) (c.steps (x.stopping false) ds) := by
  -- over the schedule; until the first finding both runs are at the same state
  induction ds generalizing c with
  | nil => exact .refl _
  | cons d ds ih =>
    have hcons : ∀ stop, c.steps (x.stopping stop) (d :: ds) =
        (c.step (x.stopping stop) d >>= fun r => r.1.steps (x.stopping stop) ds) := by
      intro stop
      unfold Coupled.steps
      rw [List.foldlM_cons, bind_assoc]
      rfl
    rw [hcons, hcons]
    refine (curtails_step hp hstarts h hlog d).bind ?_ ?_ ?_
    · intro r hr hr' hnone
      exact ih (h.step hr) (h'.step hr') hnone
    · intro r hr hsome
      exact exists_steps_of_found hp hstarts (h.step hr) hsome ds
    · intro r c' hr hc'
      exact log_of_steps hp hstarts (h'.step hr) hc'

/-! ## Rounds -/

theorem exists_round_of_found (h : Reachable (x.stopping true) starts c) (hlog : c.log ≠ []) :
    ∃ r, c.round (x.stopping true) = .ok r ∧ r.1.log = c.log ∧ r.1.load ≤ c.load := by
  obtain ⟨r₁, hforward, hsame₁, hload₁⟩ := exists_step_of_found hp hstarts h hlog .forward
  obtain ⟨r₂, hbackward, hsame₂, hload₂⟩ :=
    exists_step_of_found hp hstarts (h.step hforward) (hsame₁ ▸ hlog) .backward
  refine ⟨({ r₂.1 with rounds := r₂.1.rounds + 1 }, r₁.2 || r₂.2), ?_, hsame₂.trans hsame₁,
    hload₂.trans hload₁⟩
  unfold round
  rw [hforward]
  change (r₁.1.step (x.stopping true) .backward >>= _) = _
  rw [hbackward]
  rfl

theorem log_of_round (h : Reachable (x.stopping false) starts c)
    (hround : c.round (x.stopping false) = .ok r) : c.log <+: r.1.log := by
  obtain ⟨r₁, hforward, hround⟩ := exists_of_bind_eq_ok hround
  obtain ⟨r₂, hbackward, hround⟩ := exists_of_bind_eq_ok hround
  cases hround
  have hfirst : c.log <+: r₁.1.log := log_of_step hp hstarts h hforward
  have hsecond : r₁.1.log <+: r₂.1.log := log_of_step hp hstarts (h.step hforward) hbackward
  exact hfirst.trans hsecond

theorem curtails_round (h : Reachable (x.stopping true) starts c)
    (h' : Reachable (x.stopping false) starts c) (hlog : c.log = []) :
    Curtails (fun r => r.1.log) (c.round (x.stopping true)) (c.round (x.stopping false)) := by
  unfold round
  -- the two steps of a round are curtailed one after the other, and each may be the one that finds
  refine (curtails_step hp hstarts h hlog .forward).bind ?_ ?_ ?_
  · intro r hr hr' hnone
    refine (curtails_step hp hstarts (h.step hr) hnone .backward).bind ?_ ?_ ?_
    · intro _ _ _ _
      exact .refl _
    · intro _ _ _
      exact ⟨_, rfl, rfl⟩
    · intro _ _ _ hb
      cases hb
      exact List.prefix_refl _
  · intro r hr hsome
    obtain ⟨r₂, hbackward, hsame, -⟩ := exists_step_of_found hp hstarts (h.step hr) hsome .backward
    refine ⟨({ r₂.1 with rounds := r₂.1.rounds + 1 }, r.2 || r₂.2), ?_, hsame⟩
    change (r.1.step (x.stopping true) .backward >>= _) = _
    rw [hbackward]
    rfl
  · intro r b hr hb
    obtain ⟨r₂, hbackward, hb⟩ := exists_of_bind_eq_ok hb
    cases hb
    have hsecond : r.1.log <+: r₂.1.log := log_of_step hp hstarts (h'.step hr) hbackward
    exact hsecond

end

/-! ## Whole runs -/

/-- A run is over after a round, or it goes on. -/
theorem outcome_cases {fuel : Nat} {o : Outcome} (h : outcome x (fuel + 1) c = .ok o) :
    ∃ r, c.round x = .ok r ∧ (o.final = r.1 ∨ outcome x fuel r.1 = .ok o) := by
  cases hround : c.round x with
  | error e =>
    rw [outcome_of_error hround] at h
    cases h
  | ok r =>
    refine ⟨r, rfl, ?_⟩
    rw [outcome_of_round hround] at h
    -- idle, out of the cap, or one more round
    split at h
    · cases h
      exact Or.inl rfl
    · split at h
      · cases h
        exact Or.inl rfl
      · exact Or.inr h

theorem exists_outcome_of_round (hround : c.round x = .ok r) {fuel : Nat}
    (hgoes : (r.2 = true ∨ r.1.isIdle = false) →
      ∃ o, outcome x fuel r.1 = .ok o ∧ o.log = r.1.log) :
    ∃ o, outcome x (fuel + 1) c = .ok o ∧ o.log = r.1.log := by
  rw [outcome_of_round hround]
  split
  · exact ⟨_, rfl, rfl⟩
  · next hover =>
    split
    · exact ⟨_, rfl, rfl⟩
    · apply hgoes
      rcases Bool.eq_false_or_eq_true r.2 with hbusy | hbusy
      · exact Or.inl hbusy
      · right
        simpa [hbusy] using hover

section

variable (hp : x.program.Built) {starts : List StmtId} (hstarts : ∀ s ∈ starts, x.program.Has s)

include hp hstarts

/-- A run that has stopped is over once it has worked off what it has. -/
theorem exists_outcome_of_found (h : Reachable (x.stopping true) starts c) (hlog : c.log ≠ [])
    {fuel : Nat} (hfuel : c.load < fuel + c.propagations) :
    ∃ o, outcome (x.stopping true) fuel c = .ok o ∧ o.log = c.log := by
  induction fuel generalizing c with
  | zero =>
    -- nothing more can be worked off than there is
    have hadmits := (confines_everywhere hp hstarts h).admits
    have hforward : c.forward.processed ≤ c.forward.edges.size := (hadmits .forward).cursor
    have hbackward : c.backward.processed ≤ c.backward.edges.size := (hadmits .backward).cursor
    unfold load State.load propagations at hfuel
    omega
  -- every round that goes on works an edge off, and after a finding no edge is added
  | succ fuel ih =>
    obtain ⟨r, hround, hsame, hload⟩ := exists_round_of_found hp hstarts h hlog
    obtain ⟨-, hbusy, hidle⟩ :=
      confines_of_round (Program.bounds_everywhere (x.stopping true) hp) hp
        (confines_everywhere hp hstarts h) hround
    rw [← hsame]
    refine exists_outcome_of_round hround ?_
    intro hgoes
    refine ih (h.round hround) (hsame ▸ hlog) ?_
    have hadvances : c.propagations < r.1.propagations := by
      apply hbusy
      rcases hgoes with hgoes | hgoes
      · exact hgoes
      · by_contra hrests
        rw [Bool.not_eq_true] at hrests
        exact Bool.false_ne_true (hgoes.symm.trans (hidle hrests))
    omega

theorem log_of_outcome (h : Reachable (x.stopping false) starts c) {fuel : Nat} {o : Outcome}
    (houtcome : outcome (x.stopping false) fuel c = .ok o) : c.log <+: o.log := by
  induction fuel generalizing c with
  | zero => cases houtcome
  | succ fuel ih =>
    obtain ⟨r, hround, hover | hgoes⟩ := outcome_cases houtcome
    · have hbegins := log_of_round hp hstarts h hround
      rw [← hover] at hbegins
      exact hbegins
    · exact (log_of_round hp hstarts h hround).trans (ih (h.round hround) hgoes)

/-- Given enough rounds, a run that is told to stop curtails one that is not. -/
theorem curtails_outcome (h : Reachable (x.stopping true) starts c)
    (h' : Reachable (x.stopping false) starts c) (hlog : c.log = []) (fuel : Nat) :
    ∃ rounds ≥ fuel, Curtails Outcome.log (outcome (x.stopping true) rounds c)
      (outcome (x.stopping false) fuel c) := by
  induction fuel generalizing c with
  | zero => exact ⟨0, Nat.le_refl 0, .refl _⟩
  | succ fuel ih =>
    have hcurtails := curtails_round hp hstarts h h' hlog
    generalize hround : c.round (x.stopping true) = m at hcurtails
    generalize hround' : c.round (x.stopping false) = m' at hcurtails
    -- either the round has found nothing on both sides, or it is where the order takes effect
    cases hcurtails with
    | same hnone =>
      cases m with
      | error e =>
        refine ⟨fuel + 1, Nat.le_refl _, ?_⟩
        rw [outcome_of_error hround, outcome_of_error hround']
        exact .refl _
      | ok r =>
        obtain ⟨rounds, hle, hrest⟩ := ih (h.round hround) (h'.round hround') (hnone r rfl)
        refine ⟨rounds + 1, by omega, ?_⟩
        rw [outcome_of_round hround, outcome_of_round hround']
        -- the cap counts the same path edges on both sides
        have hcap : r.1.isCapped (x.stopping true) = r.1.isCapped (x.stopping false) := rfl
        rw [hcap]
        split
        · exact .refl _
        · split
          · exact .refl _
          · exact hrest
    | @short r _ hsome hbegins =>
      have hrest : ∃ o, outcome (x.stopping true) (fuel + r.1.load + 1) r.1 = .ok o ∧
          o.log = r.1.log :=
        exists_outcome_of_found hp hstarts (h.round hround) hsome (by omega)
      obtain ⟨o, ho, hsame⟩ := exists_outcome_of_round hround fun _ => hrest
      refine ⟨fuel + r.1.load + 1 + 1, by omega, ?_⟩
      rw [ho]
      refine .short (hsame ▸ hsome) ?_
      intro o' ho'
      rw [hsame]
      -- the other run has the first findings after this round, and only adds to them
      obtain ⟨r', hr', hover | hgoes⟩ := outcome_cases ho'
      · have hprefix := hbegins r' (hround'.symm.trans hr')
        unfold Outcome.log
        rw [hover]
        exact hprefix
      · exact (hbegins r' (hround'.symm.trans hr')).trans
          (log_of_outcome hp hstarts (h'.round hr') hgoes)

end

end Coupled

/-! ## Analyses -/

namespace Setup

variable {x : Setup}

theorem check_stopping (stop : Bool) (entries : List MethodId) :
    (x.stopping stop).check entries = x.check entries := rfl

theorem curtails_analyze (hp : x.program.Built) (entries : List MethodId) (fuel : Nat) :
    ∃ rounds ≥ fuel, Curtails Outcome.log ((x.stopping true).analyze entries rounds)
      ((x.stopping false).analyze entries fuel) := by
  unfold analyze
  simp only [check_stopping]
  cases hcheck : x.check entries with
  | error e => exact ⟨fuel, Nat.le_refl _, .refl _⟩
  | ok starts =>
    have hstarts := has_of_entryPoints hp (entryPoints_of_check hcheck)
    simp only [runFrom]
    exact Coupled.curtails_outcome hp hstarts .start .start rfl fuel

/-- Once the analysis that is told to stop is over, it curtails the other one after any number of
rounds in which that one is over too, or was given as many. -/
theorem curtails_of_over (hp : x.program.Built) {entries : List MethodId} {fuel fuel' : Nat}
    (hover : (x.stopping true).analyze entries fuel ≠ .error .unfinished)
    (hover' : fuel ≤ fuel' ∨ (x.stopping false).analyze entries fuel' ≠ .error .unfinished) :
    Curtails Outcome.log ((x.stopping true).analyze entries fuel)
      ((x.stopping false).analyze entries fuel') := by
  obtain ⟨rounds, hle, hcurtails⟩ := curtails_analyze hp entries fuel'
  suffices hsame : (x.stopping true).analyze entries rounds =
      (x.stopping true).analyze entries fuel by
    rwa [hsame] at hcurtails
  -- more rounds than an outcome needs do not change it, whichever of the two numbers is larger
  by_cases hrounds : fuel ≤ rounds
  · exact analyze_eq_of_le hover hrounds
  · have hother := hover'.resolve_left (by omega)
    refine (analyze_eq_of_le ?_ (by omega)).symm
    intro hunfinished
    rw [hunfinished] at hcurtails
    exact hother hcurtails.eq_error

/-- The order to stop after the first finding never changes whether there is a leak. For every built
program, whatever the entry methods, the models, the order of work and the settings, caps included:

* the findings of an analysis with the order are the first findings of the same analysis without it,
  and if there are none, the two have the same outcome;
* an analysis that comes to an outcome without the order comes to one with it;
* an outcome without findings, and any failure but a lack of rounds, is that of both analyses;
* and the same holds step by step, however the steps of both sides are scheduled. -/
theorem log_begins_of_stopping (hp : x.program.Built) (entries : List MethodId) :
    (∀ fuel fuel' a b, (x.stopping true).analyze entries fuel = .ok a →
      (x.stopping false).analyze entries fuel' = .ok b → a.log <+: b.log ∧ (a.log = [] → a = b)) ∧
    (∀ fuel b, (x.stopping false).analyze entries fuel = .ok b →
      ∃ rounds a, (x.stopping true).analyze entries rounds = .ok a) ∧
    (∀ fuel a, (x.stopping true).analyze entries fuel = .ok a → a.log = [] →
      (x.stopping false).analyze entries fuel = .ok a) ∧
    (∀ fuel e, (x.stopping true).analyze entries fuel = .error e → e ≠ .unfinished →
      (x.stopping false).analyze entries fuel = .error e) ∧
    ∀ starts, x.check entries = .ok starts → ∀ ds,
      Curtails Coupled.log ((Coupled.ofStarts starts).steps (x.stopping true) ds)
        ((Coupled.ofStarts starts).steps (x.stopping false) ds) := by
  have hne : ∀ {o : Outcome}, (.ok o : Except Failure Outcome) ≠ .error .unfinished := by
    intro o ho
    cases ho
  refine ⟨?_, ?_, ?_, ?_, ?_⟩
  · intro fuel fuel' a b ha hb
    have hcurtails := curtails_of_over hp (ha ▸ hne) (Or.inr (hb ▸ hne))
    rw [ha, hb] at hcurtails
    refine ⟨hcurtails.log_begins, ?_⟩
    intro hnone
    have hsame := hcurtails.eq_ok hnone
    cases hsame
    rfl
  · intro fuel b hb
    obtain ⟨rounds, -, hcurtails⟩ := curtails_analyze hp entries fuel
    rw [hb] at hcurtails
    exact ⟨rounds, hcurtails.exists_ok⟩
  · intro fuel a ha hnone
    have hcurtails := curtails_of_over hp (ha ▸ hne) (Or.inl (Nat.le_refl fuel))
    rw [ha] at hcurtails
    exact hcurtails.eq_ok hnone
  · intro fuel e he hfinished
    have hcurtails : Curtails Outcome.log ((x.stopping true).analyze entries fuel)
        ((x.stopping false).analyze entries fuel) := by
      refine curtails_of_over hp ?_ (Or.inl (Nat.le_refl fuel))
      rw [he]
      intro heq
      cases heq
      exact hfinished rfl
    rw [he] at hcurtails
    exact hcurtails.eq_error
  · intro starts hcheck ds
    have hstarts := has_of_entryPoints hp (entryPoints_of_check hcheck)
    exact Coupled.curtails_steps hp hstarts .start .start rfl ds

/-! A secret is sent under its own name, and once more after it was stored and read through two
names of an object. -/

def leakingTwice : List Description :=
  let object (name : String) : Local := ⟨⟨0⟩, name, .object "Box"⟩
  let text (name : String) : Local := ⟨⟨0⟩, name, .string⟩
  let secret : FieldRef := ⟨"Box", "secret"⟩
  let send (l : Local) : Action := .invoke ⟨none, ⟨"Net", "void", "send", ["String"]⟩, [.local l]⟩
  [.method "<A: void main()>" true false,
    .statement ⟨0⟩ (.assign (.local (object "a")) (.new "Box")),
    .statement ⟨0⟩ (.assign (.local (object "b")) (.local (object "a"))),
    .statement ⟨0⟩ (.assign (.local (text "x")) (.invoke none ⟨"Sec", "String", "get", []⟩ [])),
    .statement ⟨0⟩ (.assign (.field (object "b") secret) (.local (text "x"))),
    .statement ⟨0⟩ (send (text "x")),
    .statement ⟨0⟩ (.assign (.local (text "y")) (.field (object "a") secret)),
    .statement ⟨0⟩ (send (text "y")),
    .statement ⟨0⟩ (.return none)]

def leakingTwiceSetup : Setup where
  program := (Program.ofDescription leakingTwice).toOption.getD ⟨#[], #[], #[], #[], #[], #[]⟩
  settings := { batchSize := 2, maxPropagations := 36 }
  classifier := .ofStatements [⟨2⟩] [⟨4⟩, ⟨6⟩]

/-- The analysis that is told to stop ends by itself with the first leak; the other one has found
the second when the cap stops it. -/
theorem log_begins_leakingTwice : ∃ a b,
    (leakingTwiceSetup.stopping true).analyze [⟨0⟩] 40 = .ok a ∧
    (leakingTwiceSetup.stopping false).analyze [⟨0⟩] 40 = .ok b ∧
    a.completed = true ∧ b.completed = false ∧ a.log.map Finding.sink = [⟨4⟩] ∧
    (⟨6⟩ : StmtId) ∈ b.log.map Finding.sink ∧ a.log <+: b.log := by
  have hruns : ((leakingTwiceSetup.stopping true).analyze [⟨0⟩] 40).toOption.any
      (fun a => a.completed && a.log.map Finding.sink = [⟨4⟩]) = true ∧
      ((leakingTwiceSetup.stopping false).analyze [⟨0⟩] 40).toOption.any
        (fun b => !b.completed && (b.log.map Finding.sink).contains ⟨6⟩) = true := by
    decide +kernel
  obtain ⟨a, ha, hfirst⟩ := exists_of_any_toOption hruns.1
  obtain ⟨b, hb, hsecond⟩ := exists_of_any_toOption hruns.2
  simp only [Bool.and_eq_true, decide_eq_true_eq] at hfirst
  simp only [Bool.and_eq_true, Bool.not_eq_true', List.contains_iff_mem] at hsecond
  have hp : leakingTwiceSetup.program.Built := ⟨leakingTwice, rfl⟩
  have hbegins := (log_begins_of_stopping hp [⟨0⟩]).1 40 40 a b ha hb
  exact ⟨a, b, ha, hb, hfirst.1, hsecond.1, hfirst.2, hsecond.2, hbegins.1⟩

end Setup

end TaintFlow
