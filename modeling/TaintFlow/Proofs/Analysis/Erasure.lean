import TaintFlow.Analysis.Analyze
import TaintFlow.Proofs.Analysis.Phases
import TaintFlow.Proofs.Tabulation.LockStep

/-!
# What the bookkeeping of facts has no say in

Facts with one taint are answered alike by every flow function of both analyses, so that a table
loses nothing by keeping one of them. Whether witness paths are tracked makes a difference to the
bookkeeping of facts only, so that tracking does not change a run: with and without it, the same
path edges are worked off in the same order, and the same findings are made.
-/

namespace TaintFlow

open Tabulation

/-! ## Flow functions -/

/-- Worlds that are the same up to bookkeeping and witness paths. -/
structure World.Alike (w w' : World) : Prop where
  findings : w.findings.log.map Finding.unwitnessed = w'.findings.log.map Finding.unwitnessed
  outbox : w.outbox.map handedTaint = w'.outbox.map handedTaint

namespace World.Alike

variable {w w' : World}

theorem refl (w : World) : w.Alike w := ⟨rfl, rfl⟩

theorem absorb (h : w.Alike w') {r r' : Reaction} (hr : r.Alike r') :
    (w.absorb r).Alike (w'.absorb r') where
  findings := by
    change (w.findings.log ++ r.findings).map _ = (w'.findings.log ++ r'.findings).map _
    rw [List.map_append, List.map_append, h.findings, hr.findings]
  outbox := by
    change (w.outbox ++ r.handed).map _ = (w'.outbox ++ r'.handed).map _
    rw [List.map_append, List.map_append, h.outbox, hr.handed]

theorem isEmpty (h : w.Alike w') : w.findings.isEmpty = w'.findings.isEmpty := by
  unfold Findings.isEmpty
  simpa using congrArg List.isEmpty h.findings

/-- What is delivered arrives as the same edges, up to bookkeeping. -/
theorem map_erase_selfLoop (h : w.Alike w') :
    (w.outbox.map fun p => selfLoop p.1 p.2).map (Edge.erase Fact.taint) =
      (w'.outbox.map fun p => selfLoop p.1 p.2).map (Edge.erase Fact.taint) := by
  have hloops : ∀ l : List (StmtId × Fact),
      (l.map fun p => selfLoop p.1 p.2).map (Edge.erase Fact.taint) =
        (l.map handedTaint).map fun p => ⟨p.2, p.1, p.2⟩ := by
    intro l
    rw [List.map_map, List.map_map]
    rfl
  rw [hloops, hloops, h.outbox]

end World.Alike

namespace Setup

variable {x : Setup} {t u : PathTracking} {o p : Order Fact Taint} {f g : Fact}

/-- Whatever is tracked, a flow function answers facts with one taint alike. -/
theorem run_tracking (hnative : x.native.IgnoresBookkeeping) (h : f.taint = g.taint)
    (d : Direction) (edge : FlowEdge) :
    Run.InStep World.Alike (SameKeys Fact.taint) ((x.tracking t o).run d edge f)
      ((x.tracking u p).run d edge g) := by
  intro w w' hw
  -- whether a run is halted depends on there being findings, not on their paths
  have hhalted : (x.tracking t o).isHalted w.findings = (x.tracking u p).isHalted w'.findings := by
    unfold isHalted
    rw [hw.isEmpty]
    rfl
  have halike := react_tracking (t := t) (u := u) (o := o) (p := p) hnative h d
    ((x.tracking u p).isHalted w'.findings) edge
  unfold StateT.run run
  rw [hhalted]
  dsimp only
  generalize (x.tracking t o).react d _ edge f = r at halike ⊢
  generalize (x.tracking u p).react d _ edge g = r' at halike ⊢
  rw [halike.fault]
  split
  · exact .stop _
  · refine .result ⟨?_, hw.absorb halike⟩
    -- the taints before the edge are the same, so one order is asked about equal taints
    rw [h]
    exact x.results.taints halike.facts

/-- Answers of the side `d` that are the same up to bookkeeping: facts with the same taints, the
same edges in the inbox of the other side, and the same findings but for their paths. -/
structure SameAnswer (d : Direction) (r r' : List Fact × World) : Prop where
  facts : r.1.map Fact.taint = r'.1.map Fact.taint
  inbox : ∀ c : Coupled,
    ((c.deliver d r.2.outbox).state d.opposite).inbox.map (Edge.erase Fact.taint) =
      ((c.deliver d r'.2.outbox).state d.opposite).inbox.map (Edge.erase Fact.taint)
  findings : r.2.findings.log.map Finding.unwitnessed = r'.2.findings.log.map Finding.unwitnessed

/-- No flow function tells the facts apart, on whatever edge and whatever has been found before. -/
def AnswersAlike (x : Setup) (f g : Fact) : Prop :=
  ∀ d edge (w : World), InStep (SameAnswer d) ((x.run d edge f).run w) ((x.run d edge g).run w)

theorem answersAlike_of_taint (hnative : x.native.IgnoresBookkeeping) (h : f.taint = g.taint) :
    x.AnswersAlike f g := by
  intro d edge w
  have hrun := run_tracking (t := x.settings.pathTracking) (u := x.settings.pathTracking)
    (o := x.order) (p := x.order) hnative h d edge w w (.refl w)
  refine hrun.mono ?_
  rintro r r' ⟨hfacts, hworld⟩
  refine ⟨hfacts, ?_, hworld.findings⟩
  -- into whatever run the facts are delivered
  intro c
  have hstate : ∀ outbox, (c.deliver d outbox).state d.opposite =
      (c.state d.opposite).inject (outbox.map fun p => selfLoop p.1 p.2) := by
    intro outbox
    cases d <;> rfl
  rw [hstate, hstate]
  change List.map _ (_ ++ _) = List.map _ (_ ++ _)
  rw [List.map_append, List.map_append, hworld.map_erase_selfLoop]

/-- Flow functions answer facts with one taint alike. So a table that keeps one of them loses
nothing: whatever is recorded, some edge of the table answers for it. -/
theorem flows_respect_taints (hnative : x.native = .conservative) (h : f.taint = g.taint) :
    x.AnswersAlike f g ∧ ∀ s : State Fact Taint, s.Coherent Fact.taint → ∀ context node,
      ∃ e ∈ (s.propagate Fact.taint context node f).edges,
        e.context = context ∧ e.node = node ∧ x.AnswersAlike e.fact g := by
  have hignores : x.native.IgnoresBookkeeping := by
    rw [hnative]
    exact NativeModel.conservative_ignoresBookkeeping
  refine ⟨answersAlike_of_taint hignores h, ?_⟩
  intro s hs context node
  have hholds : (s.propagate Fact.taint context node f).holds context node f.taint = true :=
    State.holds_propagate.mpr (Or.inr ⟨rfl, rfl, rfl⟩)
  obtain ⟨e, he, hcontext, hnode, htaint⟩ :=
    ((hs.propagate context node f).holds_iff _ _ _).mp hholds
  exact ⟨e, he, hcontext, hnode, answersAlike_of_taint hignores (htaint.trans h)⟩

/-- The secret in `x`, and nothing else known of it. -/
def secretInX : Fact where
  taint := {
    path := .ofLocal ⟨⟨0⟩, "x", .string⟩
    source := ⟨2⟩
    origin := .invoke none ⟨"Sec", "String", "get", []⟩ [] }

/-- The secret in `x`, with a path, an open call and an ancestor. -/
def secretInXTraced : Fact :=
  { secretInX with trail := some [⟨2⟩], callers := [.zero], zeroAncestor := some .zero }

/-- At the statement that stores the secret, either fact goes on to `b.secret` and starts a search
for aliases; a table that holds the one needs not hold the other. -/
theorem flows_respect_taints_secretInX :
    Coupled.twoNamesSetup.AnswersAlike secretInXTraced secretInX ∧
    ((Coupled.twoNamesSetup.run .forward (.normal ⟨3⟩) secretInXTraced).run {}).toOption.any
      (fun r => r.1.length = 2 && r.2.outbox.length = 1) = true ∧
    ∃ e ∈ ((State.propagate Fact.taint {} .zero ⟨3⟩ secretInX).propagate Fact.taint .zero ⟨3⟩
        secretInXTraced).edges,
      e.node = ⟨3⟩ ∧ Coupled.twoNamesSetup.AnswersAlike e.fact secretInX := by
  have hflows := flows_respect_taints (x := Coupled.twoNamesSetup) (f := secretInXTraced)
    (g := secretInX) rfl rfl
  obtain ⟨e, he, -, hnode, hanswers⟩ :=
    hflows.2 _ (State.coherent_empty.propagate .zero ⟨3⟩ secretInX) .zero ⟨3⟩
  exact ⟨hflows.1, by decide +kernel, e, he, hnode, hanswers⟩

/-! ## Problems and steps -/

theorem problem_agrees (hnative : x.native.IgnoresBookkeeping) (ho : o.Agrees Fact.taint p)
    (d : Direction) :
    ((x.tracking t o).problem d).Agrees World.Alike ((x.tracking u p).problem d) where
  view := rfl
  key := rfl
  zero := rfl
  isZero := rfl
  unbalanced := rfl
  order := by
    change (if x.settings.parallel then o else o.sequential).Agrees _
      (if x.settings.parallel then p else p.sequential)
    split
    · exact ho
    · exact ho.sequential
  normal s _ _ _ h := run_tracking hnative h d (.normal s)
  enter call callee _ _ h := run_tracking hnative h d (.enter call callee)
  leave call callee exit _ _ _ h := run_tracking hnative h d (.leave (some call) callee exit)
  bypass call _ _ _ h := run_tracking hnative h d (.bypass call)
  depart method exit _ _ h := by
    refine Run.inStep_bind (run_tracking hnative h d (.leave none method exit)) ?_
    intro _ _ _
    exact Run.inStep_pure rfl

end Setup

namespace Coupled

/-- Runs that stand at the same point: on both sides the same path edges have been found and worked
off in the same order, up to bookkeeping, and the same has been found up to witness paths. -/
structure Alike (c c' : Coupled) : Prop where
  states : ∀ d, SameErasure Fact.taint (c.state d) (c'.state d)
  findings : c.findings.log.map Finding.unwitnessed = c'.findings.log.map Finding.unwitnessed
  probes : c.probes = c'.probes
  aliases : c.aliases = c'.aliases
  rounds : c.rounds = c'.rounds

variable {x : Setup} {t u : PathTracking} {o p : Order Fact Taint} {c c' : Coupled}

theorem Alike.refl (c : Coupled) : c.Alike c := ⟨fun _ => rfl, rfl, rfl, rfl, rfl⟩

theorem Alike.isIdle (h : c.Alike c') : c.isIdle = c'.isIdle := by
  have hstate : ∀ d, (c.state d).isIdle = (c'.state d).isIdle := by
    intro d
    rw [← State.isIdle_erase Fact.taint, h.states d, State.isIdle_erase]
  unfold Coupled.isIdle
  exact congrArg₂ and (hstate .forward) (hstate .backward)

theorem Alike.processed (h : c.Alike c') (d : Direction) :
    (c.state d).processed = (c'.state d).processed :=
  congrArg (fun s : State Taint Taint => s.processed) (h.states d)

theorem Alike.statistics (h : c.Alike c') (d : Direction) :
    (c.state d).statistics = (c'.state d).statistics := by
  rw [← State.statistics_erase Fact.taint, h.states d, State.statistics_erase]

theorem Alike.edges (h : c.Alike c') (d : Direction) :
    (c.state d).edges.toList.map (Edge.erase Fact.taint) =
      (c'.state d).edges.toList.map (Edge.erase Fact.taint) := by
  have hedges : (c.state d).edges.map (Edge.erase Fact.taint) =
      (c'.state d).edges.map (Edge.erase Fact.taint) :=
    congrArg (fun s : State Taint Taint => s.edges) (h.states d)
  simpa using congrArg Array.toList hedges

theorem Alike.isCapped (h : c.Alike c') :
    c.isCapped (x.tracking t o) = c'.isCapped (x.tracking u p) := by
  unfold Coupled.isCapped propagations
  have hforward := h.processed .forward
  have hbackward := h.processed .backward
  change c.forward.processed = c'.forward.processed at hforward
  change c.backward.processed = c'.backward.processed at hbackward
  rw [hforward, hbackward]
  rfl

/-- What one side has done and handed over leaves runs alike. -/
theorem Alike.advanced (h : c.Alike c') {d : Direction} {s s' : State Fact Taint} {w w' : World}
    (hs : SameErasure Fact.taint s s') (hw : w.Alike w') :
    (c.advanced d s w).Alike (c'.advanced d s' w') := by
  have hlength : w.outbox.length = w'.outbox.length := by
    simpa using congrArg List.length hw.outbox
  refine ⟨?_, ?_, ?_, ?_, ?_⟩
  · intro d'
    rcases Direction.eq_or_eq_opposite d d' with rfl | rfl
    · rw [state_advanced, state_advanced]
      exact hs
    · rw [state_opposite_advanced, state_opposite_advanced]
      unfold SameErasure
      rw [State.erase_inject, State.erase_inject, h.states d.opposite, hw.map_erase_selfLoop]
  · rw [findings_advanced, findings_advanced]
    exact hw.findings
  -- only the counter of the direction that was worked on has changed
  · cases d with
    | forward =>
      change c.probes + (w.outbox.map _).length = c'.probes + (w'.outbox.map _).length
      rw [List.length_map, List.length_map, hlength, h.probes]
    | backward => exact h.probes
  · cases d with
    | forward => exact h.aliases
    | backward =>
      change c.aliases + (w.outbox.map _).length = c'.aliases + (w'.outbox.map _).length
      rw [List.length_map, List.length_map, hlength, h.aliases]
  · cases d <;> exact h.rounds

theorem Alike.step (hnative : x.native.IgnoresBookkeeping) (ho : o.Agrees Fact.taint p)
    (h : c.Alike c') (d : Direction) :
    InStep (fun r r' => r.1.Alike r'.1 ∧ r.2 = r'.2) (c.step (x.tracking t o) d)
      (c'.step (x.tracking u p) d) := by
  have hstep := (Setup.problem_agrees (t := t) (u := u) hnative ho d).step (h.states d)
    x.settings.batchSize { findings := c.findings } { findings := c'.findings }
    ⟨h.findings, rfl⟩
  refine hstep.bind ?_
  rintro ⟨⟨s, busy⟩, w⟩ ⟨⟨s', busy'⟩, w'⟩ ⟨⟨hs, hbusy⟩, hw⟩
  exact .result ⟨h.advanced hs hw, hbusy⟩

theorem Alike.round (hnative : x.native.IgnoresBookkeeping) (ho : o.Agrees Fact.taint p)
    (h : c.Alike c') :
    InStep (fun r r' => r.1.Alike r'.1 ∧ r.2 = r'.2) (c.round (x.tracking t o))
      (c'.round (x.tracking u p)) := by
  refine (h.step hnative ho .forward).bind ?_
  rintro ⟨c₁, busy₁⟩ ⟨c₁', busy₁'⟩ ⟨h₁, rfl⟩
  refine (h₁.step hnative ho .backward).bind ?_
  rintro ⟨c₂, busy₂⟩ ⟨c₂', busy₂'⟩ ⟨h₂, rfl⟩
  refine .result ⟨⟨?_, h₂.findings, h₂.probes, h₂.aliases, ?_⟩, rfl⟩
  · intro d
    cases d with
    | forward => exact h₂.states .forward
    | backward => exact h₂.states .backward
  · exact congrArg (· + 1) h₂.rounds

theorem Alike.solve (hnative : x.native.IgnoresBookkeeping) (ho : o.Agrees Fact.taint p)
    (fuel : Nat) (h : c.Alike c') :
    InStep (Option.Rel fun r r' => r.1.Alike r'.1 ∧ r.2 = r'.2)
      (Coupled.solve (x.tracking t o) fuel c) (Coupled.solve (x.tracking u p) fuel c') := by
  induction fuel generalizing c c' with
  | zero => exact .result .none
  | succ fuel ih =>
    refine (h.round hnative ho).bind ?_
    rintro ⟨c₁, busy⟩ ⟨c₁', busy'⟩ ⟨h₁, rfl⟩
    dsimp only
    -- both rounds are idle or capped together
    rw [h₁.isIdle, h₁.isCapped (t := t) (u := u) (o := o) (p := p)]
    split
    · exact .result (.some ⟨h₁, rfl⟩)
    · split
      · exact .result (.some ⟨h₁, rfl⟩)
      · exact ih h₁

theorem Alike.steps (hnative : x.native.IgnoresBookkeeping) (ho : o.Agrees Fact.taint p)
    (ds : List Direction) (h : c.Alike c') :
    InStep Coupled.Alike (c.steps (x.tracking t o) ds) (c'.steps (x.tracking u p) ds) := by
  unfold Coupled.steps
  induction ds generalizing c c' with
  | nil => exact .result h
  | cons d ds ih =>
    rw [List.foldlM_cons, List.foldlM_cons]
    refine InStep.bind (R := Coupled.Alike) ?_ fun _ _ h₁ => ih h₁
    refine (h.step hnative ho d).bind ?_
    rintro r r' ⟨hr, -⟩
    exact .result hr

/-- The path edges that the side `d` has worked off, in order and without bookkeeping. -/
def workedOff (c : Coupled) (d : Direction) : List (Edge Taint Taint) :=
  ((c.state d).edges.toList.take (c.state d).processed).map (Edge.erase Fact.taint)

theorem Alike.workedOff (h : c.Alike c') (d : Direction) : c.workedOff d = c'.workedOff d := by
  unfold Coupled.workedOff
  rw [List.map_take, List.map_take, h.edges d, h.processed d]

end Coupled

/-! ## Whole analyses -/

/-- Outcomes of the same run, up to bookkeeping: it ended the same way, found and worked off the
same path edges in the same order, and made the same findings but for their witness paths. -/
structure Outcome.Alike (a b : Outcome) : Prop where
  completed : a.completed = b.completed
  edges : ∀ d, (a.final.state d).edges.toList.map (Edge.erase Fact.taint) =
    (b.final.state d).edges.toList.map (Edge.erase Fact.taint)
  workedOff : ∀ d, a.final.workedOff d = b.final.workedOff d
  statistics : ∀ d, (a.final.state d).statistics = (b.final.state d).statistics
  findings : a.final.findings.log.map Finding.unwitnessed =
    b.final.findings.log.map Finding.unwitnessed

theorem Outcome.alike_of_final {a b : Outcome} (hcompleted : a.completed = b.completed)
    (h : a.final.Alike b.final) : a.Alike b :=
  ⟨hcompleted, h.edges, h.workedOff, h.statistics, h.findings⟩

namespace Setup

variable {x : Setup} {t u : PathTracking} {o p : Order Fact Taint}

theorem check_tracking (entries : List MethodId) :
    (x.tracking t o).check entries = x.check entries := rfl

theorem runFrom_tracking (hnative : x.native.IgnoresBookkeeping) (ho : o.Agrees Fact.taint p)
    (starts : List StmtId) (fuel : Nat) :
    InStep Outcome.Alike ((x.tracking t o).runFrom starts fuel)
      ((x.tracking u p).runFrom starts fuel) := by
  have hsolve := (Coupled.Alike.refl (.ofStarts starts)).solve (t := t) (u := u) hnative ho fuel
  unfold runFrom Coupled.outcome
  generalize Coupled.solve (x.tracking t o) fuel _ = m at hsolve ⊢
  generalize Coupled.solve (x.tracking u p) fuel _ = m' at hsolve ⊢
  cases hsolve with
  | stop fault => exact .stop _
  | result hfound =>
    cases hfound with
    | none => exact .stop _
    | some hfinal => exact .result (Outcome.alike_of_final hfinal.2 hfinal.1)

/-- Tracking witness paths has no influence on a run. If sets are gone through in the same order,
runs with and without tracking take the same steps, however steps are scheduled; and both analyses
are refused, stopped or unfinished for the same reason, or come to the same outcome. -/
theorem analyze_ignores_tracking (hnative : x.native = .conservative)
    (ho : o.Agrees Fact.taint p) :
    (∀ starts ds, InStep (fun c c' => c.Alike c' ∧ ∀ d, c.workedOff d = c'.workedOff d)
      ((Coupled.ofStarts starts).steps (x.tracking .forward o) ds)
      ((Coupled.ofStarts starts).steps (x.tracking .off p) ds)) ∧
    ∀ entries fuel, InStep Outcome.Alike ((x.tracking .forward o).analyze entries fuel)
      ((x.tracking .off p).analyze entries fuel) := by
  have hignores : x.native.IgnoresBookkeeping := by
    rw [hnative]
    exact NativeModel.conservative_ignoresBookkeeping
  refine ⟨?_, ?_⟩
  · intro starts ds
    refine ((Coupled.Alike.refl (.ofStarts starts)).steps hignores ho ds).mono ?_
    intro c c' hc
    exact ⟨hc, hc.workedOff⟩
  · intro entries fuel
    unfold analyze
    rw [check_tracking, check_tracking]
    cases x.check entries with
    | error error => exact .stop _
    | ok starts => exact runFrom_tracking hignores ho starts fuel

/-- The analysis of the two names finds the secret at the sink with and without its path. -/
theorem analyze_ignores_tracking_twoNames : ∃ a b,
    (Coupled.twoNamesSetup.tracking .forward {}).analyze [⟨0⟩] 40 = .ok a ∧
    (Coupled.twoNamesSetup.tracking .off {}).analyze [⟨0⟩] 40 = .ok b ∧
    a.final.findings.log.map Finding.path = [some [⟨2⟩, ⟨3⟩, ⟨4⟩, ⟨5⟩]] ∧
    b.final.findings.log.map Finding.path = [none] ∧ a.Alike b := by
  have hruns : ((Coupled.twoNamesSetup.tracking .forward {}).analyze [⟨0⟩] 40).toOption.any
      (fun a => a.final.findings.log.map Finding.path = [some [⟨2⟩, ⟨3⟩, ⟨4⟩, ⟨5⟩]]) = true ∧
      ((Coupled.twoNamesSetup.tracking .off {}).analyze [⟨0⟩] 40).toOption.any
        (fun b => b.final.findings.log.map Finding.path = [none]) = true := by
    decide +kernel
  obtain ⟨a, ha, hpath⟩ := exists_of_any_toOption hruns.1
  obtain ⟨b, hb, hnone⟩ := exists_of_any_toOption hruns.2
  have hanalyze := (analyze_ignores_tracking (x := Coupled.twoNamesSetup) rfl
    (Order.agrees_asFiled Fact.taint)).2 [⟨0⟩] 40
  rw [ha, hb] at hanalyze
  cases hanalyze with
  | result halike =>
    exact ⟨a, b, ha, hb, decide_eq_true_eq.mp hpath, decide_eq_true_eq.mp hnone, halike⟩

end Setup

end TaintFlow
