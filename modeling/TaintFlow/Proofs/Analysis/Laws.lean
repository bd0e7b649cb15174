import TaintFlow.Proofs.Analysis.Confinement

/-!
# Laws of a run

A law says what the facts on each side of a run are like, in which contexts they hold, what one side
may hand to the other, and what may be found. If reactions keep a law, it holds in every state of
every run (`Law.KeptBy.holds`): in the tables, in the inboxes and in the log, whatever the settings,
whether or not the run is told to stop after the first finding, and however its steps are
interleaved.

So an invariant of runs is an invariant of single reactions.
-/

namespace TaintFlow

open Tabulation

/-- The path edges that a state holds: recorded ones, those of them that wait to be worked off,
those in the inbox, and those kept as summaries. -/
inductive Tabulation.State.Carries {φ κ : Type} (s : State φ κ) : Edge φ κ → Prop
  | recorded {e} : e ∈ s.edges → Carries s e
  | queued {e} : e ∈ s.worklist → Carries s e
  | waiting {e} : e ∈ s.inbox → Carries s e
  | summarized {start context exit fact} : (context, exit, fact) ∈ s.summaries.rows start →
    Carries s ⟨context, exit, fact⟩

/-- Whatever a state inside a region holds is in the region. -/
theorem Tabulation.Region.Admits.carries {φ κ σ : Type} [DecidableEq κ] {R : Region φ κ σ}
    {P : Problem φ κ σ} {s : State φ κ} (h : R.Admits P s) {e : Edge φ κ} (he : s.Carries e) :
    e ∈ R.edges := by
  cases he with
  | recorded he => exact h.confines.edges e he
  | queued he => exact h.confines.edges e (Array.mem_toList_iff.mp (List.mem_of_mem_drop he))
  | waiting he => exact h.inbox e he
  | summarized hrow => exact (h.confines.summaries hrow).1

structure Law where
  facts : Direction → Fact → Prop
  contexts : Direction → Taint → Prop
  /-- What the given side hands over. -/
  handed : Direction → Fact → Prop
  findings : Finding → Prop

namespace Law

variable (L : Law)

/-- What a reaction on the side `d` may hold. -/
def allowed (d : Direction) : Reaction.Allowed where
  facts := L.facts d
  handed h := L.handed d h.2
  findings := L.findings
  fault _ := True

/-- Reactions keep the law, and so does everything by which facts and contexts come about
otherwise. -/
structure KeptBy (x : Setup) : Prop where
  zero : L.facts .forward .zero
  react : ∀ {d f} edge, L.facts d f → (x.react d false edge f).Within (L.allowed d)
  arrival : ∀ {d f}, L.handed d f → L.facts d.opposite f
  context : ∀ {d f}, L.facts d f → L.contexts d f.taint
  /-- A context without taint is the zero context when a method is left into every caller. -/
  restart : ∀ {d t}, L.contexts d t → t.isZero = true → L.contexts d .zero

/-- The law holds in the tables, in the inboxes and in the log. -/
structure Holds (c : Coupled) : Prop where
  carries : ∀ d e, (c.state d).Carries e → L.contexts d e.context ∧ L.facts d e.fact
  inbox : ∀ d, ∀ e ∈ (c.state d).inbox, e.context = e.fact.taint ∧ L.handed d.opposite e.fact
  findings : ∀ r ∈ c.findings.log, L.findings r

def region (d : Direction) : Region Fact Taint World where
  edges := {e | L.contexts d e.context ∧ L.facts d e.fact}
  worlds := {w | (∀ h ∈ w.outbox, L.handed d h.2) ∧ ∀ r ∈ w.findings.log, L.findings r}
  faults _ := True

variable {L} {x : Setup} {d : Direction}

/-- What is owed to lawful edges is asked about a lawful fact, and lawful facts of the answer land
lawfully. -/
theorem KeptBy.lands_of_owed (hL : L.KeptBy x)
    {enters : StmtId → MethodId → Fact → Taint → Prop} {q : Query} {f : Fact} {l : Landing Taint}
    (howed : Owed (x.problem d) enters (.full (L.region d).edges (L.region d).edges) q f l) :
    L.facts d f ∧ ∀ g, L.facts d g → ∀ e ∈ l.edge? Fact.taint g, e ∈ (L.region d).edges := by
  have hwithin : ∀ {context : Taint} {site : StmtId}, L.contexts d context → ∀ g, L.facts d g →
      ∀ e ∈ (Landing.within context site).edge? Fact.taint g, e ∈ (L.region d).edges := by
    intro context site hcontext g hg e he
    cases he
    exact ⟨hcontext, hg⟩
  have hanew : ∀ {site : StmtId} (g : Fact), L.facts d g →
      ∀ e ∈ (Landing.anew site).edge? Fact.taint g, e ∈ (L.region d).edges := by
    intro site g hg e he
    cases he
    exact ⟨hL.context hg, hg⟩
  have hnowhere : ∀ g : Fact, L.facts d g →
      ∀ e ∈ Landing.nowhere.edge? Fact.taint g, e ∈ (L.region d).edges := by
    intro g _ e he
    cases he
  cases howed with
  | normal he _ _ => exact ⟨he.2, hwithin he.1⟩
  | bypass he _ _ => exact ⟨he.2, hwithin he.1⟩
  | call he _ _ => exact ⟨he.2, hnowhere⟩
  | enter he _ _ _ => exact ⟨he.2, hanew⟩
  | leave hc _ _ _ _ hout _ _ => exact ⟨hout.2, hwithin hc.1⟩
  | release _ hout _ hrel =>
    refine ⟨hout.1.2, ?_⟩
    cases hrel with
    | toCaller _ _ =>
      split
      · next hzero => exact hwithin (hL.restart hout.1.1 hzero)
      · exact hanew
    | departure _ => exact hnowhere

theorem KeptBy.closed (hL : L.KeptBy x) (d : Direction) : (L.region d).Closed (x.problem d) where
  ask := by
    intro q f l w howes hw
    obtain ⟨hf, hlands⟩ := hL.lands_of_owed howes
    have hreply := hL.react q.flowEdge hf
    refine (Setup.safe_ask q fun _ _ => trivial).mono ?_
    -- the reply has taken effect, or the analysis was halted and nothing has
    rintro out w' (⟨hout, rfl⟩ | ⟨rfl, rfl⟩)
    · refine ⟨⟨?_, ?_⟩, ?_⟩
      · intro p hp
        exact (List.mem_append.mp hp).elim (hw.1 p) (hreply.handed p)
      · intro r hr
        exact (List.mem_append.mp hr).elim (hw.2 r) (hreply.findings r)
      · intro g hg
        rw [hout.mem_iff] at hg
        exact hlands g (hreply.facts g (Setup.answer_subset hg))
    · exact ⟨hw, List.forall_mem_nil _⟩
  enters := by
    intro call callee f w _ _ out w' _ g _
    exact trivial
  ranged _ _ := Or.inr trivial

/-! ## Steps and runs -/

/-- The law holds, and each side is inside the region of the law. -/
structure Rules (L : Law) (x : Setup) (c : Coupled) : Prop where
  admits : ∀ d, (L.region d).Admits (x.problem d) (c.state d)
  inbox : ∀ d, ∀ e ∈ (c.state d).inbox, e.context = e.fact.taint ∧ L.handed d.opposite e.fact
  findings : ∀ r ∈ c.findings.log, L.findings r

theorem Rules.holds (hL : L.KeptBy x) {c : Coupled} (h : L.Rules x c) : L.Holds c := by
  refine ⟨?_, h.inbox, h.findings⟩
  intro d e hcarries
  have hconfines := (h.admits d).confines
  cases hcarries with
  | recorded he => exact hconfines.edges e he
  | queued he => exact hconfines.edges e (Array.mem_toList_iff.mp (List.mem_of_mem_drop he))
  | waiting he =>
    obtain ⟨hcontext, hhanded⟩ := h.inbox d e he
    have hfact := hL.arrival hhanded
    rw [Direction.opposite_opposite] at hfact
    exact ⟨hcontext ▸ hL.context hfact, hfact⟩
  | summarized hrow => exact (hconfines.summaries hrow).1

theorem KeptBy.rules_ofStarts (hL : L.KeptBy x) (starts : List StmtId) :
    L.Rules x (.ofStarts starts) := by
  refine ⟨?_, ?_, List.forall_mem_nil _⟩
  · intro d
    cases d with
    | forward =>
      refine Region.Admits.ofSeeds ?_
      intro r hr
      obtain ⟨s, -, rfl⟩ := List.mem_map.mp hr
      exact ⟨hL.context hL.zero, hL.zero⟩
    | backward => exact Region.Admits.empty
  · intro d e he
    cases d with
    | forward =>
      change e ∈ (State.ofSeeds Fact.taint .zero _).inbox at he
      rw [State.ofSeeds_eq, (State.grows_recordAll _).inbox] at he
      cases he
    | backward => cases he

theorem KeptBy.rules_step (hL : L.KeptBy x) (hp : x.program.Built) {c c' : Coupled} {busy : Bool}
    (h : L.Rules x c) (hstep : c.step x d = .ok (c', busy)) : L.Rules x c' := by
  obtain ⟨s, w, hrun, rfl⟩ := Coupled.step_eq_ok hstep
  have hworld : ({ findings := c.findings } : World) ∈ (L.region d).worlds :=
    ⟨List.forall_mem_nil _, h.findings⟩
  have hstepped := (Region.safe_step (hL.closed d) (hp.startsOwned d) (h.admits d) hworld
    x.settings.batchSize).result _ _ hrun
  refine ⟨?_, ?_, ?_⟩
  -- the side that stepped is lawful by closedness, the other gets what was handed over lawfully
  · intro d'
    rcases Direction.eq_or_eq_opposite d d' with rfl | rfl
    · rw [Coupled.state_advanced]
      exact hstepped.admits
    · rw [Coupled.state_opposite_advanced]
      refine (h.admits d.opposite).inject ?_
      intro e he
      obtain ⟨p, hp', rfl⟩ := List.mem_map.mp he
      have hfact := hL.arrival (hstepped.world.1 p hp')
      exact ⟨hL.context hfact, hfact⟩
  · intro d'
    rcases Direction.eq_or_eq_opposite d d' with rfl | rfl
    · rw [Coupled.state_advanced, hstepped.emptied]
      exact List.forall_mem_nil _
    · rw [Coupled.state_opposite_advanced, Direction.opposite_opposite]
      intro e he
      rcases List.mem_append.mp he with hold | hnew
      · have hinbox := h.inbox d.opposite e hold
        rwa [Direction.opposite_opposite] at hinbox
      · obtain ⟨p, hp', rfl⟩ := List.mem_map.mp hnew
        exact ⟨rfl, hstepped.world.1 p hp'⟩
  · rw [Coupled.findings_advanced]
    exact hstepped.world.2

/-- A law that reactions keep holds in every state of a run. -/
theorem KeptBy.holds (hL : L.KeptBy x) (hp : x.program.Built) {starts : List StmtId} {c : Coupled}
    (h : Coupled.Reachable x starts c) : L.Holds c := by
  have hrules : L.Rules x c := by
    induction h with
    | start => exact hL.rules_ofStarts starts
    | step _ hstep ih => exact hL.rules_step hp ih hstep
    | count _ ih =>
      -- the number of rounds is no part of either side
      refine ⟨?_, ?_, ih.findings⟩
      · intro d
        cases d with
        | forward => exact ih.admits .forward
        | backward => exact ih.admits .backward
      · intro d
        cases d with
        | forward => exact ih.inbox .forward
        | backward => exact ih.inbox .backward
  exact hrules.holds hL

end Law

end TaintFlow
