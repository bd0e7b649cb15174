import TaintFlow.Analysis.Analyze
import TaintFlow.Proofs.Tabulation.Invariant

/-!
# The invariant of a coupled run

Each of the two tabulations keeps its own invariant, relative to a ledger of the answers that its
flow functions have given. An answer is on record once its findings are in the log and what it hands
over is on its way to the other side: in the outbox, in the inbox over there, or in the table over
there.

A run that starts from nothing contains nothing but what follows from its start points. `Extent`
says what it means to be closed under everything that both sides owe, and a run is inside every
closed extent.
-/

namespace TaintFlow

open Tabulation

/-- The edge along which a question sends its fact. -/
def Tabulation.Query.flowEdge : Query → FlowEdge
  | .normal stmt _ => .normal stmt
  | .enter call callee => .enter call callee
  | .leave call callee exit _ => .leave (some call) callee exit
  | .bypass call _ => .bypass call
  | .depart method exit => .leave none method exit

namespace Setup

variable (x : Setup)

/-- The reaction to a question while nothing halts the analysis. -/
def reply (d : Direction) (q : Query) (f : Fact) : Reaction := x.react d false q.flowEdge f

/-- The facts of a reply that go on. -/
def answer (d : Direction) (q : Query) (f : Fact) : List Fact :=
  match q with
  | .depart _ _ => []
  | q => (x.reply d q f).facts

variable {x} {d : Direction} {f : Fact} {w : World}

/-- A departure answers with nothing, any other question with the facts of its reply. -/
theorem answer_subset {q : Query} : x.answer d q f ⊆ (x.reply d q f).facts := by
  cases q with
  | depart method exit => exact List.nil_subset _
  | _ => exact List.Subset.refl _

theorem isHalted_eq_false (hstop : x.settings.stopAfterFirstFlow = false) (fs : Findings) :
    x.isHalted fs = false := by
  unfold isHalted
  rw [hstop]
  rfl

/-- Unless a finding was enough, a reaction that does not break off takes effect. -/
theorem exists_run_eq_ok (hhalted : x.isHalted w.findings = false) (edge : FlowEdge) (f : Fact)
    (hfault : (x.react d false edge f).fault = none) :
    ∃ out, (x.run d edge f).run w = .ok (out, w.absorb (x.react d false edge f)) ∧
      out.Perm (x.react d false edge f).facts := by
  refine ⟨_, ?_, x.results.perm (d, edge, f.taint) _⟩
  change x.run d edge f w = _
  unfold Setup.run
  simp only [hhalted, hfault]

theorem ensures_run (hhalted : x.isHalted w.findings = false) (edge : FlowEdge) :
    Run.Ensures (x.run d edge f) w fun out w' =>
      (x.react d false edge f).fault = none ∧ out.Perm (x.react d false edge f).facts ∧
      w' = w.absorb (x.react d false edge f) := by
  intro out w' hrun
  change x.run d edge f w = .ok (out, w') at hrun
  unfold Setup.run at hrun
  rw [hhalted] at hrun
  dsimp only at hrun
  split at hrun
  · cases hrun
  · next hfault =>
    cases hrun
    exact ⟨hfault, x.results.perm _ _, rfl⟩

/-- A question is answered by its reply, which takes effect on the world. -/
theorem ensures_reply (hstop : x.settings.stopAfterFirstFlow = false) (q : Query) :
    Run.Ensures ((x.problem d).ask q f) w fun out w' =>
      (x.reply d q f).fault = none ∧ out.Perm (x.answer d q f) ∧
      w' = w.absorb (x.reply d q f) := by
  have hhalted := isHalted_eq_false hstop w.findings
  cases q with
  | normal stmt succ => exact ensures_run hhalted (.normal stmt)
  | enter call callee => exact ensures_run hhalted (.enter call callee)
  | leave call callee exit site => exact ensures_run hhalted (.leave (some call) callee exit)
  | bypass call site => exact ensures_run hhalted (.bypass call)
  -- leaving for no caller in particular; the facts are dropped, the effects are not
  | depart method exit =>
    apply Run.ensures_bind
    apply Run.ensures_bind
    refine (ensures_run hhalted (.leave none method exit)).mono ?_
    rintro out w' ⟨hfault, -, hw'⟩
    exact Run.ensures_pure (Run.ensures_pure ⟨hfault, .refl _, hw'⟩)

/-- An answer is on record once its findings are in the log and what it hands over is in the outbox,
unless it was sent before. -/
structure Recorded (x : Setup) (d : Direction) (sent : StmtId × Fact → Prop) (w : World) (q : Query)
    (f : Fact) (out : List Fact) : Prop where
  fault : (x.reply d q f).fault = none
  facts : out.Perm (x.answer d q f)
  handed : ∀ h ∈ (x.reply d q f).handed, h ∈ w.outbox ∨ sent h
  findings : ∀ r ∈ (x.reply d q f).findings, r ∈ w.findings.log

theorem Recorded.mono {sent sent' : StmtId × Fact → Prop} {w' : World} {q : Query}
    {out : List Fact} (h : Recorded x d sent w q f out)
    (hhanded : ∀ h, h ∈ w.outbox ∨ sent h → h ∈ w'.outbox ∨ sent' h)
    (hfindings : ∀ r ∈ w.findings.log, r ∈ w'.findings.log) : Recorded x d sent' w' q f out where
  fault := h.fault
  facts := h.facts
  handed p hp := hhanded p (h.handed p hp)
  findings r hr := hfindings r (h.findings r hr)

/-- The contexts that a fact before a call brings into a callee. -/
def Enters (x : Setup) (d : Direction) (call : StmtId) (callee : MethodId) (f : Fact) (t : Taint) :
    Prop :=
  ∃ g ∈ (x.react d false (.enter call callee) f).facts, g.taint = t

/-- Some fact with the same taint enters the callee in this context. -/
def EntersAlike (x : Setup) (d : Direction) (call : StmtId) (callee : MethodId) (f : Fact)
    (t : Taint) : Prop :=
  ∃ g : Fact, g.taint = f.taint ∧ x.Enters d call callee g t

def ledger (hstop : x.settings.stopAfterFirstFlow = false) (d : Direction)
    (sent : StmtId × Fact → Prop) : Ledger (x.problem d) where
  Answered := x.Recorded d sent
  Enters := x.Enters d
  -- the world only grows, so what was recorded once stays recorded
  answered hask := by
    obtain ⟨hfault, hout, rfl⟩ := ensures_reply hstop _ _ _ hask
    exact ⟨hfault, hout, fun h hh => Or.inl (List.mem_append_right _ hh),
      fun r hr => List.mem_append_right _ hr⟩
  kept hask hold := by
    obtain ⟨-, -, rfl⟩ := ensures_reply hstop _ _ _ hask
    apply hold.mono
    · intro h hh
      exact hh.imp_left (List.mem_append_left _)
    · intro r hr
      exact List.mem_append_left _ hr
  enters_iff hout := by
    simp only [hout.facts.mem_iff]
    rfl

end Setup

/-! ## Extents -/

/-- A set of path edges on each side, and pairs of a sink and a source. -/
structure Extent where
  edges : Direction → Set (Edge Fact Taint)
  pairs : Set (StmtId × StmtId)

namespace Extent

/-- The worlds that the analysis of direction `d` may leave behind. -/
def worlds (E : Extent) (d : Direction) : Set World :=
  {w | (∀ h ∈ w.outbox, selfLoop h.1 h.2 ∈ E.edges d.opposite) ∧
    ∀ r ∈ w.findings.log, (r.sink, r.source) ∈ E.pairs}

/-- Whatever is owed to the edges of `E` stays in `E`, where the edges in `R` may be let out. -/
def Closed {x : Setup} (hstop : x.settings.stopAfterFirstFlow = false)
    (R : Direction → Set (Edge Fact Taint)) (E : Extent) : Prop :=
  ∀ d, (x.ledger hstop d fun _ => False).Closed (R d) (E.edges d) (E.worlds d)

/-- The reply to the question stays in `E`: its facts where they land, what it hands over on the
other side, and what it finds among the pairs. -/
structure TakesIn (E : Extent) (x : Setup) (d : Direction) (q : Query) (f : Fact)
    (l : Landing Taint) : Prop where
  facts : ∀ g ∈ x.answer d q f, ∀ e ∈ l.edge? Fact.taint g, e ∈ E.edges d
  handed : ∀ h ∈ (x.reply d q f).handed, selfLoop h.1 h.2 ∈ E.edges d.opposite
  findings : ∀ r ∈ (x.reply d q f).findings, (r.sink, r.source) ∈ E.pairs

/-- An extent that takes in every reply owed to its edges is closed. -/
theorem closed_of_takesIn {x : Setup} {hstop : x.settings.stopAfterFirstFlow = false}
    {R : Direction → Set (Edge Fact Taint)} {E : Extent}
    (h : ∀ d q f l, Owed (x.problem d) (x.EntersAlike d)
      (.full (E.edges d) (R d)) q f l → (x.reply d q f).fault = none → E.TakesIn x d q f l) :
    E.Closed hstop R := by
  intro d q f l w out w' howed hw hask
  obtain ⟨hfault, hout, rfl⟩ := Setup.ensures_reply hstop q _ _ hask
  have htakes := h d q f l howed hfault
  refine ⟨⟨?_, ?_⟩, fun g hg => htakes.facts g (hout.mem_iff.mp hg)⟩
  · intro p hp
    exact (List.mem_append.mp hp).elim (hw.1 p) (htakes.handed p)
  · intro r hr
    exact (List.mem_append.mp hr).elim (hw.2 r) (htakes.findings r)

/-- Everything in the tables, in the inboxes and in the log. -/
structure Contains (E : Extent) (c : Coupled) : Prop where
  edges : ∀ d, ∀ e ∈ (c.state d).edges, e ∈ E.edges d
  inbox : ∀ d, ∀ e ∈ (c.state d).inbox, e ∈ E.edges d
  pairs : ∀ r ∈ c.findings.log, (r.sink, r.source) ∈ E.pairs

end Extent

namespace Coupled

variable {x : Setup} {c c' : Coupled} {d : Direction}

/-! ## One step of one side -/

/-- The fact is on its way to the other side, or has arrived there. -/
def Sent (c : Coupled) (d : Direction) (h : StmtId × Fact) : Prop :=
  selfLoop h.1 h.2 ∈ (c.state d.opposite).inbox ∨
    (c.state d.opposite).holds h.2.taint h.1 h.2.taint = true

/-- The state after the side `d` has worked. -/
def advanced (c : Coupled) (d : Direction) (s : State Fact Taint) (w : World) : Coupled :=
  ({ c.setState d s with findings := w.findings }).deliver d w.outbox

theorem state_advanced (c : Coupled) (d : Direction) (s : State Fact Taint) (w : World) :
    (c.advanced d s w).state d = s := by
  cases d <;> rfl

theorem state_opposite_advanced (c : Coupled) (d : Direction) (s : State Fact Taint) (w : World) :
    (c.advanced d s w).state d.opposite =
      (c.state d.opposite).inject (w.outbox.map fun h => selfLoop h.1 h.2) := by
  cases d <;> rfl

theorem findings_advanced (c : Coupled) (d : Direction) (s : State Fact Taint) (w : World) :
    (c.advanced d s w).findings = w.findings := by
  cases d <;> rfl

theorem step_eq_ok {busy : Bool} (h : c.step x d = .ok (c', busy)) : ∃ s w,
    ((x.problem d).step x.settings.batchSize (c.state d)).run { findings := c.findings } =
      .ok ((s, busy), w) ∧ c' = c.advanced d s w := by
  obtain ⟨⟨⟨s, busy'⟩, w⟩, hstep, h⟩ := exists_of_bind_eq_ok h
  cases h
  exact ⟨s, w, hstep, rfl⟩

/-! ## The invariant -/

/-- Both sides keep their invariants, with the edges in `R` let out, and the run is inside every
closed extent that contains its start points. -/
structure Consistent (hstop : x.settings.stopAfterFirstFlow = false) (starts : List StmtId)
    (R : Direction → Set (Edge Fact Taint)) (c : Coupled) : Prop where
  standing : ∀ d, Standing (x.ledger hstop d (c.Sent d)) (R d) (c.state d)
    { findings := c.findings }
  started : ∀ s ∈ starts, c.forward.holds .zero s .zero = true
  least : ∀ E : Extent, E.Closed hstop R →
    (∀ s ∈ starts, (⟨.zero, s, .zero⟩ : Edge Fact Taint) ∈ E.edges .forward) → E.Contains c

theorem Consistent.ofStarts (hstop : x.settings.stopAfterFirstFlow = false)
    (starts : List StmtId) : Consistent hstop starts (fun _ => ∅) (.ofStarts starts) where
  standing d := by
    cases d with
    | forward => exact .ofSeeds (P := x.problem .forward) _
    | backward => exact .of_unprocessed Sane.empty rfl
  started s hs := by
    change (State.ofSeeds Fact.taint .zero _).holds .zero s .zero = true
    rw [State.ofSeeds_eq, State.holds_recordAll]
    refine Or.inr ⟨⟨.zero, s, .zero⟩, ?_, rfl, rfl, rfl⟩
    simp only [List.map_map, List.mem_map]
    exact ⟨s, hs, rfl⟩
  least E hclosed hstarts := by
    refine ⟨?_, ?_, nofun⟩
    · intro d e he
      cases d with
      | backward => simp [Coupled.ofStarts, state] at he
      | forward =>
        change e ∈ (State.ofSeeds Fact.taint .zero _).edges at he
        rw [State.ofSeeds_eq] at he
        rcases State.mem_edges_recordAll he with hold | hseed
        · simp at hold
        · simp only [List.map_map, List.mem_map] at hseed
          obtain ⟨s, hs, rfl⟩ := hseed
          exact hstarts s hs
    · intro d e he
      cases d with
      | backward => cases he
      | forward =>
        change e ∈ (State.ofSeeds Fact.taint .zero _).inbox at he
        rw [State.ofSeeds_eq, (State.grows_recordAll _).inbox] at he
        cases he

/-- No question takes a finding out of the log. -/
theorem closed_log (hstop : x.settings.stopAfterFirstFlow = false) (sent : StmtId × Fact → Prop)
    (R : Set (Edge Fact Taint)) (log : List Finding) :
    (x.ledger hstop d sent).Closed R Set.univ {w | ∀ r ∈ log, r ∈ w.findings.log} := by
  intro q f l w out w' _ hw hask
  obtain ⟨-, -, rfl⟩ := Setup.ensures_reply hstop q _ _ hask
  exact ⟨fun r hr => List.mem_append_left _ (hw r hr), fun _ _ _ _ => trivial⟩

section

variable {hstop : x.settings.stopAfterFirstFlow = false} {R : Set (Edge Fact Taint)}
  {s : State Fact Taint} {w : World}

/-- The side that worked keeps its invariant: what it handed over is in the inbox over there now. -/
theorem standing_advanced
    (h : Stepped (x.ledger hstop d (c.Sent d)) R (c.state d) { findings := c.findings } s w) :
    Standing (x.ledger hstop d ((c.advanced d s w).Sent d)) R ((c.advanced d s w).state d)
      { findings := (c.advanced d s w).findings } := by
  rw [state_advanced, findings_advanced]
  refine Standing.transfer h.standing rfl ?_
  intro q f out hout
  refine hout.mono ?_ fun _ hr => hr
  intro p hsent
  right
  unfold Sent
  rw [state_opposite_advanced]
  -- it was handed over in this step, or it is waiting there, or it has been recorded there
  rcases hsent with houtbox | hinbox | hholds
  · exact Or.inl (List.mem_append_right _ (List.mem_map_of_mem houtbox))
  · exact Or.inl (List.mem_append_left _ hinbox)
  · exact Or.inr hholds

/-- So does the other side: what it had sent was received in this step. -/
theorem standing_opposite_advanced {R' : Set (Edge Fact Taint)}
    (hother : Standing (x.ledger hstop d.opposite (c.Sent d.opposite)) R' (c.state d.opposite)
      { findings := c.findings })
    (h : Stepped (x.ledger hstop d (c.Sent d)) R (c.state d) { findings := c.findings } s w) :
    Standing (x.ledger hstop d.opposite ((c.advanced d s w).Sent d.opposite)) R'
      ((c.advanced d s w).state d.opposite) { findings := (c.advanced d s w).findings } := by
  have hlog : ∀ r ∈ c.findings.log, r ∈ w.findings.log :=
    h.valid.world _ _ (closed_log hstop _ _ _) (fun _ _ => trivial) fun _ hr => hr
  rw [state_opposite_advanced, findings_advanced]
  refine Standing.transfer (hother.inject _) rfl ?_
  intro q f out hout
  refine hout.mono ?_ hlog
  intro p hsent
  right
  unfold Sent at hsent ⊢
  rw [Direction.opposite_opposite] at hsent ⊢
  rw [state_advanced]
  rcases hsent with houtbox | hinbox | hholds
  · -- between steps the outbox is empty
    cases houtbox
  · exact Or.inr (h.received _ hinbox)
  · exact Or.inr (h.holds hholds)

/-- A closed extent that contains the run before a step contains it after the step. -/
theorem contains_advanced {E : Extent} (hcontains : E.Contains c)
    (hclosed : (x.ledger hstop d (c.Sent d)).Closed R (E.edges d) (E.worlds d))
    (h : Stepped (x.ledger hstop d (c.Sent d)) R (c.state d) { findings := c.findings } s w) :
    E.Contains (c.advanced d s w) := by
  have hbase : {e | e ∈ (c.state d).edges ∨ e ∈ (c.state d).inbox} ⊆ E.edges d := by
    rintro e (he | he)
    · exact hcontains.edges d e he
    · exact hcontains.inbox d e he
  have hworld : ({ findings := c.findings } : World) ∈ E.worlds d := ⟨nofun, hcontains.pairs⟩
  obtain ⟨houtbox, hpairs⟩ := h.valid.world _ _ hclosed hbase hworld
  refine ⟨?_, ?_, ?_⟩
  -- the side that stepped grows by what it asked, the other only in its inbox
  · intro d'
    rcases Direction.eq_or_eq_opposite d d' with rfl | rfl
    · rw [state_advanced]
      exact fun e he => h.valid.edges e he _ _ hclosed hbase hworld
    · rw [state_opposite_advanced]
      exact hcontains.edges d.opposite
  · intro d'
    rcases Direction.eq_or_eq_opposite d d' with rfl | rfl
    · rw [state_advanced, h.emptied]
      exact nofun
    · rw [state_opposite_advanced]
      intro e he
      rcases List.mem_append.mp he with he | he
      · exact hcontains.inbox _ e he
      · obtain ⟨p, hp, rfl⟩ := List.mem_map.mp he
        exact houtbox p hp
  · rw [findings_advanced]
    exact hpairs

end

/-- A step of either side keeps both invariants. -/
theorem Consistent.step {hstop : x.settings.stopAfterFirstFlow = false} {starts : List StmtId}
    {R : Direction → Set (Edge Fact Taint)} (hp : x.program.Built)
    (h : Consistent hstop starts R c) {busy : Bool} (hstep : c.step x d = .ok (c', busy)) :
    ∃ R', Consistent hstop starts R' c' := by
  obtain ⟨s, w, hrun, rfl⟩ := step_eq_ok hstep
  obtain ⟨Rd, hRd, hstepped, -⟩ :=
    ensures_step (hp.startsOwned d) (h.standing d) x.settings.batchSize _ _ hrun
  refine ⟨fun d' => if d' = d then Rd else R d', ?_, ?_, ?_⟩
  · intro d'
    rcases Direction.eq_or_eq_opposite d d' with rfl | rfl
    · rw [if_pos rfl]
      exact standing_advanced hstepped
    · rw [if_neg d.opposite_ne]
      exact standing_opposite_advanced (h.standing d.opposite) hstepped
  · intro s' hs'
    cases d with
    | forward => exact hstepped.holds (h.started s' hs')
    | backward => exact h.started s' hs'
  · intro E hclosed hstarts
    -- more edges are let out now, so an extent that is closed now was closed before
    have hcontains : E.Contains c := by
      refine h.least E (fun d' => (hclosed d').anti ?_) hstarts
      split
      · next heq =>
        rw [heq]
        exact hRd
      · exact subset_refl _
    have hclosed_d := hclosed d
    rw [if_pos rfl] at hclosed_d
    exact contains_advanced hcontains hclosed_d hstepped

/-! ## Runs -/

theorem Consistent.round {hstop : x.settings.stopAfterFirstFlow = false} {starts : List StmtId}
    {R : Direction → Set (Edge Fact Taint)} (hp : x.program.Built)
    (h : Consistent hstop starts R c) {busy : Bool} (hround : c.round x = .ok (c', busy)) :
    ∃ R', Consistent hstop starts R' c' := by
  obtain ⟨⟨c₁, busy₁⟩, hforward, hround⟩ := exists_of_bind_eq_ok hround
  obtain ⟨⟨c₂, busy₂⟩, hbackward, hround⟩ := exists_of_bind_eq_ok hround
  cases hround
  obtain ⟨R₁, h₁⟩ := h.step hp hforward
  obtain ⟨R₂, h₂⟩ := h₁.step hp hbackward
  refine ⟨R₂, h₂.standing, h₂.started, ?_⟩
  intro E hclosed hstarts
  have hcontains := h₂.least E hclosed hstarts
  exact ⟨hcontains.edges, hcontains.inbox, hcontains.pairs⟩

theorem Consistent.solve {hstop : x.settings.stopAfterFirstFlow = false} {starts : List StmtId}
    {R : Direction → Set (Edge Fact Taint)} (hp : x.program.Built)
    (h : Consistent hstop starts R c) {fuel : Nat} {completed : Bool}
    (hsolve : Coupled.solve x fuel c = .ok (some (c', completed))) :
    ∃ R', Consistent hstop starts R' c' ∧ (completed = true → c'.isIdle = true) := by
  induction fuel generalizing c R with
  | zero => cases hsolve
  | succ fuel ih =>
    obtain ⟨⟨c₁, busy⟩, hround, hsolve⟩ := exists_of_bind_eq_ok hsolve
    obtain ⟨R₁, h₁⟩ := h.round hp hround
    dsimp only at hsolve
    -- idle, capped, or one round more; only the first counts as completed
    split at hsolve
    · next hidle =>
      cases hsolve
      simp only [Bool.and_eq_true] at hidle
      exact ⟨R₁, h₁, fun _ => hidle.2⟩
    · split at hsolve
      · cases hsolve
        exact ⟨R₁, h₁, nofun⟩
      · exact ih h₁ hsolve

end Coupled

end TaintFlow
