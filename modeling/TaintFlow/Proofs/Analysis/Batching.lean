import TaintFlow.Proofs.Analysis.FixedPoint
import TaintFlow.Proofs.Flow.Bookkeeping

/-!
# What the schedule of a run decides

Batch size and order of work decide when an exit edge is reached. If that is before any call has
entered its method in its context, the edge is let out into every caller; if it is after, the edge
returns to that call alone. Nothing else depends on the schedule: two runs of one analysis agree in
their tables and in the pairs of sink and source that they find if and only if they let out the same
exits.

They need not. `unusedCaller` is a program with two entry methods, one of which calls the other,
where small batches report a flow through a method that nothing calls.
-/

namespace TaintFlow

open Tabulation

/-- The same analysis with another batch size and another order of going through sets. -/
def Setup.reschedule (x : Setup) (batchSize : Nat) (order : Order Fact Taint) : Setup :=
  { x with settings := { x.settings with batchSize }, order }

namespace Coupled

variable {x : Setup} {c c' : Coupled} {d : Direction}

/-- The table of the side `d` has an edge with these taints. -/
def Holds (c : Coupled) (d : Direction) (e : Edge Fact Taint) : Prop :=
  (c.state d).holds e.context e.node e.fact.taint = true

/-- Everything by which the exit edge `e` leaves its method for every caller is there. -/
def LetsOut (x : Setup) (c : Coupled) (d : Direction) (e : Edge Fact Taint) : Prop :=
  ∀ q l, Release (x.problem d) e q l → Absorbs x c d q e.fact l

/-- The tables agree, and so do the pairs of sink and source. -/
structure Agrees (c c' : Coupled) : Prop where
  holds : ∀ d e, c.Holds d e ↔ c'.Holds d e
  findings : ∀ sink source,
    c.findings.containsFlow sink source = c'.findings.containsFlow sink source

/-- The runs let out the same of the exits that both of them reach. -/
def LetsOutAlike (x : Setup) (c c' : Coupled) : Prop :=
  ∀ d e, (x.program.view d).isExit e.node = true → c.Holds d e → c'.Holds d e →
    (LetsOut x c d e ↔ LetsOut x c' d e)

/-! ## Bookkeeping -/

theorem mem_of_map_eq {α β : Type} {F : α → β} {l l' : List α} (h : l.map F = l'.map F) {a : α}
    (ha : a ∈ l) : ∃ a' ∈ l', F a' = F a := by
  have hmem : F a ∈ l'.map F := h ▸ List.mem_map_of_mem ha
  exact List.mem_map.mp hmem

theorem enters_congr (hnative : x.native.IgnoresBookkeeping) {f g : Fact} (h : f.taint = g.taint)
    {call : StmtId} {callee : MethodId} {t : Taint} (hent : x.Enters d call callee f t) :
    x.Enters d call callee g t := by
  obtain ⟨r, hr, rfl⟩ := hent
  obtain ⟨r', hr', htaint⟩ := mem_of_map_eq (Setup.react_alike hnative h d _).facts hr
  exact ⟨r', hr', htaint⟩

/-- Whether a question brings anything new is decided by the taint of its fact. -/
theorem Absorbs.congr (hnative : x.native.IgnoresBookkeeping) {q : Query} {f g : Fact}
    {l : Landing Taint} (h : Absorbs x c d q f l) (htaint : f.taint = g.taint) :
    Absorbs x c d q g l := by
  have halike := Setup.react_alike hnative htaint d q.flowEdge
  have hanswer : (x.answer d q f).map Fact.taint = (x.answer d q g).map Fact.taint := by
    -- a departure has no facts in its answer, and any other query those of its reaction
    cases q with
    | depart method exit => rfl
    | _ => exact halike.facts
  refine ⟨halike.fault ▸ h.fault, ?_, ?_, ?_⟩
  · intro r hr e he
    obtain ⟨r', hr', hkey⟩ := mem_of_map_eq hanswer.symm hr
    obtain ⟨e', he', hcontext, hnode, htaint'⟩ := Landing.edge?_congr hkey he
    rw [← hcontext, ← hnode, ← htaint']
    exact h.facts r' hr' e' he'
  · intro p hp
    obtain ⟨p', hp', heq⟩ := mem_of_map_eq halike.handed.symm hp
    have hholds := h.handed p' hp'
    unfold handedTaint at heq
    rw [Prod.mk.injEq] at heq
    rw [← heq.1, ← heq.2]
    exact hholds
  · intro r hr
    obtain ⟨r', hr', heq⟩ := mem_of_map_eq halike.findings.symm hr
    unfold Finding.unwitnessed at heq
    rw [Finding.mk.injEq] at heq
    rw [← heq.2.1, ← heq.2.2.1]
    exact h.findings r' hr'

/-! ## One run inside the other -/

/-- The edges in the tables and the pairs in the log, whatever their bookkeeping. -/
def extent (c : Coupled) : Extent where
  edges d := {e | c.Holds d e}
  pairs := {r | c.findings.containsFlow r.1 r.2 = true}

theorem Holds.exists_edge {e : Edge Fact Taint} (h : c.Holds d e)
    (hcoherent : (c.state d).Coherent Fact.taint) :
    ∃ g : Fact, (⟨e.context, e.node, g⟩ : Edge Fact Taint) ∈ (c.state d).edges ∧
      g.taint = e.fact.taint := by
  obtain ⟨⟨context, node, g⟩, hg, hcontext, hnode, htaint⟩ := (hcoherent.holds_iff _ _ _).mp h
  dsimp only at hcontext hnode
  subst hcontext hnode
  exact ⟨g, hg, htaint⟩

/-- A finished run absorbs what is owed to its tables, up to bookkeeping, and what is owed to exits
that it lets out. -/
theorem absorbs_of_owed (hnative : x.native.IgnoresBookkeeping)
    (hfixed : ∀ d q f l, Owes x c d q f l → Absorbs x c d q f l)
    (hcoherent : ∀ d, (c.state d).Coherent Fact.taint) {R : Set (Edge Fact Taint)}
    (hR : ∀ e ∈ R, (x.program.view d).isExit e.node = true → c.Holds d e → LetsOut x c d e)
    {enters : StmtId → MethodId → Fact → Taint → Prop}
    (henters : ∀ call callee f t, enters call callee f t →
      ∃ g, g.taint = f.taint ∧ x.Enters d call callee g t)
    {q : Query} {f : Fact} {l : Landing Taint}
    (howed : Owed (x.problem d) enters (.full (c.extent.edges d) R) q f l) :
    Absorbs x c d q f l := by
  -- held edges are recorded ones up to bookkeeping, which no answer depends on
  cases howed with
  | normal he hcall hsucc =>
    obtain ⟨g, hg, htaint⟩ := Holds.exists_edge he (hcoherent d)
    exact (hfixed d _ _ _ (.normal hg hcall hsucc)).congr hnative htaint
  | bypass he hcall hsite =>
    obtain ⟨g, hg, htaint⟩ := Holds.exists_edge he (hcoherent d)
    exact (hfixed d _ _ _ (.bypass hg hcall hsite)).congr hnative htaint
  | call he hcall hm =>
    obtain ⟨g, hg, htaint⟩ := Holds.exists_edge he (hcoherent d)
    exact (hfixed d _ _ _ (.call hg hcall hm)).congr hnative htaint
  | enter he hcall hm hstart =>
    obtain ⟨g, hg, htaint⟩ := Holds.exists_edge he (hcoherent d)
    exact (hfixed d _ _ _ (.enter hg hcall hm hstart)).congr hnative htaint
  | @leave e out start site he hcall hm hstart hent hout hexit hsite =>
    obtain ⟨g, hg, htaint⟩ := Holds.exists_edge he (hcoherent d)
    obtain ⟨g', hg', htaint'⟩ := Holds.exists_edge hout (hcoherent d)
    obtain ⟨f', hf', hent'⟩ := henters _ _ _ _ hent
    -- the fact kept at the call enters with the same contexts as the one that was asked about
    have hent'' := enters_congr hnative (hf'.trans htaint.symm) hent'
    have howes : Owes x c d (.leave e.node ((x.program.view d).ownerOf out.node) out.node site) g'
        (.within e.context site) :=
      Owed.leave (c := ⟨e.context, e.node, g⟩) (x := ⟨out.context, out.node, g'⟩) hg hcall hm hstart
        hent'' hg' hexit hsite
    exact (hfixed d _ _ _ howes).congr hnative htaint'
  | release _ he hexit hrel => exact hR _ he.2 hexit he.1 _ _ hrel

/-- An exit edge that no call claims has been let out. -/
theorem IsFixedPoint.letsOut (h : IsFixedPoint x c) (hnative : x.native.IgnoresBookkeeping)
    {e : Edge Fact Taint} (hheld : c.Holds d e) (hexit : (x.program.view d).isExit e.node = true)
    (hunclaimed : ∀ call ∈ (c.state d).edges, ¬ Claims x d call e) : LetsOut x c d e := by
  obtain ⟨g, hg, htaint⟩ := hheld.exists_edge (h.coherent d)
  have horphan : (⟨e.context, e.node, g⟩ : Edge Fact Taint) ∈ orphans x c d :=
    ⟨hg, hexit, hunclaimed⟩
  intro q l hrel
  have howes : Owes x c d q g l := by
    refine Owed.release (x := ⟨e.context, e.node, g⟩) rfl horphan hexit ?_
    cases hrel with
    | toCaller hcaller hsite => exact .toCaller (P := x.problem d) hcaller hsite
    | departure hnone => exact .departure (P := x.problem d) hnone
  exact (h.absorbs d q g l howes).congr hnative htaint

/-- The same is owed under every schedule. -/
theorem owed_of_reschedule (x : Setup) (batchSize : Nat) (order : Order Fact Taint)
    {enters : StmtId → MethodId → Fact → Taint → Prop} {g : Progress Fact Taint} {q : Query}
    {f : Fact} {l : Landing Taint}
    (h : Owed ((x.reschedule batchSize order).problem d) enters g q f l) :
    Owed (x.problem d) enters g q f l := by
  cases h with
  | normal he hcall hsucc => exact .normal he hcall hsucc
  | bypass he hcall hsite => exact .bypass he hcall hsite
  | call he hcall hm => exact .call he hcall hm
  | enter he hcall hm hstart => exact .enter he hcall hm hstart
  | leave hc hcall hm hstart hent hx hexit hsite =>
    exact .leave hc hcall hm hstart hent hx hexit hsite
  | release hun he hexit hrel =>
    refine .release hun he hexit ?_
    cases hrel with
    | toCaller hcall hsite => exact .toCaller (P := x.problem d) hcall hsite
    | departure hnone => exact .departure hnone

theorem owed_reschedule (x : Setup) (batchSize : Nat) (order : Order Fact Taint)
    {enters : StmtId → MethodId → Fact → Taint → Prop} {g : Progress Fact Taint} {q : Query}
    {f : Fact} {l : Landing Taint} (h : Owed (x.problem d) enters g q f l) :
    Owed ((x.reschedule batchSize order).problem d) enters g q f l :=
  -- going back to the schedule of `x` is rescheduling too
  owed_of_reschedule (x.reschedule batchSize order) x.settings.batchSize x.order h

theorem absorbs_of_reschedule {batchSize : Nat} {order : Order Fact Taint} {q : Query} {f : Fact}
    {l : Landing Taint} (h : Absorbs (x.reschedule batchSize order) c d q f l) :
    Absorbs x c d q f l :=
  ⟨h.fault, h.facts, h.handed, h.findings⟩

/-- The run from `starts` comes to an end with `c` under some schedule. -/
def Finishes (x : Setup) (starts : List StmtId) (c : Coupled) : Prop :=
  ∃ batchSize order fuel,
    Coupled.solve (x.reschedule batchSize order) fuel (.ofStarts starts) = .ok (some (c, true))

/-- What is known of a run that has come to an end, with the schedule forgotten but for the exits
that were let out. -/
structure Settles (x : Setup) (starts : List StmtId) (R : Direction → Set (Edge Fact Taint))
    (c : Coupled) : Prop where
  fixed : IsFixedPoint x c
  started : ∀ s ∈ starts, c.Holds .forward ⟨.zero, s, .zero⟩
  held : ∀ d, ∀ e ∈ R d, c.Holds d e
  letsOut : ∀ d, ∀ e ∈ R d, (x.program.view d).isExit e.node = true → LetsOut x c d e
  inside : ∀ E : Extent, (∀ d q f l, Owed (x.problem d) (x.EntersAlike d)
      (.full (E.edges d) (R d)) q f l → E.TakesIn x d q f l) →
    (∀ s ∈ starts, (⟨.zero, s, .zero⟩ : Edge Fact Taint) ∈ E.edges .forward) → E.Contains c
  least : ∀ c' : Coupled, IsFixedPoint x c' → (∀ s ∈ starts, c'.Holds .forward ⟨.zero, s, .zero⟩) →
    (∀ d, ∀ e ∈ R d, (x.program.view d).isExit e.node = true → c'.Holds d e → LetsOut x c' d e) →
    c'.extent.Contains c

theorem Absorbs.takesIn {q : Query} {f : Fact} {l : Landing Taint} (h : Absorbs x c d q f l) :
    c.extent.TakesIn x d q f l :=
  ⟨h.facts, h.handed, h.findings⟩

theorem Finishes.settles {starts : List StmtId} (hp : x.program.Built)
    (hnative : x.native.IgnoresBookkeeping) (hstop : x.settings.stopAfterFirstFlow = false)
    (h : Finishes x starts c) : ∃ R, Settles x starts R c := by
  obtain ⟨batchSize, order, fuel, hsolve⟩ := h
  have hp' : (x.reschedule batchSize order).program.Built := hp
  have hstop' : (x.reschedule batchSize order).settings.stopAfterFirstFlow = false := hstop
  obtain ⟨R, hcons, hdone⟩ := (Consistent.ofStarts hstop' starts).solve hp' hsolve
  have hidle := hdone rfl
  have hfixed := hcons.isFixedPoint hp' hidle
  -- what is owed does not depend on the schedule, so neither do the closed extents
  have hinside : ∀ E : Extent, (∀ d q f l, Owed (x.problem d) (x.EntersAlike d)
      (.full (E.edges d) (R d)) q f l → E.TakesIn x d q f l) →
      (∀ s ∈ starts, (⟨.zero, s, .zero⟩ : Edge Fact Taint) ∈ E.edges .forward) →
      E.Contains c := by
    intro E htakes hstarted
    refine hcons.least E (Extent.closed_of_takesIn ?_) hstarted
    intro d q f l howed _
    obtain ⟨hfacts, hhanded, hfindings⟩ :=
      htakes d q f l (owed_of_reschedule x batchSize order howed)
    exact ⟨hfacts, hhanded, hfindings⟩
  refine ⟨R, ⟨hfixed.coherent, ?_⟩, hcons.started, ?_, ?_, hinside, ?_⟩
  · intro d q f l howes
    apply absorbs_of_reschedule
    exact hfixed.absorbs d q f l (owed_reschedule x batchSize order howes)
  · intro d e he
    exact (hfixed.coherent d).holds_of_mem ((hcons.standing d).invariant.released e he)
  · intro d e he hexit q l hrel
    apply absorbs_of_reschedule
    apply hcons.absorbs hidle
    exact owed_reschedule x batchSize order (.release rfl he hexit hrel)
  · -- the tables of `c'` are a closed extent, up to bookkeeping
    intro c' hfixed' hstarted' hletsOut'
    refine hinside c'.extent ?_ hstarted'
    intro d q f l howed
    exact (absorbs_of_owed hnative hfixed'.absorbs hfixed'.coherent (hletsOut' d)
      (fun _ _ _ _ hent => hent) howed).takesIn

theorem exists_of_containsFlow {fs : Findings} {sink source : StmtId}
    (h : fs.containsFlow sink source = true) : ∃ r ∈ fs.log, r.sink = sink ∧ r.source = source := by
  unfold Findings.containsFlow at h
  rw [List.any_eq_true] at h
  obtain ⟨r, hr, heq⟩ := h
  simp only [Bool.and_eq_true, beq_iff_eq] at heq
  exact ⟨r, hr, heq⟩

/-- A run is inside another if the other lets out what it lets out. -/
theorem Settles.covered {starts : List StmtId} {R R' : Direction → Set (Edge Fact Taint)}
    (h : Settles x starts R c) (h' : Settles x starts R' c')
    (hout : ∀ d e, (x.program.view d).isExit e.node = true → c.Holds d e → c'.Holds d e →
      LetsOut x c d e → LetsOut x c' d e) :
    (∀ d e, c.Holds d e → c'.Holds d e) ∧ ∀ sink source,
      c.findings.containsFlow sink source = true → c'.findings.containsFlow sink source = true := by
  -- only exits let out could take the first run beyond the second
  have hcontains : c'.extent.Contains c := by
    apply h.least c' h'.fixed h'.started
    intro d e he hexit hholds
    exact hout d e hexit (h.held d e he) hholds (h.letsOut d e he hexit)
  constructor
  · intro d e hholds
    obtain ⟨g, hg, htaint⟩ := hholds.exists_edge (h.fixed.coherent d)
    have hheld : c'.Holds d ⟨e.context, e.node, g⟩ := hcontains.edges d _ hg
    unfold Holds at hheld ⊢
    rw [← htaint]
    exact hheld
  · intro sink source hflow
    obtain ⟨r, hr, rfl, rfl⟩ := exists_of_containsFlow hflow
    exact hcontains.pairs r hr

/-- What a run lets out can be read off its tables and its pairs. -/
theorem Agrees.letsOut (h : Agrees c c') {e : Edge Fact Taint} (hout : LetsOut x c d e) :
    LetsOut x c' d e := by
  intro q l hrel
  have habsorbs := hout q l hrel
  refine ⟨habsorbs.fault, ?_, ?_, ?_⟩
  · intro g hg e he
    exact (h.holds d e).mp (habsorbs.facts g hg e he)
  · intro p hp
    exact (h.holds d.opposite (selfLoop p.1 p.2)).mp (habsorbs.handed p hp)
  · intro r hr
    rw [← h.findings]
    exact habsorbs.findings r hr

theorem Agrees.symm (h : Agrees c c') : Agrees c' c :=
  ⟨fun d e => (h.holds d e).symm, fun sink source => (h.findings sink source).symm⟩

theorem Settles.agrees_iff {starts : List StmtId} {R R' : Direction → Set (Edge Fact Taint)}
    (h : Settles x starts R c) (h' : Settles x starts R' c') :
    Agrees c c' ↔ LetsOutAlike x c c' := by
  constructor
  · intro hagrees d e _ _ _
    exact ⟨hagrees.letsOut, hagrees.symm.letsOut⟩
  · intro halike
    obtain ⟨hholds, hflows⟩ := h.covered h' fun d e hexit he he' => (halike d e hexit he he').mp
    obtain ⟨hholds', hflows'⟩ :=
      h'.covered h fun d e hexit he' he => (halike d e hexit he he').mpr
    refine ⟨fun d e => ⟨hholds d e, hholds' d e⟩, ?_⟩
    intro sink source
    exact Bool.eq_iff_iff.mpr ⟨hflows sink source, hflows' sink source⟩

/-! ## Whole analyses -/

/-- Without a cap a run that is over has ended by itself. -/
theorem completed_of_solve (hmax : x.settings.maxPropagations = 0) {fuel : Nat} {completed : Bool}
    (h : Coupled.solve x fuel c = .ok (some (c', completed))) : completed = true := by
  induction fuel generalizing c with
  | zero => cases h
  | succ fuel ih =>
    obtain ⟨⟨c₁, busy⟩, -, h⟩ := exists_of_bind_eq_ok h
    dsimp only at h
    split at h
    · cases h
      rfl
    · split at h
      -- without a cap no run is capped
      · next hcapped =>
        unfold isCapped at hcapped
        rw [hmax] at hcapped
        cases hcapped
      · exact ih h

end Coupled

theorem Setup.entryPoints_of_check {x : Setup} {entries : List MethodId} {starts : List StmtId}
    (h : x.check entries = .ok starts) : x.entryPoints entries = .ok starts := by
  unfold check at h
  cases hvalid : x.settings.validate with
  | error reason =>
    rw [hvalid] at h
    cases h
  | ok u =>
    rw [hvalid] at h
    obtain ⟨-, -, h⟩ := exists_of_bind_eq_ok h
    exact h

/-- An analysis runs from the start points of its entry methods. -/
theorem Setup.solve_of_analyze {x : Setup} {entries : List MethodId} {fuel : Nat} {out : Outcome}
    (h : x.analyze entries fuel = .ok out) : ∃ starts, x.entryPoints entries = .ok starts ∧
      Coupled.solve x fuel (.ofStarts starts) = .ok (some (out.final, out.completed)) := by
  unfold analyze at h
  split at h
  · cases h
  · next starts hcheck =>
    refine ⟨starts, ?_, ?_⟩
    · exact entryPoints_of_check hcheck
    · unfold runFrom Coupled.outcome at h
      split at h
      · cases h
      · cases h
      · next hsolve =>
        cases h
        exact hsolve

/-- The schedule has no part in where a run starts. -/
theorem Setup.finishes_of_analyze {x : Setup} (hmax : x.settings.maxPropagations = 0)
    {batchSize : Nat} {order : Order Fact Taint} {entries : List MethodId} {fuel : Nat}
    {out : Outcome} (h : (x.reschedule batchSize order).analyze entries fuel = .ok out) :
    ∃ starts, x.entryPoints entries = .ok starts ∧ Coupled.Finishes x starts out.final := by
  have hmax' : (x.reschedule batchSize order).settings.maxPropagations = 0 := hmax
  obtain ⟨starts, hstarts, hsolve⟩ := solve_of_analyze h
  rw [Coupled.completed_of_solve hmax' hsolve] at hsolve
  exact ⟨starts, hstarts, batchSize, order, fuel, hsolve⟩

theorem Setup.exists_settles {x : Setup} (hp : x.program.Built)
    (hnative : x.native.IgnoresBookkeeping) (hstop : x.settings.stopAfterFirstFlow = false)
    (hmax : x.settings.maxPropagations = 0) {entries : List MethodId} {fuel : Nat} {out : Outcome}
    (h : x.analyze entries fuel = .ok out) : ∃ starts R, x.entryPoints entries = .ok starts ∧
      Coupled.Settles x starts R out.final := by
  have hrun : (x.reschedule x.settings.batchSize x.order).analyze entries fuel = .ok out := h
  obtain ⟨starts, hstarts, hfinishes⟩ := finishes_of_analyze hmax hrun
  obtain ⟨R, hsettles⟩ := hfinishes.settles hp hnative hstop
  exact ⟨starts, R, hstarts, hsettles⟩

/-- Two runs of one analysis that differ in their schedule agree in their tables and in the pairs of
sink and source that they find if and only if they let out the same exits. -/
theorem analyze_agrees_iff {x : Setup} (hp : x.program.Built)
    (hnative : x.native.IgnoresBookkeeping) (hstop : x.settings.stopAfterFirstFlow = false)
    (hmax : x.settings.maxPropagations = 0) {batchSize batchSize' : Nat}
    {order order' : Order Fact Taint} {entries : List MethodId} {fuel fuel' : Nat}
    {out out' : Outcome} (hrun : (x.reschedule batchSize order).analyze entries fuel = .ok out)
    (hrun' : (x.reschedule batchSize' order').analyze entries fuel' = .ok out') :
    Coupled.Agrees out.final out'.final ↔ Coupled.LetsOutAlike x out.final out'.final := by
  obtain ⟨starts, hstarts, hfinishes⟩ := Setup.finishes_of_analyze hmax hrun
  obtain ⟨starts', hstarts', hfinishes'⟩ := Setup.finishes_of_analyze hmax hrun'
  have hsame : starts = starts' := by
    rw [hstarts] at hstarts'
    cases hstarts'
    rfl
  subst hsame
  obtain ⟨R, hsettles⟩ := hfinishes.settles hp hnative hstop
  obtain ⟨R', hsettles'⟩ := hfinishes'.settles hp hnative hstop
  exact hsettles.agrees_iff hsettles'

/-- From the same entry methods `x` finds a flow, and `y` misses the one that corresponds to it. -/
def Setup.FindsBeyond (x y : Setup) (entries : List MethodId) (fuel : Nat)
    (sink source sink' source' : StmtId) : Prop :=
  ∃ out out', x.analyze entries fuel = .ok out ∧ y.analyze entries fuel = .ok out' ∧
    out.final.findings.containsFlow sink source = true ∧
    out'.final.findings.containsFlow sink' source' = false

theorem Setup.findsBeyond_of_runs {x y : Setup} {entries : List MethodId} {fuel : Nat}
    {sink source sink' source' : StmtId}
    (hfound : (x.analyze entries fuel).toOption.any
      (fun out => out.final.findings.containsFlow sink source) = true)
    (hmissed : (y.analyze entries fuel).toOption.any
      (fun out => !out.final.findings.containsFlow sink' source') = true) :
    x.FindsBeyond y entries fuel sink source sink' source' := by
  obtain ⟨out, hout, hflow⟩ := exists_of_any_toOption hfound
  obtain ⟨out', hout', hflow'⟩ := exists_of_any_toOption hmissed
  rw [Bool.not_eq_true'] at hflow'
  exact ⟨out, out', hout, hout', hflow, hflow'⟩

/-! `fetch` and `main` are both entry methods, and `main` calls `fetch` after a while. Nothing calls
`unused`, which sends what it gets from `fetch`. -/

def unusedCaller : List Description :=
  let text (m : Nat) (name : String) : Value := .local ⟨⟨m⟩, name, .string⟩
  let fetch : Value := .invoke none ⟨"A", "String", "fetch", []⟩ []
  [.method "<A: String fetch()>" true false, .method "<A: void main()>" true false,
    .method "<A: void unused()>" true false,
    .statement ⟨0⟩ (.assign (text 0 "x") (.invoke none ⟨"Sec", "String", "get", []⟩ [])),
    .statement ⟨0⟩ .nop, .statement ⟨0⟩ (.return (text 0 "x")),
    .statement ⟨1⟩ .nop, .statement ⟨1⟩ (.invoke ⟨none, ⟨"Lib", "void", "tick", []⟩, []⟩),
    .statement ⟨1⟩ (.assign (text 1 "y") fetch), .statement ⟨1⟩ (.return none),
    .statement ⟨2⟩ (.assign (text 2 "z") fetch),
    .statement ⟨2⟩ (.invoke ⟨none, ⟨"Net", "void", "send", ["String"]⟩, [text 2 "z"]⟩),
    .statement ⟨2⟩ (.return none)]

def unusedCallerSetup : Setup where
  program := (Program.ofDescription unusedCaller).toOption.getD ⟨#[], #[], #[], #[], #[], #[]⟩
  classifier := MethodLists.classifier
    { sources := [⟨"Sec", "String", "get", []⟩], sinks := [⟨"Net", "void", "send", ["String"]⟩] }

theorem built_unusedCallerSetup : unusedCallerSetup.program.Built := ⟨unusedCaller, rfl⟩

/-- With batches of one edge `fetch` is left before `main` has called it, and a flow is found in
`unused`. With batches of three edges it is not. -/
theorem analyze_unusedCaller : ∃ out out',
    (unusedCallerSetup.reschedule 1 {}).analyze [⟨0⟩, ⟨1⟩] 60 = .ok out ∧
    (unusedCallerSetup.reschedule 3 {}).analyze [⟨0⟩, ⟨1⟩] 60 = .ok out' ∧
    out.final.findings.containsFlow ⟨8⟩ ⟨0⟩ ≠ out'.final.findings.containsFlow ⟨8⟩ ⟨0⟩ := by
  have hbeyond : (unusedCallerSetup.reschedule 1 {}).FindsBeyond (unusedCallerSetup.reschedule 3 {})
      [⟨0⟩, ⟨1⟩] 60 ⟨8⟩ ⟨0⟩ ⟨8⟩ ⟨0⟩ :=
    Setup.findsBeyond_of_runs (by decide +kernel) (by decide +kernel)
  obtain ⟨out, out', hout, hout', hflow, hflow'⟩ := hbeyond
  refine ⟨out, out', hout, hout', ?_⟩
  rw [hflow, hflow']
  exact nofun

/-- Some exit of that program is let out in one of the two runs only. -/
theorem analyze_agrees_iff_unusedCaller : ∃ out out',
    (unusedCallerSetup.reschedule 1 {}).analyze [⟨0⟩, ⟨1⟩] 60 = .ok out ∧
    (unusedCallerSetup.reschedule 3 {}).analyze [⟨0⟩, ⟨1⟩] 60 = .ok out' ∧
    ¬ Coupled.LetsOutAlike unusedCallerSetup out.final out'.final := by
  obtain ⟨out, out', hout, hout', hflow⟩ := analyze_unusedCaller
  refine ⟨out, out', hout, hout', ?_⟩
  intro halike
  have hagrees := (analyze_agrees_iff built_unusedCallerSetup
    NativeModel.conservative_ignoresBookkeeping rfl rfl hout hout').mpr halike
  exact hflow (hagrees.findings ⟨8⟩ ⟨0⟩)

/-- Batch size alone can change what is found. -/
theorem batchSize_changes_findings : ¬ ∀ (x : Setup) (m n : Nat) (entries : List MethodId)
    (fuel : Nat) (out out' : Outcome), x.program.Built → x.settings.stopAfterFirstFlow = false →
    x.settings.maxPropagations = 0 → (x.reschedule m {}).analyze entries fuel = .ok out →
    (x.reschedule n {}).analyze entries fuel = .ok out' → ∀ sink source,
      out.final.findings.containsFlow sink source =
        out'.final.findings.containsFlow sink source := by
  intro hclaim
  obtain ⟨out, out', hout, hout', hflow⟩ := analyze_unusedCaller
  exact hflow
    (hclaim unusedCallerSetup 1 3 _ 60 out out' built_unusedCallerSetup rfl rfl hout hout' _ _)

end TaintFlow
