import TaintFlow.Proofs.Analysis.FixedPoint
import TaintFlow.Proofs.Flow.Derivation
import TaintFlow.Proofs.Program.Mentions
import TaintFlow.Proofs.Tabulation.Region

/-!
# Where a coupled run can get

An extent bounds a run if whatever either side may be asked stays inside: the facts in its own part,
what is handed over in the part of the other side, and the findings among the pairs. A run that
starts inside stays inside, whether or not it is told to stop after the first finding.

Every round that goes on works off a path edge. So a run that is confined to finitely many path
edges ends by itself, after no more rounds than there are path edges, unless a fault stops it
(`Extent.Bounds.exists_solve`).
-/

namespace TaintFlow

open Tabulation

/-! ## Answers -/

namespace Setup

variable {x : Setup} {d : Direction} {f : Fact} {w : World}

theorem reply_forward (x : Setup) (q : Query) (f : Fact) :
    x.reply .forward q f = Forward.react x q.flowEdge f := rfl

theorem reply_backward (x : Setup) (q : Query) (f : Fact) :
    x.reply .backward q f = Backward.react x q.flowEdge f := rfl

/-- A halted analysis faults only where a running one does. -/
theorem react_halted (x : Setup) (d : Direction) (edge : FlowEdge) (f : Fact) :
    (x.react d true edge f).facts = [] ∧ (x.react d true edge f).handed = [] ∧
    (x.react d true edge f).findings = [] ∧
    ∀ e ∈ (x.react d true edge f).fault, e ∈ (x.react d false edge f).fault := by
  unfold react
  simp only [if_true]
  -- only entering looks something up before it asks whether to go on
  cases edge with
  | enter call callee =>
    cases hmethod : x.program.method? callee with
    | none =>
      refine ⟨by simp [withMethod, hmethod, Reaction.fail],
        by simp [withMethod, hmethod, Reaction.fail],
        by simp [withMethod, hmethod, Reaction.fail], ?_⟩
      intro e he
      cases d <;> simpa [withMethod, hmethod, Forward.react, Forward.enter, Backward.react,
        Backward.enter] using he
    | some method => simp [withMethod, hmethod]
  | _ =>
    refine ⟨rfl, rfl, rfl, ?_⟩
    intro e he
    cases he

/-- A question is answered by its reply or, once a finding was enough, by nothing. -/
theorem safe_ask {faults : Fault → Prop} (q : Query)
    (hfault : ∀ e ∈ (x.reply d q f).fault, faults e) :
    Run.Safe faults ((x.problem d).ask q f) w fun out w' =>
      (out.Perm (x.answer d q f) ∧ w' = w.absorb (x.reply d q f)) ∨ (out = [] ∧ w' = w) := by
  have hrun : Run.Safe faults (x.run d q.flowEdge f) w fun out w' =>
      (out.Perm (x.reply d q f).facts ∧ w' = w.absorb (x.reply d q f)) ∨
        (out = [] ∧ w' = w) := by
    -- halted or not, the run is one reaction; the halted one leaves the world as it is
    obtain ⟨hfacts, hhanded, hfindings, hhalted⟩ := react_halted x d q.flowEdge f
    have hnothing : w.absorb (x.react d true q.flowEdge f) = w := by
      unfold World.absorb Findings.recordAll
      rw [hhanded, hfindings, List.append_nil, List.append_nil]
    refine ⟨?_, ?_⟩
    · intro out w' hok
      change x.run d q.flowEdge f w = .ok (out, w') at hok
      unfold Setup.run at hok
      dsimp only at hok
      split at hok
      · cases hok
      · cases hok
        cases x.isHalted w.findings with
        | false => exact Or.inl ⟨x.results.perm _ _, rfl⟩
        | true => exact Or.inr ⟨by rw [hfacts]; exact x.results.lineUp_nil _, hnothing⟩
    · intro e herror
      change x.run d q.flowEdge f w = .error e at herror
      unfold Setup.run at herror
      dsimp only at herror
      split at herror
      · next fault hfault' =>
        cases herror
        apply hfault
        cases hhalt : x.isHalted w.findings with
        | false =>
          rw [hhalt] at hfault'
          exact hfault'
        | true =>
          rw [hhalt] at hfault'
          exact hhalted e hfault'
      · cases herror
  -- a departure throws its facts away, so what is known about them is not needed
  cases q with
  | depart method exit =>
    apply Run.safe_bind
    apply Run.safe_bind
    refine hrun.mono ?_
    rintro out w' (⟨-, hw'⟩ | ⟨-, hw'⟩)
    · exact Run.safe_pure (Run.safe_pure (Or.inl ⟨.refl _, hw'⟩))
    · exact Run.safe_pure (Run.safe_pure (Or.inr ⟨rfl, hw'⟩))
  | _ => exact hrun

end Setup

/-! ## Extents that bound a run -/

namespace Extent

/-- The part of the extent on one side. -/
def region (E : Extent) (faults : Fault → Prop) (d : Direction) : Region Fact Taint World where
  edges := E.edges d
  worlds := E.worlds d
  faults := faults

/-- What the side `d` may be asked about the path edges of the extent. -/
def Owes (E : Extent) (x : Setup) (d : Direction) (q : Query) (f : Fact) (l : Landing Taint) :
    Prop :=
  Owed (x.problem d) (fun _ _ _ _ => True) (.full (E.edges d) (E.edges d)) q f l

/-- Whatever either side may be asked stays inside, and nothing but the given faults occurs. -/
structure Bounds (E : Extent) (x : Setup) (faults : Fault → Prop) : Prop where
  facts : ∀ {d q f l}, E.Owes x d q f l → ∀ g ∈ x.answer d q f, ∀ e ∈ l.edge? Fact.taint g,
    e ∈ E.edges d
  handed : ∀ {d q f l}, E.Owes x d q f l → ∀ h ∈ (x.reply d q f).handed,
    selfLoop h.1 h.2 ∈ E.edges d.opposite
  findings : ∀ {d q f l}, E.Owes x d q f l → ∀ r ∈ (x.reply d q f).findings,
    (r.sink, r.source) ∈ E.pairs
  fault : ∀ {d q f l}, E.Owes x d q f l → ∀ e ∈ (x.reply d q f).fault, faults e
  ranged : ∀ d, ∀ e ∈ E.edges d, x.program.Has e.node ∨ faults (.unknownStatement e.node)

variable {E : Extent} {x : Setup} {faults : Fault → Prop}

theorem Bounds.closed (h : E.Bounds x faults) (d : Direction) :
    (E.region faults d).Closed (x.problem d) where
  ask := by
    intro q f l w howes hw
    refine (Setup.safe_ask q (h.fault howes)).mono ?_
    rintro out w' (⟨hout, rfl⟩ | ⟨rfl, rfl⟩)
    · refine ⟨⟨?_, ?_⟩, fun g hg => h.facts howes g (hout.mem_iff.mp hg)⟩
      · intro p hp
        exact (List.mem_append.mp hp).elim (hw.1 p) (h.handed howes p)
      · intro r hr
        exact (List.mem_append.mp hr).elim (hw.2 r) (h.findings howes r)
    · exact ⟨hw, nofun⟩
  enters := by
    intro call callee f w _ _ out w' _ g _
    exact trivial
  ranged e he := by
    refine (h.ranged d e he).imp_left ?_
    cases d <;> exact id

end Extent

/-! ## Taints everywhere -/

/-- Path edges at statements of the program, with a property of taints for contexts and facts. -/
def Program.edgesWith (p : Program) (Q : Taint → Prop) : Extent where
  edges _ := {e | p.Has e.node ∧ Q e.context ∧ Q e.fact.taint}
  pairs := Set.univ

/-- What is asked about such edges is asked about a fact with the property, and lands at a statement
of the program in a context with the property. -/
theorem Program.lands_of_owed {x : Setup} (hp : x.program.Built) {Q : Taint → Prop}
    (hzero : Q .zero)
    {enters : StmtId → MethodId → Fact → Taint → Prop} {R : Set (Edge Fact Taint)} {d : Direction}
    {q : Query} {f : Fact} {l : Landing Taint}
    (howed : Owed (x.problem d) enters (.full ((x.program.edgesWith Q).edges d) R) q f l) :
    Q f.taint ∧ ∀ g : Fact, Q g.taint → ∀ e ∈ l.edge? Fact.taint g,
      e ∈ (x.program.edgesWith Q).edges d :=
  edgesAt_of_owed hp rfl hzero howed

namespace Extent

variable {E : Extent} {x : Setup} {faults : Fault → Prop}

/-! ## Faults -/

section

variable {d : Direction} {q : Query} {f : Fact} {l : Landing Taint}

/-- Where the path edges of an extent are at statements of a built program, nothing is looked up in
vain. -/
theorem Owes.found (h : E.Owes x d q f l) (hp : x.program.Built)
    (hknown : ∀ e ∈ E.edges d, x.program.Has e.node) {fault : Fault}
    (hlooks : q.flowEdge.LooksUp fault) : ¬ x.program.Lacks fault := by
  have hstmt : ∀ s, x.program.Has s → ¬ x.program.Lacks (.unknownStatement s) := by
    intro s hs hlacks
    obtain ⟨stmt, hstmt⟩ := Program.exists_stmt_of_has hs
    exact Option.some_ne_none _ (hstmt.symm.trans hlacks)
  have hmethod : ∀ call m, m ∈ x.program.calleesOf call →
      ¬ x.program.Lacks (.unknownMethod m) := by
    intro call m hm hlacks
    obtain ⟨method, hmethod⟩ := hp.exists_method_of_mem_calleesOf hm
    exact Option.some_ne_none _ (hmethod.symm.trans hlacks)
  have hcallees : (x.problem d).view.calleesOf = x.program.calleesOf := by cases d <;> rfl
  have hcallers : (x.problem d).view.callersOf = x.program.callersOf := by cases d <;> rfl
  -- one case for each reason to ask: what it looks up is an edge of the extent or a call edge
  cases h with
  | normal he _ _ =>
    cases hlooks
    exact hstmt _ (hknown _ he)
  | bypass he _ _ =>
    cases hlooks
    exact hstmt _ (hknown _ he)
  | call he _ hm =>
    rw [hcallees] at hm
    cases hlooks with
    | call => exact hstmt _ (hknown _ he)
    | callee => exact hmethod _ _ hm
  | enter he _ hm _ =>
    rw [hcallees] at hm
    cases hlooks with
    | call => exact hstmt _ (hknown _ he)
    | callee => exact hmethod _ _ hm
  | leave hc _ hm _ _ hx _ _ =>
    rw [hcallees] at hm
    cases hlooks with
    | exit => exact hstmt _ (hknown _ hx)
    | back => exact hstmt _ (hknown _ hc)
    | left => exact hmethod _ _ hm
  | release _ hx _ hrel =>
    cases hrel with
    | toCaller hcall _ =>
      rw [hcallers] at hcall
      cases hlooks with
      | exit => exact hstmt _ (hknown _ hx.1)
      | back => exact hstmt _ (hp.has_of_mem_callersOf hcall)
      | left => exact hmethod _ _ (hp.mem_calleesOf_of_mem_callersOf hcall)
    | departure _ =>
      cases hlooks with
      | exit => exact hstmt _ (hknown _ hx.1)

/-- A callee of a call is entered. -/
theorem Owes.callee_mem (h : E.Owes x d q f l) {call : StmtId} {callee : MethodId}
    (hq : q.flowEdge = .enter call callee) : callee ∈ x.program.calleesOf call := by
  have hcallees : (x.problem d).view.calleesOf = x.program.calleesOf := by cases d <;> rfl
  cases h with
  | call _ _ hm =>
    cases hq
    rwa [hcallees] at hm
  | enter _ _ hm _ =>
    cases hq
    rwa [hcallees] at hm
  | normal | bypass | leave => cases hq
  | release _ _ _ hrel =>
    cases hrel with
    | toCaller => cases hq
    | departure => cases hq

end

/-- Both sides are inside, with their inboxes, and so is the log. -/
structure Confines (E : Extent) (x : Setup) (faults : Fault → Prop) (c : Coupled) : Prop where
  admits : ∀ d, (E.region faults d).Admits (x.problem d) (c.state d)
  pairs : ∀ r ∈ c.findings.log, (r.sink, r.source) ∈ E.pairs

theorem Confines.contains {c : Coupled} (h : E.Confines x faults c) : E.Contains c :=
  ⟨fun d => (h.admits d).confines.edges, fun d => (h.admits d).inbox, h.pairs⟩

theorem confines_ofStarts {starts : List StmtId}
    (h : ∀ s ∈ starts, (⟨.zero, s, .zero⟩ : Edge Fact Taint) ∈ E.edges .forward) :
    E.Confines x faults (.ofStarts starts) := by
  refine ⟨?_, nofun⟩
  intro d
  cases d with
  | forward =>
    refine Region.Admits.ofSeeds ?_
    intro r hr
    obtain ⟨s, hs, rfl⟩ := List.mem_map.mp hr
    exact h s hs
  | backward => exact Region.Admits.empty

end Extent

/-- The fault of a call that passes another number of arguments than a callee has parameters. -/
inductive Setup.Mismatch (x : Setup) : Fault → Prop
  | mk {call : StmtId} {callee : MethodId} {stmt : Stmt} {invocation : Invocation}
    {method : Method} : x.CallAt call stmt invocation → callee ∈ x.program.calleesOf call →
    x.program.method? callee = some method → method.isConcrete = true →
    method.signature.isStaticInitializer = false →
    method.params.length ≠ invocation.args.length → Mismatch x (.argumentCount stmt.id callee)

/-- Leaving a method keeps the activation unit or clears it. -/
theorem Forward.unit_leaving {call : Option StmtId} {f : Fact} {unit : StmtId}
    (h : (leaving call f).taint.unit = some unit) : f.taint.unit = some unit := by
  unfold leaving at h
  cases call with
  | none => exact h
  | some call =>
    change (f.activateAt call).taint.unit = some unit at h
    unfold Fact.activateAt at h
    split at h
    · cases h
    · exact h

/-- Where statements and activation units are those of a built program, calls that do not match
their callee are the only faults. -/
theorem Extent.Owes.mismatch {E : Extent} {x : Setup} {d : Direction} {q : Query} {f : Fact}
    {l : Landing Taint} (h : E.Owes x d q f l) (hp : x.program.Built)
    (hknown : ∀ e ∈ E.edges d, x.program.Has e.node) (hunit : ∀ s ∈ f.taint.unit, x.program.Has s)
    {e : Fault} (he : e ∈ (x.reply d q f).fault) : x.Mismatch e := by
  cases d with
  | forward =>
    rw [Setup.reply_forward] at he
    have hfault := (Forward.within_react q.flowEdge).fault e he
    generalize hedge : q.flowEdge = edge at hfault
    -- forwards a lookup can fail, a call can mismatch its callee, or a unit can be missing
    cases hfault with
    | lacking hlooks hlacks =>
      rw [← hedge] at hlooks
      exact absurd hlacks (h.found hp hknown hlooks)
    | mismatch hcall hmethod hconcrete hinit hcount =>
      exact .mk hcall (h.callee_mem hedge) hmethod hconcrete hinit hcount
    | stray _ hstray hnone =>
      obtain ⟨stmt, hstmt⟩ :=
        Program.exists_stmt_of_has (hunit _ (Forward.unit_leaving hstray))
      exact absurd (hstmt.symm.trans hnone) (Option.some_ne_none _)
  | backward =>
    rw [Setup.reply_backward] at he
    obtain ⟨hlooks, hlacks⟩ := (Backward.within_react q.flowEdge).fault e he
    exact absurd hlacks (h.found hp hknown hlooks)

namespace Coupled

variable {x : Setup} {E : Extent} {faults : Fault → Prop} {c c' : Coupled} {d : Direction}
  {busy : Bool}

/-! ## Steps and rounds -/

/-- The states of a run, those between the steps of a round included. -/
inductive Reachable (x : Setup) (starts : List StmtId) : Coupled → Prop
  | start : Reachable x starts (.ofStarts starts)
  | step {c c' : Coupled} {d : Direction} {busy : Bool} : Reachable x starts c →
    c.step x d = .ok (c', busy) → Reachable x starts c'
  | count {c : Coupled} :
      Reachable x starts c → Reachable x starts { c with rounds := c.rounds + 1 }

theorem Reachable.round {starts : List StmtId} (h : Reachable x starts c)
    (hround : c.round x = .ok (c', busy)) : Reachable x starts c' := by
  obtain ⟨⟨c₁, busy₁⟩, hforward, hround⟩ := exists_of_bind_eq_ok hround
  obtain ⟨⟨c₂, busy₂⟩, hbackward, hround⟩ := exists_of_bind_eq_ok hround
  cases hround
  exact ((h.step hforward).step hbackward).count

theorem Reachable.solve {starts : List StmtId} {fuel : Nat} {completed : Bool}
    (h : Reachable x starts c) (hsolve : Coupled.solve x fuel c = .ok (some (c', completed))) :
    Reachable x starts c' := by
  induction fuel generalizing c with
  | zero => cases hsolve
  | succ fuel ih =>
    obtain ⟨⟨c₁, busy⟩, hround, hsolve⟩ := exists_of_bind_eq_ok hsolve
    have h₁ := h.round hround
    dsimp only at hsolve
    split at hsolve
    · cases hsolve
      exact h₁
    · split at hsolve
      · cases hsolve
        exact h₁
      · exact ih h₁ hsolve

theorem solve_of_round {r : Coupled × Bool} (h : c.round x = .ok r) (fuel : Nat) :
    Coupled.solve x (fuel + 1) c = if !r.2 && r.1.isIdle then pure (some (r.1, true))
      else if r.1.isCapped x then pure (some (r.1, false)) else Coupled.solve x fuel r.1 := by
  conv_lhs => unfold Coupled.solve
  rw [h]
  rfl

/-- What a step of the side `d` comes to. -/
structure Stepped (E : Extent) (x : Setup) (faults : Fault → Prop) (d : Direction) (c c' : Coupled)
    (busy : Bool) : Prop where
  confines : E.Confines x faults c'
  opposite : (c'.state d.opposite).processed = (c.state d.opposite).processed
  advances : busy = true → (c.state d).processed < (c'.state d).processed
  rests : busy = false → (c'.state d).processed = (c.state d).processed ∧
    (c'.state d).isIdle = true ∧ c'.state d.opposite = c.state d.opposite

section

variable (hE : E.Bounds x faults) (hp : x.program.Built)

include hE hp

theorem safe_stepOf (h : E.Confines x faults c) (d : Direction) :
    Run.Safe faults ((x.problem d).step x.settings.batchSize (c.state d)) { findings := c.findings }
      ((E.region faults d).Stepped (x.problem d) (c.state d) { findings := c.findings }) := by
  have hworld : ({ findings := c.findings } : World) ∈ E.worlds d := ⟨nofun, h.pairs⟩
  exact Region.safe_step (hE.closed d) (hp.startsOwned d) (h.admits d) hworld _

theorem stepped_of_step (h : E.Confines x faults c) (hstep : c.step x d = .ok (c', busy)) :
    Coupled.Stepped E x faults d c c' busy := by
  obtain ⟨s, w, hrun, rfl⟩ := step_eq_ok hstep
  have hstepped := (safe_stepOf hE hp h d).result _ _ hrun
  refine ⟨⟨?_, ?_⟩, ?_, ?_, ?_⟩
  -- the side that stepped was confined by its step, the other has only been handed edges
  · intro d'
    rcases Direction.eq_or_eq_opposite d d' with rfl | rfl
    · rw [state_advanced]
      exact hstepped.admits
    · rw [state_opposite_advanced]
      refine (h.admits d.opposite).inject ?_
      intro e he
      obtain ⟨p, hp', rfl⟩ := List.mem_map.mp he
      exact hstepped.world.1 p hp'
  · rw [findings_advanced]
    exact hstepped.world.2
  · rw [state_opposite_advanced]
    rfl
  · rw [state_advanced]
    exact hstepped.busy
  · intro hidle
    obtain ⟨hprocessed, hdone, rfl⟩ := hstepped.idle hidle
    rw [state_advanced, state_opposite_advanced]
    refine ⟨hprocessed, hdone, ?_⟩
    -- nothing was asked, so nothing was handed over
    unfold State.inject
    simp

theorem fault_of_step (h : E.Confines x faults c) {e : Fault} (hstep : c.step x d = .error e) :
    faults e := by
  apply (safe_stepOf hE hp h d).fault e
  unfold step work at hstep
  dsimp only at hstep
  cases hrun : (x.problem d).step x.settings.batchSize (c.state d) { findings := c.findings } with
  | error e' =>
    rw [hrun] at hstep
    cases hstep
    exact hrun
  | ok r =>
    rw [hrun] at hstep
    cases hstep

theorem confines_of_reachable {starts : List StmtId}
    (hstarts : ∀ s ∈ starts, (⟨.zero, s, .zero⟩ : Edge Fact Taint) ∈ E.edges .forward)
    (h : Reachable x starts c) : E.Confines x faults c := by
  induction h with
  | start => exact Extent.confines_ofStarts hstarts
  | step _ hstep ih => exact (stepped_of_step hE hp ih hstep).confines
  | count _ ih =>
    refine ⟨?_, ih.pairs⟩
    intro d
    cases d with
    | forward => exact ih.admits .forward
    | backward => exact ih.admits .backward

/-- A round that is busy works an edge off, and one that is not leaves nothing to do. -/
theorem confines_of_round (h : E.Confines x faults c) (hround : c.round x = .ok (c', busy)) :
    E.Confines x faults c' ∧ (busy = true → c.propagations < c'.propagations) ∧
      (busy = false → c'.isIdle = true) := by
  obtain ⟨⟨c₁, busy₁⟩, hforward, hround⟩ := exists_of_bind_eq_ok hround
  obtain ⟨⟨c₂, busy₂⟩, hbackward, hround⟩ := exists_of_bind_eq_ok hround
  cases hround
  have h₁ := stepped_of_step hE hp h hforward
  have h₂ := stepped_of_step hE hp h₁.confines hbackward
  have hopp₁ : c₁.backward.processed = c.backward.processed := h₁.opposite
  have hopp₂ : c₂.forward.processed = c₁.forward.processed := h₂.opposite
  refine ⟨⟨?_, h₂.confines.pairs⟩, ?_, ?_⟩
  · intro d
    cases d with
    | forward => exact h₂.confines.admits .forward
    | backward => exact h₂.confines.admits .backward
  · intro hbusy
    have hle₁ : c.forward.processed ≤ c₁.forward.processed := by
      cases busy₁ with
      | true => exact (h₁.advances rfl).le
      | false => exact (h₁.rests rfl).1.ge
    have hle₂ : c₁.backward.processed ≤ c₂.backward.processed := by
      cases busy₂ with
      | true => exact (h₂.advances rfl).le
      | false => exact (h₂.rests rfl).1.ge
    have hlt : c.forward.processed < c₁.forward.processed ∨
        c₁.backward.processed < c₂.backward.processed := by
      -- one of the two sides was busy, and neither cursor goes back
      rcases (Bool.or_eq_true _ _).mp hbusy with rfl | rfl
      · exact Or.inl (h₁.advances rfl)
      · exact Or.inr (h₂.advances rfl)
    unfold propagations
    dsimp only
    omega
  · intro hidle
    -- the backward side has rested on a forward side that was idle already
    obtain ⟨rfl, rfl⟩ := (Bool.or_eq_false_iff).mp hidle
    obtain ⟨-, hforwardIdle, -⟩ := h₁.rests rfl
    obtain ⟨-, hbackwardIdle, hsame⟩ := h₂.rests rfl
    have hforwardIdle₂ : c₂.forward.isIdle = true := by
      rw [show c₂.forward = c₁.forward from hsame]
      exact hforwardIdle
    unfold isIdle
    rw [Bool.and_eq_true]
    exact ⟨hforwardIdle₂, hbackwardIdle⟩

theorem fault_of_round (h : E.Confines x faults c) {e : Fault} (hround : c.round x = .error e) :
    faults e := by
  unfold round at hround
  cases hforward : c.step x .forward with
  | error e' =>
    rw [hforward] at hround
    cases hround
    exact fault_of_step hE hp h hforward
  | ok r =>
    have h₁ := (stepped_of_step hE hp h hforward).confines
    cases hbackward : r.1.step x .backward with
    | error e' =>
      have heq : e' = e := by
        rw [hforward] at hround
        simpa [bind, Except.bind, hbackward] using hround
      rw [← heq]
      exact fault_of_step hE hp h₁ hbackward
    | ok r' =>
      rw [hforward] at hround
      simp [bind, Except.bind, hbackward, pure, Except.pure] at hround

/-! ## Runs -/

omit hE hp in
/-- The number of path edges that a bounded run can work off. -/
theorem propagations_le (hfinite : ∀ d, (Edge.triple Fact.taint '' E.edges d).Finite)
    (h : E.Confines x faults c) : c.propagations ≤
      (Edge.triple Fact.taint '' E.edges .forward).ncard +
        (Edge.triple Fact.taint '' E.edges .backward).ncard := by
  have hforward := (h.admits .forward).cursor.trans
    ((h.admits .forward).confines.size_le (hfinite .forward))
  have hbackward := (h.admits .backward).cursor.trans
    ((h.admits .backward).confines.size_le (hfinite .backward))
  exact Nat.add_le_add hforward hbackward

/-- With more fuel than there are path edges left, a run without a cap is over. -/
theorem solve_of_fuel (hmax : x.settings.maxPropagations = 0)
    (hfinite : ∀ d, (Edge.triple Fact.taint '' E.edges d).Finite) (fuel : Nat)
    (h : E.Confines x faults c)
    (hfuel : (Edge.triple Fact.taint '' E.edges .forward).ncard +
      (Edge.triple Fact.taint '' E.edges .backward).ncard < fuel + c.propagations) :
    (∃ e, Coupled.solve x fuel c = .error e ∧ faults e) ∨
      ∃ c', Coupled.solve x fuel c = .ok (some (c', true)) ∧ E.Confines x faults c' := by
  -- each busy round works an edge off, and there are no more edges than the extent has
  induction fuel generalizing c with
  | zero =>
    have hle := propagations_le hfinite h
    omega
  | succ fuel ih =>
    cases hround : c.round x with
    | error e =>
      have hsolve : Coupled.solve x (fuel + 1) c = .error e := by
        unfold Coupled.solve
        rw [hround]
        rfl
      exact Or.inl ⟨e, hsolve, fault_of_round hE hp h hround⟩
    | ok r =>
      obtain ⟨h₁, hbusy, hidle⟩ := confines_of_round hE hp h hround
      have hcap : r.1.isCapped x = false := by
        unfold isCapped
        rw [hmax]
        rfl
      rw [solve_of_round hround, hcap]
      cases hmore : r.2 with
      | true =>
        -- the round has worked an edge off
        have hless := hbusy hmore
        exact ih h₁ (by omega)
      | false =>
        rw [hidle hmore]
        exact Or.inr ⟨r.1, rfl, h₁⟩

end

end Coupled

/-- A bounded run without a cap over finitely many path edges ends by itself, unless a fault that
the bounds allow stops it. -/
theorem Extent.Bounds.exists_solve {E : Extent} {x : Setup} {faults : Fault → Prop}
    (hE : E.Bounds x faults) (hp : x.program.Built) (hmax : x.settings.maxPropagations = 0)
    (hfinite : ∀ d, (Edge.triple Fact.taint '' E.edges d).Finite) {starts : List StmtId}
    (hstarts : ∀ s ∈ starts, (⟨.zero, s, .zero⟩ : Edge Fact Taint) ∈ E.edges .forward) :
    ∃ rounds, ∀ fuel ≥ rounds,
      (∃ e, Coupled.solve x fuel (.ofStarts starts) = .error e ∧ faults e) ∨
      ∃ c, Coupled.solve x fuel (.ofStarts starts) = .ok (some (c, true)) ∧ E.Contains c := by
  refine ⟨(Edge.triple Fact.taint '' E.edges .forward).ncard +
    (Edge.triple Fact.taint '' E.edges .backward).ncard + 1, ?_⟩
  intro fuel hfuel
  have hstart : E.Confines x faults (.ofStarts starts) := confines_ofStarts hstarts
  refine (Coupled.solve_of_fuel hE hp hmax hfinite fuel hstart (by omega)).imp_right ?_
  rintro ⟨c, hsolve, hconfines⟩
  exact ⟨c, hsolve, hconfines.contains⟩

end TaintFlow
