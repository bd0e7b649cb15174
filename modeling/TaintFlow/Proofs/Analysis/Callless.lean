import TaintFlow.Proofs.Analysis.Termination

/-!
# Programs without calls between their methods

Where every call goes to an undeclared method, no fact enters or leaves a method. Call-to-return
edges are all that is left of a call: a call overwrites its target and, if it is a source, taints
it. Such an analysis comes to an outcome, and its outcome is read off along the edges of the
control-flow graph (`Coupled.IsFixedPoint.exists_absorbs`).
-/

namespace TaintFlow

open Tabulation

/-- The question that moves a fact on from `s` to `t` inside a method. -/
def along (x : Setup) (s t : StmtId) : Query :=
  if x.program.isCall s then .bypass s t else .normal s t

section

variable {x : Setup} {s t : StmtId} {stmt : Stmt} {f : Fact}

theorem along_call {invocation : Invocation} (h : x.CallAt s stmt invocation) :
    along x s t = .bypass s t := by
  have hcall : x.program.isCall s = true := by
    unfold Program.isCall Action.isCall
    rw [h.known]
    exact Option.isSome_of_eq_some h.calls
  unfold along
  rw [if_pos hcall]

theorem along_normal (hstmt : x.program.stmt? s = some stmt) (h : stmt.call? = none) :
    along x s t = .normal s t := by
  have hcall : ¬ x.program.isCall s = true := by
    unfold Program.isCall Action.isCall
    rw [hstmt]
    change ¬ stmt.call?.isSome = true
    rw [h]
    exact nofun
  unfold along
  rw [if_neg hcall]

end

/-! ## Setups without callees -/

theorem Program.calleesOf_eq_nil {p : Program} (h : ∀ row ∈ p.callees, row = []) (s : StmtId) :
    p.calleesOf s = [] := by
  unfold calleesOf
  rw [Array.getD_eq_getD_getElem?]
  cases hrow : p.callees[s.index]? with
  | none => rfl
  | some row => exact h row (Array.mem_of_getElem? hrow)

/-- Calls go to undeclared methods, and no library model speaks for them. -/
structure Setup.Callless (x : Setup) : Prop where
  callees : ∀ s, x.program.calleesOf s = []
  undeclared : ∀ stmt ∈ x.program.stmts, ∀ invocation ∈ stmt.call?,
    x.program.methodBySignature? invocation.method = none
  library : x.library = none

namespace Setup.Callless

variable {x : Setup} {call : StmtId} {stmt : Stmt} {invocation : Invocation} {f : Fact}
  {t : Taint}

theorem entersCallee (h : x.Callless) (call : StmtId) : x.entersCallee call = false := by
  unfold Setup.entersCallee
  rw [h.callees]
  rfl

theorem throughNative (h : x.Callless) (hcall : x.CallAt call stmt invocation) (f : Fact) :
    Forward.throughNative x stmt invocation f = [] := by
  have hnone := h.undeclared stmt (Program.mem_stmts hcall.known) invocation hcall.calls
  unfold Forward.throughNative
  simp [hnone]

theorem staysCovered (h : x.Callless) : x.StaysCovered where
  derived := by
    intro library stmt path derived hsome
    rw [h.library] at hsome
    cases hsome
  native := by
    intro call stmt invocation f g hcall hg
    rw [h.throughNative hcall] at hg
    cases hg

theorem callersOf (h : x.Callless) (hp : x.program.Built) (m : MethodId) :
    x.program.callersOf m = [] := by
  cases hcallers : x.program.callersOf m with
  | nil => rfl
  | cons call rest =>
    have hmem : call ∈ x.program.callersOf m := by
      rw [hcallers]
      exact List.mem_cons_self ..
    have hcallee := hp.mem_calleesOf_of_mem_callersOf hmem
    rw [h.callees] at hcallee
    cases hcallee

/-! ## Call-to-return edges -/

theorem passesBy (h : x.Callless) (f : Fact) :
    Forward.passesBy x stmt invocation f = !stmt.target?.any f.path.isRootedAt := by
  unfold Forward.passesBy Setup.isExclusive
  simp [h.entersCallee, h.library]

/-- A call lets a fact pass unless it overwrites it, and taints its target if it is a source. -/
theorem bypass (h : x.Callless) (hcall : x.CallAt call stmt invocation) (f : Fact) :
    Forward.bypass x call f = {
      facts := Fact.distinct ((if stmt.target?.any (f.activateAt call).path.isRootedAt then []
        else [f.activateAt call]) ++ Forward.created x stmt invocation (f.activateAt call))
      findings := Forward.callLeaks x stmt invocation (f.activateAt call) } := by
  unfold Forward.bypass Setup.withStmt
  rw [hcall.known]
  dsimp only
  rw [hcall.calls]
  dsimp only
  -- without a library model, callees or natives only three things are left
  have hmodelled : Forward.modelled x stmt invocation (f.activateAt call) = {} := by
    unfold Forward.modelled
    rw [h.library]
  rw [hmodelled, Reaction.empty_append, h.throughNative hcall, h.passesBy]
  cases stmt.target?.any (f.activateAt call).path.isRootedAt <;> simp

theorem mem_taints_bypass (h : x.Callless) (hcall : x.CallAt call stmt invocation) :
    t ∈ (Forward.bypass x call f).taints ↔
      (t = (f.activateAt call).taint ∧
        stmt.target?.any (f.activateAt call).path.isRootedAt = false) ∨
      (x.isSource stmt = true ∧ ∃ v path, stmt.target? = some v ∧
        AccessPath.ofValue? v = some path ∧
        t = { path, source := stmt.id, origin := invocation.toValue }) := by
  have hcreated : t ∈ (Forward.created x stmt invocation (f.activateAt call)).map Fact.taint ↔
      x.isSource stmt = true ∧ ∃ v path, stmt.target? = some v ∧
        AccessPath.ofValue? v = some path ∧
        t = { path, source := stmt.id, origin := invocation.toValue } := by
    constructor
    · intro ht
      obtain ⟨g, hg, rfl⟩ := List.mem_map.mp ht
      obtain ⟨v, path, hsource, hv, hpath, rfl⟩ := Forward.mem_created hg
      exact ⟨hsource, v, path, hv, hpath, rfl⟩
    · rintro ⟨hsource, v, path, hv, hpath, rfl⟩
      unfold Forward.created
      simp [hsource, hv, hpath, Forward.newFact, Fact.ofSource]
  rw [h.bypass hcall]
  unfold Reaction.taints
  rw [Reaction.mem_taints_distinct, List.map_append, List.mem_append, hcreated]
  cases stmt.target?.any (f.activateAt call).path.isRootedAt <;> simp

/-- Facts move on inside their method, or leave it for good. -/
theorem owes (h : x.Callless) (hp : x.program.Built) {E : Extent} {d : Direction} {q : Query}
    {l : Landing Taint} (howes : E.Owes x d q f l) :
    (∃ e ∈ E.edges d, ∃ site ∈ (x.program.view d).succsOf e.node,
      q = along x e.node site ∧ f = e.fact ∧ l = .within e.context site) ∨
    ∃ e ∈ E.edges d, q = .depart ((x.program.view d).ownerOf e.node) e.node ∧ f = e.fact ∧
      l = .nowhere := by
  have hcallees : ∀ s, (x.problem d).view.calleesOf s = [] := by
    cases d <;> exact h.callees
  have hcallers : ∀ m, (x.problem d).view.callersOf m = [] := by
    cases d <;> exact h.callersOf hp
  have hcalls : (x.problem d).view.isCall = x.program.isCall := by cases d <;> rfl
  -- of the six ways to owe something, those with a callee or a caller are out
  cases howes with
  | @normal e site he hcall hsite =>
    rw [hcalls] at hcall
    exact Or.inl ⟨e, he, site, hsite, by simp [along, hcall], rfl, rfl⟩
  | @bypass e site he hcall hsite =>
    rw [hcalls] at hcall
    exact Or.inl ⟨e, he, site, hsite, by simp [along, hcall], rfl, rfl⟩
  | call _ _ hm =>
    rw [hcallees] at hm
    cases hm
  | enter _ _ hm _ =>
    rw [hcallees] at hm
    cases hm
  | leave _ _ hm _ _ _ _ _ =>
    rw [hcallees] at hm
    cases hm
  | @release e _ _ _ he _ hrel =>
    cases hrel with
    | toCaller hcall _ =>
      rw [hcallers] at hcall
      cases hcall
    | departure _ => exact Or.inr ⟨e, he.1, rfl, rfl, rfl⟩

/-- Nothing can go wrong where statements and activation units are known. -/
theorem fault (h : x.Callless) (hp : x.program.Built) {E : Extent} {d : Direction} {q : Query}
    {l : Landing Taint} (howes : E.Owes x d q f l)
    (hknown : ∀ e ∈ E.edges d, x.program.Has e.node)
    (hunit : ∀ s ∈ f.taint.unit, x.program.Has s) : (x.reply d q f).fault = none := by
  cases hfault : (x.reply d q f).fault with
  | none => rfl
  | some e =>
    obtain ⟨_, hcallee⟩ := howes.mismatch hp hknown hunit hfault
    rw [h.callees] at hcallee
    cases hcallee

/-! ## Outcomes -/

/-- From some number of rounds on the analysis of one method runs to its end. -/
theorem exists_analyze (h : x.Callless) (hp : x.program.Built)
    (hvalid : x.settings.validate = .ok ()) (hmax : x.settings.maxPropagations = 0)
    {m : MethodId} {start : StmtId} (hstart : x.program.startsOf m = [start]) :
    ∃ rounds, ∀ fuel ≥ rounds, ∃ out, x.analyze [m] fuel = .ok out ∧ out.completed = true ∧
      Coupled.solve x fuel (.ofStarts [start]) = .ok (some (out.final, true)) := by
  -- a method that has a start point exists
  have hmethod : ∃ method, x.program.method? m = some method := by
    unfold Program.startsOf Program.bodyOf at hstart
    cases hmethod : x.program.method? m with
    | none =>
      rw [hmethod] at hstart
      cases hstart
    | some method => exact ⟨method, rfl⟩
  obtain ⟨method, hmethod⟩ := hmethod
  have hcheck : x.check [m] = .ok [start] := by
    have hrequire : x.program.requireMethod m = .ok method := by
      unfold Program.requireMethod
      rw [hmethod]
    simp [Setup.check, hvalid, Setup.entryPoints, Program.entryStarts, hrequire, hstart, bind,
      Except.bind, pure, Except.pure, discard, Functor.discard, Functor.mapConst,
      Except.map, List.forM]
  have hhas : ∀ s ∈ [start], x.program.Has s := by
    intro s hs
    rw [← hstart] at hs
    exact hp.has_of_mem_startsOf (d := .forward) hs
  obtain ⟨rounds, hrounds⟩ :=
    Setup.exists_solve hp (Setup.one_le_most hvalid) h.staysCovered hmax hhas
  refine ⟨rounds, ?_⟩
  intro fuel hfuel
  rcases hrounds fuel hfuel with ⟨e, -, hmismatch⟩ | ⟨c, hsolve⟩
  · -- without callees no call can fail to match one
    obtain ⟨_, hcallee⟩ := hmismatch
    rw [h.callees] at hcallee
    cases hcallee
  · refine ⟨⟨c, true⟩, ?_, rfl, hsolve⟩
    unfold Setup.analyze Setup.runFrom Coupled.outcome
    simp [hcheck, hsolve]

end Setup.Callless

/-! ## Fixed points along control flow -/

namespace Coupled

variable {x : Setup} {c : Coupled} {d : Direction}

/-- A taint of the table is the taint of a fact whose reaction, along every edge inside the method,
brings nothing new. -/
theorem IsFixedPoint.exists_absorbs (h : IsFixedPoint x c) {context t : Taint} {n site : StmtId}
    (hholds : (c.state d).holds context n t = true)
    (hsite : site ∈ (x.program.view d).succsOf n) :
    ∃ f, f.taint = t ∧ Absorbs x c d (along x n site) f (.within context site) := by
  obtain ⟨e, he, rfl, rfl, rfl⟩ := ((h.coherent d).holds_iff _ _ _).mp hholds
  refine ⟨e.fact, rfl, h.absorbs d _ _ _ ?_⟩
  have hcalls : (x.problem d).view.isCall = x.program.isCall := by cases d <;> rfl
  unfold along
  cases hcall : x.program.isCall e.node with
  | true => exact Owed.bypass he (by rw [hcalls]; exact hcall) hsite
  | false => exact Owed.normal he (by rw [hcalls]; exact hcall) hsite

/-- A run that ends by itself has kept its start points and ends in a fixed point. -/
theorem settled_of_solve (hp : x.program.Built) (hstop : x.settings.stopAfterFirstFlow = false)
    {starts : List StmtId} {fuel : Nat}
    (hsolve : Coupled.solve x fuel (.ofStarts starts) = .ok (some (c, true))) :
    IsFixedPoint x c ∧ ∀ s ∈ starts, c.forward.holds .zero s .zero = true := by
  obtain ⟨R, hconsistent, hdone⟩ := (Consistent.ofStarts hstop starts).solve hp hsolve
  exact ⟨hconsistent.isFixedPoint hp (hdone rfl), hconsistent.started⟩

theorem answer_along (x : Setup) (d : Direction) (s t : StmtId) (f : Fact) :
    x.answer d (along x s t) f = (x.reply d (along x s t) f).facts := by
  unfold along
  split <;> rfl

theorem Absorbs.holds {f : Fact} {context t : Taint} {n site : StmtId}
    (h : Absorbs x c d (along x n site) f (.within context site))
    (ht : t ∈ (x.reply d (along x n site) f).taints) :
    (c.state d).holds context site t = true := by
  obtain ⟨g, hg, rfl⟩ := Reaction.mem_taints.mp ht
  rw [← answer_along] at hg
  exact h.facts g hg _ rfl

/-- Taints move on: what every fact with the taint becomes is in the table behind the edge. -/
theorem IsFixedPoint.holds_next (h : IsFixedPoint x c) {context t t' : Taint} {n site : StmtId}
    (hholds : (c.state d).holds context n t = true) (hsite : site ∈ (x.program.view d).succsOf n)
    (ht : ∀ f : Fact, f.taint = t → t' ∈ (x.reply d (along x n site) f).taints) :
    (c.state d).holds context site t' = true := by
  obtain ⟨f, hf, habsorbs⟩ := h.exists_absorbs hholds hsite
  exact habsorbs.holds (ht f hf)

/-- Taints are handed over: what every fact with the taint sends is in the table of the other
side. -/
theorem IsFixedPoint.holds_handed (h : IsFixedPoint x c) {context t t' : Taint}
    {n site m : StmtId} (hholds : (c.state d).holds context n t = true)
    (hsite : site ∈ (x.program.view d).succsOf n)
    (ht : ∀ f : Fact, f.taint = t →
      ∃ g, g.taint = t' ∧ (m, g) ∈ (x.reply d (along x n site) f).handed) :
    (c.state d.opposite).holds t' m t' = true := by
  obtain ⟨f, hf, habsorbs⟩ := h.exists_absorbs hholds hsite
  obtain ⟨g, rfl, hg⟩ := ht f hf
  exact habsorbs.handed _ hg

end Coupled

end TaintFlow
