import TaintFlow.Proofs.Analysis.Simulation

/-!
# What activates a fact

An inactive fact waits for its activation unit, or for the call that brought it back to this level.
Both are assignments or calls: alias searches start nowhere else. So statements of any other kind
let the facts of a run pass as they are.
-/

namespace TaintFlow

open Tabulation

/-- The statement is the activation unit of the taint, or the call of its level. -/
def Taint.Awaits (t : Taint) (s : StmtId) : Prop := t.unit = some s ∨ t.level = some s

theorem Fact.activateAt_of_not_awaits {f : Fact} {s : StmtId} (h : ¬ f.taint.Awaits s) :
    f.activateAt s = f := by
  unfold Taint.Awaits at h
  rw [not_or] at h
  unfold activateAt
  rw [if_neg]
  simp [Taint.activatedBy, h.1, h.2]

namespace Setup

variable (x : Setup)

/-- The statement is an assignment or a call. -/
def Acts (s : StmtId) : Prop := ∃ a, x.program.stmt? s = some a ∧ a.action.acts = true

/-- Whatever may activate the taint is an assignment or a call. -/
structure Pends (t : Taint) : Prop where
  unit : ∀ s ∈ t.unit, x.Acts s
  level : ∀ s ∈ t.level, x.Acts s

variable {x} {t : Taint} {f g : Fact}

theorem pends_zero : x.Pends .zero := ⟨nofun, nofun⟩

namespace Pends

theorem activateAt (h : x.Pends f.taint) (s : StmtId) : x.Pends (f.activateAt s).taint := by
  unfold Fact.activateAt
  split
  · exact ⟨nofun, nofun⟩
  · exact h

theorem leaving (h : x.Pends f.taint) (call : Option StmtId) :
    x.Pends (Forward.leaving call f).taint := by
  cases call with
  | none => exact h
  | some call => exact h.activateAt call

theorem moveTo (h : x.Pends f.taint) (path : AccessPath) : x.Pends (f.moveTo path).taint :=
  ⟨h.unit, h.level⟩

theorem moveToValue (h : x.Pends f.taint) {v : Value} {cut : Bool} {most : Nat}
    (hmoved : f.moveToValue? v cut most = some g) : x.Pends g.taint := by
  obtain ⟨path, -, rfl⟩ := Option.map_eq_some_iff.mp hmoved
  exact h.moveTo path

theorem moveToLocal (h : x.Pends f.taint) (l : Local) (most : Nat) :
    x.Pends (f.moveToLocal l most).taint := ⟨h.unit, h.level⟩

theorem deactivate (f : Fact) {s : StmtId} (hs : x.Acts s) : x.Pends (f.deactivate s).taint := by
  refine ⟨?_, nofun⟩
  intro s' hs'
  cases hs'
  exact hs

theorem atLevel (h : x.Pends f.taint) {s : StmtId} (hs : x.Acts s) :
    x.Pends (f.atLevel s).taint := by
  refine ⟨h.unit, ?_⟩
  intro s' hs'
  cases hs'
  exact hs

/-- A statement of another kind activates nothing. -/
theorem awaits (h : x.Pends t) {s : StmtId} {a : Stmt} (ha : x.program.stmt? s = some a)
    (hidle : a.action.acts = false) : ¬ t.Awaits s := by
  intro hawaits
  have hacts : x.Acts s := hawaits.elim (h.unit s) (h.level s)
  obtain ⟨b, hb, hacts⟩ := hacts
  cases ha.symm.trans hb
  rw [hidle] at hacts
  cases hacts

end Pends

end Setup

/-! ## Reactions -/

section

variable {x : Setup} (hp : x.program.Built) {edge : FlowEdge} {f g : Fact}

include hp

theorem Setup.acts_of_stmt {s : StmtId} {a : Stmt} (ha : x.program.stmt? s = some a)
    (hacts : a.action.acts = true) : x.Acts a.id := by
  rw [hp.id_eq ha]
  exact ⟨a, ha, hacts⟩

omit hp in
theorem Forward.pends_of_yields (hnative : x.native = .conservative)
    (hyields : Forward.Yields x edge f g) (hf : x.Pends f.taint) : x.Pends g.taint := by
  -- moving keeps what a fact waits for, activating clears it, and a new fact waits for nothing
  cases hyields with
  | kept _ => exact hf.activateAt _
  | caught _ _ _ => exact (hf.activateAt _).moveTo _
  | arrived _ _ _ => exact ⟨nofun, nofun⟩
  | assigned _ _ _ _ hmoved =>
    have hpends := (hf.activateAt _).moveToValue hmoved
    exact hpends
  | @thrown s _ _ _ _ _ _ =>
    have hpends := hf.activateAt s
    exact ⟨hpends.unit, hpends.level⟩
  | zero _ _ => exact hf
  | bound _ _ _ _ => exact (hf.activateAt _).moveToLocal _ _
  | entered _ _ => exact hf.activateAt _
  | returned _ _ _ _ hmoved =>
    have hpends := (hf.leaving _).moveToValue hmoved
    exact hpends
  | left _ _ _ => exact hf.leaving _
  | idle _ _ => exact hf
  | passed _ _ => exact hf.activateAt _
  | modelled _ _ _ _ _ => exact (hf.activateAt _).moveTo _
  | native hcall hg =>
    unfold Forward.throughNative at hg
    dsimp only at hg
    split at hg
    · rw [hnative] at hg
      obtain ⟨v, path, -, -, rfl⟩ := NativeModel.mem_conservative hg
      exact (hf.activateAt _).moveTo path
    · cases hg
  | created _ _ _ _ => exact ⟨nofun, nofun⟩

theorem Forward.pends_of_hands (hnative : x.native = .conservative) {h : StmtId × Fact}
    (hhands : Forward.Hands x edge f h) (hf : x.Pends f.taint) : x.Pends h.2.taint := by
  -- what is handed over waits for the assignment or the call that it was handed over at
  cases hhands with
  | assigned hs haction _ _ _ _ _ =>
    exact Setup.Pends.deactivate _ (Setup.acts_of_stmt hp hs (by rw [haction]; rfl))
  | @returned _ _ _ _ _ _ g _ hcall hyields _ =>
    have hacts := Setup.acts_of_stmt hp hcall.known hcall.acts
    change x.Pends (Forward.probeAfter _ g).taint
    unfold Forward.probeAfter
    split
    · exact (Setup.Pends.deactivate g hacts).atLevel hacts
    · exact Forward.pends_of_yields hnative hyields hf
  | modelled hcall _ _ _ _ _ _ =>
    exact Setup.Pends.deactivate _ (Setup.acts_of_stmt hp hcall.known hcall.acts)

omit hp in
theorem Backward.pends_of_moves {a : Stmt} (hmoves : Backward.Moves x a f g)
    (hf : x.Pends f.taint) : x.Pends g.taint := by
  obtain ⟨-, -, hmoved⟩ := hmoves
  exact hf.moveToValue hmoved

omit hp in
theorem Backward.pends_of_last {a : Stmt} (hstep : g = f ∨ Backward.Moves x a f g)
    (hf : x.Pends f.taint) : x.Pends g.taint := by
  rcases hstep with rfl | hmoves
  · exact hf
  · exact Backward.pends_of_moves hmoves hf

omit hp in
theorem Backward.pends_of_yields (hyields : Backward.Yields x edge f g) (hf : x.Pends f.taint) :
    x.Pends g.taint := by
  cases hyields with
  | kept => exact hf
  | moved _ _ hmoves => exact Backward.pends_of_moves hmoves hf
  | bound _ _ _ => exact hf.moveToLocal _ _
  | entered _ _ => exact hf
  | left _ _ _ hlast _ => exact Backward.pends_of_last hlast hf
  | returned hcall _ _ hlast _ =>
    exact ((Backward.pends_of_last hlast hf).moveToLocal _ _).atLevel ⟨_, hcall.known, hcall.acts⟩
  | passed => exact hf

omit hp in
theorem Backward.pends_of_hands {h : StmtId × Fact} (hhands : Backward.Hands x edge f h)
    (hf : x.Pends f.taint) : x.Pends h.2.taint := by
  cases hhands with
  | moved _ _ hmoves _ => exact Backward.pends_of_moves hmoves hf
  | left _ _ hmoves _ => exact Backward.pends_of_moves hmoves hf

theorem Setup.pends_reply (hnative : x.native = .conservative) (d : Direction) (q : Query)
    (hf : x.Pends f.taint) : (∀ g ∈ (x.reply d q f).facts, x.Pends g.taint) ∧
      ∀ h ∈ (x.reply d q f).handed, x.Pends h.2.taint := by
  cases d with
  | forward =>
    have hwithin := Forward.within_react (x := x) (f := f) q.flowEdge
    exact ⟨fun g hg => Forward.pends_of_yields hnative (hwithin.facts g hg) hf,
      fun h hh => Forward.pends_of_hands hp hnative (hwithin.handed h hh) hf⟩
  | backward =>
    have hwithin := Backward.within_react (x := x) (f := f) q.flowEdge
    exact ⟨fun g hg => Backward.pends_of_yields (hwithin.facts g hg) hf,
      fun h hh => Backward.pends_of_hands (hwithin.handed h hh) hf⟩

/-! ## Runs -/

/-- In the tables of a run, facts stand at statements of the program and wait for assignments and
calls. -/
theorem Coupled.Settles.pends (hnative : x.native = .conservative) {starts : List StmtId}
    {R : Direction → Set (Edge Fact Taint)} {c : Coupled} (h : Settles x starts R c)
    (hstarts : ∀ s ∈ starts, x.program.Has s) {d : Direction} {e : Edge Fact Taint}
    (he : c.Holds d e) : x.program.Has e.node ∧ x.Pends e.context ∧ x.Pends e.fact.taint := by
  -- the edges with pending taints are closed, and a run stays inside every closed extent
  have hcontains : (x.program.edgesWith x.Pends).Contains c := by
    refine h.inside _ ?_ fun s hs => ⟨hstarts s hs, Setup.pends_zero, Setup.pends_zero⟩
    intro d q f l howed
    obtain ⟨hf, hlands⟩ := Program.lands_of_owed hp Setup.pends_zero howed
    obtain ⟨hfacts, hhanded⟩ := Setup.pends_reply hp hnative d q hf
    refine ⟨?_, ?_, fun _ _ => trivial⟩
    · intro g hg
      exact hlands g (hfacts g (Setup.answer_subset hg))
    · intro p hmem
      obtain ⟨hsite, -⟩ := Setup.site_of_handed hp hmem
      exact ⟨hp.has_of_mem_succsOf hsite, hhanded p hmem, hhanded p hmem⟩
  obtain ⟨g, hg, htaint⟩ := he.exists_edge (h.fixed.coherent d)
  rw [← htaint]
  exact hcontains.edges d _ hg

end

end TaintFlow
