import TaintFlow.Proofs.Analysis.ActivationUnits
import TaintFlow.Proofs.Analysis.Callless
import TaintFlow.Proofs.Flow.Renumbering

/-!
# Inserting a statement that does nothing

One expects that a statement without an effect can be put anywhere without changing what the
analysis finds. It can between two statements. But a statement at the edge of a body is not applied
to the facts that arrive there against the direction of the body: with nothing before it, nothing
asks for its effect. Put a statement before it, and its effect is asked for. So at the edge of a
body the neighbour of the new statement must have no effect either (`Insertion.Neutral`).

Apart from that, a new statement changes nothing but the schedule, and thereby which exits are let
out into every caller.
-/

namespace TaintFlow

open Tabulation Correspondence

/-! ## Statements without an effect -/

namespace Setup

variable {x : Setup} {d : Direction} {s : StmtId} {a : Stmt} {f : Fact}

/-- Whether the statement hands on every fact as it is that does not wait for it. -/
def idles (x : Setup) (d : Direction) (a : Stmt) : Bool :=
  match d, a.action with
  | _, .assign _ _ | _, .invoke _ => false
  | .forward, .identity _ source => source ≠ .caughtException && !x.isSource a
  | .forward, .return (some _) | .forward, .throw _ => false
  | _, _ => true

theorem acts_of_idles (h : x.idles d a = true) : a.action.acts = false := by
  unfold idles at h
  unfold Action.acts
  cases haction : a.action with
  | assign target source =>
    rw [haction] at h
    cases d <;> cases h
  | invoke call =>
    rw [haction] at h
    cases d <;> cases h
  | _ => rfl

theorem isQuiet_of_idles (h : x.idles d a = true) : a.IsQuiet d := by
  cases d with
  | forward =>
    intro v haction
    unfold idles at h
    rw [haction] at h
    cases h
  | backward =>
    intro target source haction
    unfold idles at h
    rw [haction] at h
    cases h

theorem react_of_idles (ha : x.program.stmt? s = some a) (h : x.idles d a = true)
    (hawaits : ¬ f.taint.Awaits s) : x.react d false (.normal s) f = Reaction.pass [f] := by
  unfold idles at h
  cases d with
  | forward =>
    change Forward.normal x s f = _
    unfold Forward.normal withStmt
    rw [ha]
    dsimp only
    rw [Fact.activateAt_of_not_awaits hawaits]
    -- `idles` rules out the actions that do something to a fact, case by case
    cases haction : a.action with
    | identity target source =>
      rw [haction] at h
      simp only [Bool.and_eq_true, decide_eq_true_eq, Bool.not_eq_true'] at h
      unfold Forward.identity
      simp [h.1, h.2, Fact.distinct]
    | assign target source =>
      rw [haction] at h
      cases h
    | throw operand =>
      rw [haction] at h
      cases h
    | «return» result =>
      cases result with
      | none => rfl
      | some result =>
        rw [haction] at h
        cases h
    | _ => rfl
  | backward =>
    change Backward.normal x s f = _
    unfold Backward.normal withStmt
    rw [ha]
    dsimp only
    cases haction : a.action with
    | assign target source =>
      rw [haction] at h
      cases h
    | _ => rfl

theorem idles_of_idles (ha : x.program.stmt? s = some a) (h : x.idles d a = true)
    (hawaits : ¬ f.taint.Awaits s) : x.Idles d s f :=
  ⟨f, react_of_idles ha h hawaits, rfl⟩

end Setup

/-- Facts go on past a statement without an effect. -/
theorem Coupled.IsFixedPoint.holds_of_idles {x : Setup} {c : Coupled} (hfixed : IsFixedPoint x c)
    {d : Direction} {s m : StmtId} {a : Stmt} (ha : x.program.stmt? s = some a)
    (hidles : x.idles d a = true) {k t : Taint} (hawaits : ¬ t.Awaits s)
    (hm : m ∈ (x.program.view d).succsOf s) (hheld : (c.state d).holds k s t = true) :
    (c.state d).holds k m t = true := by
  have hholds : c.Holds d ⟨k, s, { taint := t }⟩ := hheld
  obtain ⟨g, hg, htaint⟩ := hholds.exists_edge (hfixed.coherent d)
  -- a call is never idle, so the fact is owed along the normal edge
  have hcall : (x.program.view d).isCall s = false := by
    rw [Program.isCall_view]
    unfold Program.isCall
    rw [ha, Option.any_some]
    cases hcall? : a.action.call? with
    | none =>
      unfold Action.isCall
      rw [hcall?]
      rfl
    | some invocation =>
      have hacts := Action.acts_of_call? hcall?
      rw [Setup.acts_of_idles hidles] at hacts
      cases hacts
  have habsorbs := hfixed.absorbs d _ _ _ (Owed.normal (P := x.problem d) hg hcall hm)
  have hawaits' : ¬ g.taint.Awaits s := by
    rw [htaint]
    exact hawaits
  have hreply : g ∈ (x.react d false (.normal s) g).facts := by
    rw [Setup.react_of_idles ha hidles hawaits']
    exact List.mem_singleton_self g
  have hnext := habsorbs.facts g hreply _ rfl
  rw [htaint] at hnext
  exact hnext

/-! ## Along a renumbering -/

theorem Taint.awaits_renumber {ρ : StmtId → StmtId} {t : Taint} {s' : StmtId} :
    (t.renumber ρ).Awaits s' ↔ ∃ s, t.Awaits s ∧ s' = ρ s := by
  unfold Awaits renumber
  simp only [Option.map_eq_some_iff]
  constructor
  · rintro (⟨s, hs, rfl⟩ | ⟨s, hs, rfl⟩)
    · exact ⟨s, Or.inl hs, rfl⟩
    · exact ⟨s, Or.inr hs, rfl⟩
  · rintro ⟨s, hs | hs, rfl⟩
    · exact Or.inl ⟨s, hs, rfl⟩
    · exact Or.inr ⟨s, hs, rfl⟩

namespace Insertion

variable (I : Insertion)

/-- The anchor is at the edge of its body on the side of the new statement: facts leave there, or
come to an end. -/
def AtBoundary (p : Program) : Prop :=
  (p.view I.side.opposite).isExit I.anchor = true ∨ (p.view I.side.opposite).succsOf I.anchor = []

/-- At the edge of a body, the new statement stands beside one without an effect. -/
def Neutral (x : Setup) : Prop :=
  I.AtBoundary x.program → ∀ a, x.program.stmt? I.anchor = some a →
    x.idles I.side.opposite a = true

variable {I} {x y : Setup} (h : I.InsertsInto x y) {d : Direction} {s : StmtId} {k t : Taint}

theorem Neutral.isQuiet (h : I.Inserts x.program y.program) (hneutral : I.Neutral x)
    (hside : I.side = .backward) (a : Stmt) (ha : x.program.stmt? I.anchor = some a) :
    a.IsQuiet .forward := by
  have hlast : (x.program.view I.side.opposite).succsOf I.anchor = [] := by
    rw [hside]
    exact h.last hside
  have hidles := hneutral (Or.inr hlast) a ha
  rw [hside] at hidles
  exact Setup.isQuiet_of_idles hidles

include h

theorem InsertsInto.stmt_renumber {a : Stmt} (ha : x.program.stmt? s = some a) :
    y.program.stmt? (I.renumber s) = some { a with id := I.renumber s } := by
  rw [h.program.stmts, ha]
  rfl

theorem InsertsInto.idles_renumber {a : Stmt} (ha : x.program.stmt? s = some a) :
    y.idles d { a with id := I.renumber s } = x.idles d a := by
  unfold Setup.idles
  rw [h.isSource ha]

omit h in
theorem idles_nop (m : MethodId) : y.idles d ⟨I.nop, m, .nop⟩ = true := by
  cases d <;> rfl

/-- No old fact waits for the new statement. -/
theorem InsertsInto.not_awaits_nop : ¬ (t.renumber I.renumber).Awaits I.nop := by
  intro hawaits
  obtain ⟨s, -, heq⟩ := Taint.awaits_renumber.mp hawaits
  exact h.program.fresh s heq.symm

theorem InsertsInto.awaits_renumber :
    (t.renumber I.renumber).Awaits (I.renumber s) ↔ t.Awaits s := by
  rw [Taint.awaits_renumber]
  constructor
  · rintro ⟨s', hs', heq⟩
    rw [h.program.renumber_inj.mp heq]
    exact hs'
  · intro hs
    exact ⟨s, hs, rfl⟩

/-- Old facts go on past the new statement. -/
theorem InsertsInto.holds_of_nop {c' : Coupled} (hfixed : Coupled.IsFixedPoint y c')
    (ht : (renumbering I.renumber).Onto t) {m : StmtId}
    (hm : m ∈ (y.program.view d).succsOf I.nop) (hheld : (c'.state d).holds k I.nop t = true) :
    (c'.state d).holds k m t = true := by
  obtain ⟨u, hu⟩ := ht
  obtain rfl := taints_renumbering.mp hu
  obtain ⟨a, -, hnop⟩ := h.program.added
  exact hfixed.holds_of_idles hnop (idles_nop a.method) h.not_awaits_nop hm hheld

omit h in
/-- Where paths stay as they are, chains correspond after every statement. -/
theorem fits_of_path {K : Correspondence} {u v : Setup} (hpath : ∀ {p q}, K.path p q ↔ p = q)
    (hK : K.Lawful u.most v.most) (hmost : v.most = u.most) (hu : u.native = .conservative)
    (hv : v.native = .conservative) {p q : AccessPath} (hpq : K.path p q) : u.Fits K v d s p q where
  shortened := by
    intro a _ _ root
    rw [hpath.mp hpq, hmost]
    exact hpath.mpr rfl
  native := by
    intro a b invocation f g _ _ hab _ _ _ hfg
    rw [hu, hv]
    refine NativeModel.covers_conservative hK hab hfg ?_
    intro w place _ _ hnew
    have hsame : f.path = g.path := hpath.mp hfg.path
    rw [← hsame]
    exact hnew

/-! ## The old run in the new one -/

variable (hp : x.program.Built) (hp' : y.program.Built) (hneutral : I.Neutral x) {c c' : Coupled}
  (hpends : ∀ {d e}, c.Holds d e → x.program.Has e.node ∧ x.Pends e.context ∧ x.Pends e.fact.taint)
  (hpends' : ∀ {d e}, c'.Holds d e →
    y.program.Has e.node ∧ y.Pends e.context ∧ y.Pends e.fact.taint)
  (hfixed : Coupled.IsFixedPoint x c) (hfixed' : Coupled.IsFixedPoint y c')

include hneutral in
/-- Leaving by the new statement is leaving by the anchor. -/
theorem InsertsInto.exits_front (hexit : (x.program.view d).isExit s = true) :
    x.Exits (renumbering I.renumber) y d s (I.front d.opposite s) := by
  unfold front
  split
  · next hat =>
    obtain ⟨hside, rfl⟩ := hat
    have hd : d = I.side.opposite := Direction.eq_opposite hside
    subst hd
    obtain ⟨a, -, hnop⟩ := h.program.added
    refine Or.inr ⟨fun a ha => ?_, fun b hb => ?_⟩
    · exact Setup.isQuiet_of_idles (hneutral (Or.inl hexit) a ha)
    · cases hnop.symm.trans hb
      exact Setup.isQuiet_of_idles (x := y) (idles_nop a.method)
  · exact Or.inl rfl

theorem InsertsInto.ownerOf_front : y.program.ownerOf (I.front d s) = x.program.ownerOf s := by
  unfold front
  split
  · next hat =>
    rw [hat.2]
    exact h.program.ownerOf_nop
  · exact h.program.ownerOf_renumber

/-- Facts of the old run are at the same statements in the new one, and pass the new statement on
the way. -/
def InsertsInto.push : Bridge (renumbering I.renumber) x y c c' where
  stands _ n n' := n' = I.renumber n
  leaves d n n' := (x.program.view d).isExit n = true ∧ n' = I.front d.opposite n
  twin := h.twin hp hp' (hneutral.isQuiet h.program)
  built := hp
  fixed := hfixed'
  self hn := hn
  call _ := ⟨_, rfl⟩
  step := by
    intro d n m hm
    refine Or.inl ⟨I.renumber n, rfl, ?_, ?_⟩
    -- a step of the old program is one of the new, or two with the new statement between them
    · rcases h.program.step hp hp' hm with hm' | ⟨hm', -⟩
      · exact List.ne_nil_of_mem hm'
      · exact List.ne_nil_of_mem hm'
    · rintro k t - ht hall _ rfl
      rcases h.program.step hp hp' hm with hm' | ⟨hnop, hm'⟩
      · exact hall _ hm'
      · exact h.holds_of_nop hfixed' ht hm' (hall _ hnop)
  start := by
    intro d m s hs
    have hfront : I.front d s ∈ (y.program.view d).startsOf m :=
      (h.program.mem_startsOf hp hp').mpr ⟨s, hs, rfl⟩
    refine ⟨⟨_, hfront⟩, ?_⟩
    rintro k t - ht hall _ rfl
    have hheld := hall _ hfront
    -- in front of the first statement the new one is where the facts enter
    unfold front at hheld
    split at hheld
    · next hat =>
      obtain ⟨rfl, rfl⟩ := hat
      exact h.holds_of_nop hfixed' ht (h.program.enters.mpr rfl) hheld
    · exact hheld
  exit := by
    intro d e k t hheld hexit hk ht hreaches
    refine ⟨_, ⟨hexit, rfl⟩, ?_⟩
    have hthere := hreaches _ rfl
    unfold front
    split
    · next hat =>
      -- the anchor has no effect, so the fact goes on to the new statement
      obtain ⟨hside, hnode⟩ := hat
      have hd : d = I.side.opposite := Direction.eq_opposite hside
      subst hd
      rw [hnode] at hexit hthere
      obtain ⟨a, ha, -⟩ := h.program.added
      have hidles := hneutral (Or.inl hexit) a ha
      obtain rfl := taints_renumbering.mp ht
      refine hfixed'.holds_of_idles (h.stmt_renumber ha) ?_ ?_
        ((h.program.nop_mem_succsOf_opposite hp').mpr rfl) hthere
      · rw [h.idles_renumber ha]
        exact hidles
      · rw [h.awaits_renumber]
        exact (hpends hheld).2.2.awaits ha (Setup.acts_of_idles hidles)
    · exact hthere
  left := by
    rintro d n _ ⟨hexit, rfl⟩
    refine ⟨?_, h.exits_front hneutral hexit, h.ownerOf_front⟩
    rw [h.program.isExit_front hp hp']
    exact hexit
  caller := by
    intro m s hs
    exact ⟨_, rfl, (h.program.mem_callersOf hp hp').mpr ⟨s, hs, rfl⟩⟩
  uncalled := by
    intro m hnone
    apply List.eq_nil_iff_forall_not_mem.mpr
    intro s' hs'
    obtain ⟨s, hs, -⟩ := (h.program.mem_callersOf hp hp').mp hs'
    rw [hnone] at hs
    cases hs
  fits := by
    intro d e q _ hq
    refine fits_of_path Iff.rfl ?_ h.most_eq h.native.1 h.native.2 hq
    rw [h.most_eq]
    exact lawful_renumbering h.program

/-! ## The new run in the old one -/

omit h in
theorem exits_converse {K : Correspondence} {u v : Setup} {e e' : StmtId}
    (hexits : u.Exits K v d e e') : v.Exits K.converse u d e' e := by
  rcases hexits with hs | ⟨hu, hv⟩
  · exact Or.inl hs
  · exact Or.inr ⟨hv, hu⟩

/-- The old statements that a fact has reached in the old run if it is at `n'` in the new one. What
is at the new statement has reached everything that it leads to, and the anchor if facts leave
there. -/
def Follows (I : Insertion) (p p' : Program) (d : Direction) (n' n : StmtId) : Prop :=
  n' = I.renumber n ∨ n' = I.nop ∧ (I.renumber n ∈ (p'.view d).succsOf I.nop ∨
    n = I.anchor ∧ d = I.side.opposite ∧ (p.view d).isExit I.anchor = true)

omit h in
theorem follows_renumber (h : I.Inserts x.program y.program) {n : StmtId} :
    I.Follows x.program y.program d (I.renumber s) n ↔ n = s := by
  constructor
  · rintro (heq | ⟨heq, -⟩)
    · exact (h.renumber_inj.mp heq).symm
    · exact absurd heq (h.fresh s)
  · rintro rfl
    exact Or.inl rfl

omit h in
/-- What stands in place of an old statement has reached that statement only. -/
theorem eq_of_follows_front (h : I.Inserts x.program y.program) {n : StmtId}
    (hfollows : I.Follows x.program y.program d (I.front d s) n) : n = s := by
  unfold front at hfollows
  split at hfollows
  · next hat =>
    obtain ⟨rfl, rfl⟩ := hat
    rcases hfollows with heq | ⟨-, hsucc | ⟨rfl, -⟩⟩
    · exact absurd heq.symm (h.fresh n)
    · exact h.renumber_inj.mp (h.enters.mp hsucc)
    · rfl
  · exact (follows_renumber h).mp hfollows

omit h in
/-- An exit of the new run has reached the exit that it stands in place of. -/
theorem follows_exit (hexit : (x.program.view d).isExit s = true) :
    I.Follows x.program y.program d (I.front d.opposite s) s := by
  unfold front
  split
  · next hat =>
    obtain ⟨hside, rfl⟩ := hat
    exact Or.inr ⟨rfl, Or.inr ⟨rfl, Direction.eq_opposite hside, hexit⟩⟩
  · exact Or.inl rfl

include hp hp' in
/-- What is reached after a step of the new run was reached by one step in the old run, but for the
step from an anchor at the edge. -/
theorem InsertsInto.succsOf_of_follows {n m' : StmtId}
    (hm' : m' ∈ (y.program.view d).succsOf (I.renumber n))
    (hinner : ¬ (m' = I.nop ∧ d = I.side.opposite ∧ I.AtBoundary x.program)) :
    (x.program.view d).succsOf n ≠ [] ∧
      ∀ m, I.Follows x.program y.program d m' m → m ∈ (x.program.view d).succsOf n := by
  rcases h.program.cases_succsOf hp' hm' with rfl | ⟨m₁, rfl⟩
  · constructor
    -- seen from its own side the new statement has the successors of the anchor
    · rcases Direction.eq_or_eq_opposite I.side d with rfl | rfl
      · exact List.ne_nil_of_mem (h.program.taken hm')
      · intro hnone
        obtain rfl := (h.program.nop_mem_succsOf_opposite hp').mp hm'
        exact hinner ⟨rfl, rfl, Or.inr hnone⟩
    -- a statement that follows is itself a successor, follows the new one, or is the anchor at an
    -- exit
    · rintro m (heq | ⟨-, hsucc | ⟨rfl, hd, hexit⟩⟩)
      · exact absurd heq.symm (h.program.fresh m)
      · exact h.program.succsOf_of_nop hp hp' hm' hsucc
      · rw [hd] at hexit
        exact absurd ⟨rfl, hd, Or.inl hexit⟩ hinner
  -- any other successor is an old statement, and was one before
  · have hm := h.program.succsOf_of_renumber hp hp' hm'
    refine ⟨List.ne_nil_of_mem hm, ?_⟩
    intro m hfollows
    rw [(follows_renumber h.program).mp hfollows]
    exact hm

/-- Facts of the new run at old statements are there in the old one. -/
def InsertsInto.pull : Bridge (renumbering I.renumber).converse y x c' c where
  stands := I.Follows x.program y.program
  leaves d n' n := (x.program.view d).isExit n = true ∧ n' = I.front d.opposite n
  twin := h.twin_converse hp hp' (hneutral.isQuiet h.program)
  built := hp'
  fixed := hfixed
  self hn := Or.inl hn
  call := by
    intro n' hcall
    obtain ⟨b, hb, -⟩ := (Option.any_eq_true _ _).mp hcall
    rcases h.program.only (Program.has_of_stmt? hb) with rfl | ⟨n, rfl⟩
    · rw [h.program.isCall_nop] at hcall
      cases hcall
    · exact ⟨n, rfl⟩
  step := by
    intro d n' m' hm'
    rcases h.program.only (hp'.has_of_succsOf hm') with rfl | ⟨n, rfl⟩
    · -- the new statement is skipped
      obtain ⟨a, -, hnop⟩ := h.program.added
      refine Or.inr ⟨?_, ?_⟩
      · intro b hb
        cases hnop.symm.trans hb
        rfl
      · intro e k hheld hnode hk t ht
        have htaint := taints_renumbering_converse.mp ht
        refine ⟨Setup.idles_of_idles hnop (idles_nop a.method) ?_, ?_⟩
        · rw [htaint]
          exact h.not_awaits_nop
        · intro hreaches n hn
          rcases h.program.cases_succsOf hp' hm' with rfl | ⟨m, rfl⟩
          · exact absurd hm' (h.program.nop_not_mem_succsOf_nop hp')
          · rw [(follows_renumber h.program).mp hn]
            exact hreaches m (Or.inr ⟨rfl, Or.inl hm'⟩)
    · by_cases hedge : m' = I.nop ∧ d = I.side.opposite ∧ I.AtBoundary x.program
      · -- at the edge of a body the anchor is skipped
        obtain ⟨rfl, rfl, hboundary⟩ := hedge
        obtain rfl := (h.program.nop_mem_succsOf_opposite hp').mp hm'
        obtain ⟨a, ha, -⟩ := h.program.added
        have hidles := hneutral hboundary a ha
        have hacts := Setup.acts_of_idles hidles
        have hstmt := h.stmt_renumber ha
        refine Or.inr ⟨?_, ?_⟩
        · intro b hb
          cases hstmt.symm.trans hb
          exact hacts
        · intro e k hheld hnode hk t ht
          have htaint := taints_renumbering_converse.mp ht
          have hawaits : ¬ e.fact.taint.Awaits (I.renumber I.anchor) :=
            (hpends' hheld).2.2.awaits hstmt hacts
          refine ⟨Setup.idles_of_idles hstmt ?_ hawaits, ?_⟩
          · rw [h.idles_renumber ha]
            exact hidles
          · rintro hreaches n (heq | ⟨-, hsucc | ⟨rfl, -⟩⟩)
            · exact absurd heq.symm (h.program.fresh n)
            · rw [htaint, h.awaits_renumber] at hawaits
              exact hfixed.holds_of_idles ha hidles hawaits
                (h.program.succsOf_of_nop hp hp' hm' hsucc) (hreaches _ (Or.inl rfl))
            · exact hreaches _ (Or.inl rfl)
      · obtain ⟨hne, hnext⟩ := h.succsOf_of_follows hp hp' hm' hedge
        exact Or.inl ⟨n, rfl, hne, fun _ _ hall m hm => hall m (hnext m hm)⟩
  start := by
    intro d m s' hs'
    obtain ⟨s, hs, rfl⟩ := (h.program.mem_startsOf hp hp').mp hs'
    refine ⟨⟨s, hs⟩, ?_⟩
    intro k t _ _ hall n hn
    rw [eq_of_follows_front h.program hn]
    exact hall s hs
  exit := by
    intro d e k t hheld hexit _ _ hreaches
    obtain ⟨s, hs⟩ := h.program.exists_of_isExit hp' (hpends' hheld).1 hexit
    rw [hs, h.program.isExit_front hp hp'] at hexit
    refine ⟨s, ⟨hexit, hs⟩, hreaches s ?_⟩
    rw [hs]
    exact follows_exit hexit
  left := by
    rintro d _ n ⟨hexit, rfl⟩
    exact ⟨hexit, exits_converse (h.exits_front hneutral hexit), h.ownerOf_front.symm⟩
  caller := by
    intro m s' hs'
    obtain ⟨s, hs, rfl⟩ := (h.program.mem_callersOf hp hp').mp hs'
    exact ⟨s, rfl, hs⟩
  uncalled := by
    intro m hnone
    apply List.eq_nil_iff_forall_not_mem.mpr
    intro s hs
    have hs' := (h.program.mem_callersOf hp hp').mpr ⟨s, hs, rfl⟩
    rw [hnone] at hs'
    cases hs'
  fits := by
    intro d e q _ hq
    refine fits_of_path eq_comm ?_ h.most_eq.symm h.native.2 h.native.1 hq
    rw [h.most_eq]
    exact lawful_converse h.program

end Insertion

/-! ## Letting exits out -/

/-- Everything by which the exit edge `e` leaves its method for every caller is in the extent. -/
def Extent.LetsOut (E : Extent) (x : Setup) (d : Direction) (e : Edge Fact Taint) : Prop :=
  ∀ q l, Release (x.problem d) e q l → E.TakesIn x d q e.fact l

namespace Coupled

/-- The edges in the tables and the pairs in the log, read along a renumbering. -/
def extentAlong (ρ : StmtId → StmtId) (c : Coupled) : Extent where
  edges d := {e | c.Holds d (e.renumber ρ)}
  pairs := {r | c.findings.containsFlow (ρ r.1) (ρ r.2) = true}

/-- Along the renumbering the tables agree, and the pairs of sink and source are the same. -/
structure AgreesAlong (ρ : StmtId → StmtId) (c c' : Coupled) : Prop where
  holds : ∀ d e, c'.Holds d (e.renumber ρ) ↔ c.Holds d e
  findings : ∀ sink' source', c'.findings.containsFlow sink' source' = true ↔
    ∃ sink source, sink' = ρ sink ∧ source' = ρ source ∧
      c.findings.containsFlow sink source = true

/-- Along the renumbering the runs let out the same of the exits that both of them reach. -/
def LetsOutAlikeAlong (ρ : StmtId → StmtId) (x : Setup) (c c' : Coupled) : Prop :=
  ∀ d e, (x.program.view d).isExit e.node = true → c.Holds d e → c'.Holds d (e.renumber ρ) →
    (c.extent.LetsOut x d e ↔ (c'.extentAlong ρ).LetsOut x d e)

theorem AgreesAlong.extent_eq {ρ : StmtId → StmtId} (hρ : Function.Injective ρ) {c c' : Coupled}
    (h : AgreesAlong ρ c c') : c'.extentAlong ρ = c.extent := by
  have hpairs : ∀ r : StmtId × StmtId, c'.findings.containsFlow (ρ r.1) (ρ r.2) = true ↔
      c.findings.containsFlow r.1 r.2 = true := by
    intro r
    rw [h.findings]
    constructor
    · rintro ⟨sink, source, hsink, hsource, hflow⟩
      rw [hρ hsink, hρ hsource]
      exact hflow
    · intro hflow
      exact ⟨r.1, r.2, rfl, rfl, hflow⟩
  unfold extentAlong extent
  simp only [h.holds, hpairs]

/-- Leaving a method meets no fault where facts stand at statements of the program. -/
theorem fault_of_release {x : Setup} (hp : x.program.Built) {d : Direction} {e : Edge Fact Taint}
    (hnode : x.program.Has e.node) (hpends : x.Pends e.fact.taint)
    (hexit : (x.program.view d).isExit e.node = true) {q : Query} {l : Landing Taint}
    (hrel : Release (x.problem d) e q l) : (x.reply d q e.fact).fault = none := by
  have he : e ∈ (x.program.edgesWith fun _ => True).edges d := ⟨hnode, trivial, trivial⟩
  have howes : (x.program.edgesWith fun _ => True).Owes x d q e.fact l :=
    Owed.release rfl ⟨he, he⟩ hexit hrel
  have hfound : ∀ fault, q.flowEdge.LooksUp fault → ¬ x.program.Lacks fault :=
    fun _ hlooks => howes.found hp (fun _ he => he.1) hlooks
  have hleaves : ∃ call m exit, q.flowEdge = .leave call m exit := by
    cases hrel with
    | toCaller _ _ => exact ⟨_, _, _, rfl⟩
    | departure _ => exact ⟨_, _, _, rfl⟩
  -- what could be missing is a statement that is looked up or the unit of the fact
  apply Option.eq_none_iff_forall_not_mem.mpr
  intro fault hfault
  cases d with
  | forward =>
    rw [Setup.reply_forward] at hfault
    have hwhy := (Forward.within_react q.flowEdge).fault fault hfault
    obtain ⟨call, m, exit, hedge⟩ := hleaves
    rw [hedge] at hfound hwhy
    cases hwhy with
    | lacking hlooks hlacks => exact hfound fault hlooks hlacks
    | stray _ hstray hnone =>
      obtain ⟨a, ha, -⟩ := hpends.unit _ (Forward.unit_leaving hstray)
      cases ha.symm.trans hnone
  | backward =>
    rw [Setup.reply_backward] at hfault
    obtain ⟨hlooks, hlacks⟩ := (Backward.within_react q.flowEdge).fault fault hfault
    exact hfound fault hlooks hlacks

end Coupled

/-! ## Whole runs -/

namespace Insertion

variable {I : Insertion} {x y : Setup} (h : I.InsertsInto x y) (hp : x.program.Built)
  (hp' : y.program.Built) (hneutral : I.Neutral x)

include h in
theorem InsertsInto.ignoresBookkeeping :
    x.native.IgnoresBookkeeping ∧ y.native.IgnoresBookkeeping := by
  rw [h.native.1, h.native.2]
  exact ⟨NativeModel.conservative_ignoresBookkeeping, NativeModel.conservative_ignoresBookkeeping⟩

theorem InsertsInto.image_push {c c' : Coupled}
    (hpends : ∀ {d e}, c.Holds d e → x.program.Has e.node ∧ x.Pends e.context ∧
      x.Pends e.fact.taint)
    (hfixed' : Coupled.IsFixedPoint y c') :
    (h.push hp hp' hneutral hpends hfixed').image = c'.extentAlong I.renumber := by
  unfold Bridge.image Coupled.extentAlong
  congr 1
  -- every taint has one counterpart, so being covered by the image is being held
  · funext d
    ext e
    constructor
    · rintro ⟨k, t, hk, ht, hreaches⟩
      obtain rfl := taints_renumbering.mp hk
      obtain rfl := taints_renumbering.mp ht
      exact hreaches _ rfl
    · intro hheld
      refine ⟨_, _, taints_renumbering.mpr rfl, taints_renumbering.mpr rfl, ?_⟩
      rintro _ rfl
      exact hheld
  · ext r
    constructor
    · rintro ⟨_, _, rfl, rfl, hflow⟩
      exact hflow
    · intro hflow
      exact ⟨_, _, rfl, rfl, hflow⟩

variable {entries : List MethodId} {starts starts' : List StmtId}
  {R R' : Direction → Set (Edge Fact Taint)} {c c' : Coupled}
  (hstarts : x.entryPoints entries = .ok starts) (hstarts' : y.entryPoints entries = .ok starts')
  (hsettles : Coupled.Settles x starts R c) (hsettles' : Coupled.Settles y starts' R' c')

include h hp hp' hneutral hstarts hstarts' hsettles hsettles'

/-- The old run is inside the new one if that lets out what it lets out. -/
theorem InsertsInto.covered (hout : ∀ d e, (x.program.view d).isExit e.node = true → c.Holds d e →
      c'.Holds d (e.renumber I.renumber) → c.extent.LetsOut x d e →
      (c'.extentAlong I.renumber).LetsOut x d e) :
    (∀ d e, c.Holds d e → c'.Holds d (e.renumber I.renumber)) ∧ ∀ sink source,
      c.findings.containsFlow sink source = true →
      c'.findings.containsFlow (I.renumber sink) (I.renumber source) = true := by
  have hknown := Setup.has_of_entryPoints hp hstarts
  let B := h.push hp hp' hneutral (hsettles.pends hp h.native.1 hknown) hsettles'.fixed
  have himage : B.image = c'.extentAlong I.renumber := h.image_push hp hp' hneutral _ _
  have hcontains : B.extent.Contains c := by
    refine B.contains hsettles h.ignoresBookkeeping.1
      (B.reaches_starts hstarts hstarts' hsettles'.started) ?_
    -- the run is over, so what is let out is all in the table already
    rintro d e he ⟨hheld, hmem⟩ hexit
    rw [himage] at hmem ⊢
    exact hout d e hexit hheld hmem fun q l hrel => (hsettles.letsOut d e he hexit q l hrel).takesIn
  constructor
  · intro d e hheld
    obtain ⟨g, hg, htaint⟩ := hheld.exists_edge (hsettles.fixed.coherent d)
    obtain ⟨-, hmem⟩ := hcontains.edges d _ hg
    rw [himage] at hmem
    have hholds : c'.Holds d (Edge.renumber I.renumber ⟨e.context, e.node, g⟩) := hmem
    unfold Coupled.Holds Edge.renumber at hholds ⊢
    dsimp only at hholds ⊢
    rw [htaint] at hholds
    exact hholds
  · intro sink source hflow
    obtain ⟨r, hr, rfl, rfl⟩ := Coupled.exists_of_containsFlow hflow
    have hpair := hcontains.pairs r hr
    change _ ∈ B.image.pairs at hpair
    rw [himage] at hpair
    exact hpair

/-- The new run is inside the old one, if that is inside the new one and lets out what it lets
out. -/
theorem InsertsInto.covers (hcovered : ∀ d e, c.Holds d e → c'.Holds d (e.renumber I.renumber))
    (hout : ∀ d e, (x.program.view d).isExit e.node = true → c.Holds d e →
      c'.Holds d (e.renumber I.renumber) → (c'.extentAlong I.renumber).LetsOut x d e →
      c.extent.LetsOut x d e) :
    (∀ d e, c'.Holds d (e.renumber I.renumber) → c.Holds d e) ∧ ∀ sink' source',
      c'.findings.containsFlow sink' source' = true →
      ∃ sink source, sink' = I.renumber sink ∧ source' = I.renumber source ∧
        c.findings.containsFlow sink source = true := by
  have hknown := Setup.has_of_entryPoints hp hstarts
  have hknown' := Setup.has_of_entryPoints hp' hstarts'
  let B := h.push hp hp' hneutral (hsettles.pends hp h.native.1 hknown) hsettles'.fixed
  have himage : B.image = c'.extentAlong I.renumber := h.image_push hp hp' hneutral _ _
  let B' := h.pull hp hp' hneutral (hsettles'.pends hp' h.native.2 hknown') hsettles.fixed
  have hcontains : B'.extent.Contains c' := by
    refine B'.contains hsettles' h.ignoresBookkeeping.2
      (B'.reaches_starts hstarts' hstarts hsettles.started) ?_
    intro d e' he' hmem' hexit' q' l' hrel'
    -- the exit of the old run, and that what the new run lets out is let out there
    obtain ⟨k, n, g, hleaves, hk, hg, hedge⟩ := B'.exists_exit hmem' hexit'
    have hheld : c.Holds d ⟨k, n, g⟩ := (hsettles.fixed.coherent d).holds_of_mem hedge
    have hexit : (x.program.view d).isExit n = true := hleaves.1
    have hheld' := hcovered d _ hheld
    have hmem : (⟨k, n, g⟩ : Edge Fact Taint) ∈ B.extent.edges d := by
      refine ⟨hheld, ?_⟩
      rw [himage]
      exact hheld'
    have hletsOut : (c'.extentAlong I.renumber).LetsOut x d ⟨k, n, g⟩ := by
      intro q l hrel
      rw [← himage]
      exact B.takesIn_release hmem hleaves (taints_converse.mp hk) (taints_converse.mp hg)
        (hsettles'.letsOut d e' he' hexit') hrel
    have hletsOut' := hout d _ hexit hheld hheld' hletsOut
    obtain ⟨hnode, -, hpends⟩ := hsettles.pends hp h.native.1 hknown hheld
    refine B'.takesIn_release hmem' hleaves hk hg ?_ hrel'
    intro q l hrel
    obtain ⟨hfacts, hhanded, hfindings⟩ := hletsOut' q l hrel
    exact ⟨Coupled.fault_of_release hp hnode hpends hexit hrel, hfacts, hhanded, hfindings⟩
  constructor
  · intro d e hheld
    obtain ⟨g, hg, htaint⟩ := hheld.exists_edge (hsettles'.fixed.coherent d)
    obtain ⟨-, k, t, hk, ht, hreaches⟩ := hcontains.edges d _ hg
    -- a taint is the only counterpart of its renumbered self
    have hself : ∀ u : Taint,
        (renumbering I.renumber).converse.Taints (u.renumber I.renumber) u :=
      fun _ => taints_renumbering_converse.mpr rfl
    have hlawful : (renumbering I.renumber).converse.Lawful x.most x.most :=
      lawful_converse h.program
    rw [htaint] at ht
    obtain rfl := Taints.functional hlawful hk (hself e.context)
    obtain rfl := Taints.functional hlawful ht (hself e.fact.taint)
    exact hreaches e.node (Or.inl rfl)
  · intro sink' source' hflow
    -- findings are pairs of statements, so their renumbering is all there is to compare
    obtain ⟨r, hr, rfl, rfl⟩ := Coupled.exists_of_containsFlow hflow
    exact hcontains.pairs r hr

theorem InsertsInto.agreesAlong_iff : Coupled.AgreesAlong I.renumber c c' ↔
    Coupled.LetsOutAlikeAlong I.renumber x c c' := by
  constructor
  · intro hagrees d e _ _ _
    rw [hagrees.extent_eq h.program.injective]
  · intro halike
    -- first the old run is found in the new one, with whose help the converse is shown
    obtain ⟨hholds, hflows⟩ := h.covered hp hp' hneutral hstarts hstarts' hsettles hsettles'
      fun d e hexit hheld hheld' => (halike d e hexit hheld hheld').mp
    obtain ⟨hholds', hflows'⟩ := h.covers hp hp' hneutral hstarts hstarts' hsettles hsettles' hholds
      fun d e hexit hheld hheld' => (halike d e hexit hheld hheld').mpr
    refine ⟨fun d e => ⟨hholds' d e, hholds d e⟩, ?_⟩
    intro sink' source'
    constructor
    · exact hflows' sink' source'
    · rintro ⟨sink, source, rfl, rfl, hflow⟩
      exact hflows sink source hflow

end Insertion

/-- Inserting a statement without an effect, between two statements or at the edge of a body beside
another one without an effect, leaves tables and findings unchanged up to the numbers of statements
if and only if the same exits are let out. -/
theorem analyze_agreesAlong_iff {x y : Setup} {I : Insertion} (hp : x.program.Built)
    (hp' : y.program.Built) (h : I.InsertsInto x y) (hneutral : I.Neutral x)
    (hstop : x.settings.stopAfterFirstFlow = false) (hmax : x.settings.maxPropagations = 0)
    {entries : List MethodId} {fuel fuel' : Nat} {out out' : Outcome}
    (hrun : x.analyze entries fuel = .ok out) (hrun' : y.analyze entries fuel' = .ok out') :
    Coupled.AgreesAlong I.renumber out.final out'.final ↔
      Coupled.LetsOutAlikeAlong I.renumber x out.final out'.final := by
  obtain ⟨hignores, hignores'⟩ := h.ignoresBookkeeping
  obtain ⟨starts, R, hstarts, hsettles⟩ := Setup.exists_settles hp hignores hstop hmax hrun
  rw [← h.settings] at hstop hmax
  obtain ⟨starts', R', hstarts', hsettles'⟩ := Setup.exists_settles hp' hignores' hstop hmax hrun'
  exact h.agreesAlong_iff hp hp' hneutral hstarts hstarts' hsettles hsettles'

/-- Where nothing is called and nothing returned, there is nothing to let out. -/
theorem Extent.letsOut_of_uncalled {x : Setup} (hp : x.program.Built)
    (hcallees : ∀ row ∈ x.program.callees, row = [])
    (hquiet : ∀ a ∈ x.program.stmts, a.action.acts = true ∨ x.idles .forward a = true) (E : Extent)
    (d : Direction) (e : Edge Fact Taint) : E.LetsOut x d e := by
  have hcallers : ∀ m, x.program.callersOf m = [] := by
    intro m
    apply List.eq_nil_iff_forall_not_mem.mpr
    intro call hcall
    have hcallee := hp.mem_calleesOf_of_mem_callersOf hcall
    rw [Program.calleesOf_eq_nil hcallees] at hcallee
    cases hcallee
  have hreturns : ∀ s a, x.program.stmt? s = some a → a.IsQuiet .forward := by
    intro s a ha
    rcases hquiet a (Program.mem_stmts ha) with hacts | hidles
    · intro v haction
      rw [haction] at hacts
      cases hacts
    · exact Setup.isQuiet_of_idles hidles
  -- without callers a fact leaves into nothing, and there only a return could be reported
  intro q l hrel
  cases hrel with
  | toCaller hcaller _ =>
    change _ ∈ (x.program.view d).callersOf _ at hcaller
    rw [Program.callersOf_view, hcallers] at hcaller
    cases hcaller
  | departure _ =>
    refine ⟨nofun, ?_, ?_⟩
    · intro h hh
      have hnone := Setup.handed_departure (x := x) (d := d) (f := e.fact)
        ((x.problem d).view.ownerOf e.node) e.node
      change h ∈ (x.react d false (.leave none _ _) e.fact).handed at hh
      rw [hnone] at hh
      cases hh
    · intro r hr
      cases d with
      | forward =>
        rw [Setup.reply_forward] at hr
        cases (Forward.within_react _).findings r hr with
        | left hs haction _ _ _ _ => exact absurd haction (hreturns _ _ hs _)
      | backward =>
        rw [Setup.reply_backward] at hr
        exact ((Backward.within_react _).findings r hr).elim

/-! A secret is stored through one name of an object and read through another. -/

def secondName (nops : Nat) : List Description :=
  let object (name : String) : Local := ⟨⟨0⟩, name, .object "Box"⟩
  let text (name : String) : Value := .local ⟨⟨0⟩, name, .string⟩
  let secret : FieldRef := ⟨"Box", "secret"⟩
  .method "<A: void main()>" true false :: List.replicate nops (.statement ⟨0⟩ .nop) ++
  [.statement ⟨0⟩ (.assign (.local (object "q")) (.local (object "p"))),
    .statement ⟨0⟩ (.assign (text "x") (.invoke none ⟨"Sec", "String", "get", []⟩ [])),
    .statement ⟨0⟩ (.assign (.field (object "p") secret) (text "x")),
    .statement ⟨0⟩ (.assign (text "y") (.field (object "q") secret)),
    .statement ⟨0⟩ (.invoke ⟨none, ⟨"Net", "void", "send", ["String"]⟩, [text "y"]⟩),
    .statement ⟨0⟩ (.return none)]

/-- The analysis of secrets that are sent, for a program that is described. -/
def sendingSetup (steps : List Description) : Setup where
  program := (Program.ofDescription steps).toOption.getD ⟨#[], #[], #[], #[], #[], #[]⟩
  classifier := MethodLists.classifier
    { sources := [⟨"Sec", "String", "get", []⟩], sinks := [⟨"Net", "void", "send", ["String"]⟩] }

/-- A second statement without an effect before the first. -/
theorem analyze_agreesAlong_iff_secondName : ∃ out out',
    (sendingSetup (secondName 1)).analyze [⟨0⟩] 40 = .ok out ∧
    (sendingSetup (secondName 2)).analyze [⟨0⟩] 40 = .ok out' ∧
    Coupled.LetsOutAlikeAlong (StmtId.makeRoom 0) (sendingSetup (secondName 1)) out.final
      out'.final ∧
    Coupled.AgreesAlong (StmtId.makeRoom 0) out.final out'.final ∧
    out.final.findings.containsFlow ⟨5⟩ ⟨2⟩ = true ∧
    out'.final.findings.containsFlow ⟨6⟩ ⟨3⟩ = true := by
  have hold : ((sendingSetup (secondName 1)).analyze [⟨0⟩] 40).toOption.any (fun out =>
      out.final.findings.containsFlow ⟨5⟩ ⟨2⟩) = true := by
    decide +kernel
  have hnew : ((sendingSetup (secondName 2)).analyze [⟨0⟩] 40).toOption.any (fun _ => true) =
      true := by
    decide +kernel
  obtain ⟨out, hout, hflow⟩ := exists_of_any_toOption hold
  obtain ⟨out', hout', -⟩ := exists_of_any_toOption hnew
  have hp : (sendingSetup (secondName 1)).program.Built := ⟨secondName 1, rfl⟩
  have hp' : (sendingSetup (secondName 2)).program.Built := ⟨secondName 2, rfl⟩
  have hinserts : (Insertion.numbered .forward ⟨0⟩ 0).Inserts (sendingSetup (secondName 1)).program
      (sendingSetup (secondName 2)).program := by
    refine Insertion.inserts_numbered hp hp' (by decide +kernel) (by decide +kernel)
      (by decide +kernel) (by decide +kernel) (by decide +kernel) ?_ (by decide +kernel)
      (by decide +kernel) (by decide +kernel) (by decide +kernel) nofun
    exact ⟨⟨⟨0⟩, ⟨0⟩, .nop⟩, by decide +kernel, by decide +kernel⟩
  have hinto : (Insertion.numbered .forward ⟨0⟩ 0).InsertsInto (sendingSetup (secondName 1))
      (sendingSetup (secondName 2)) :=
    Insertion.insertsInto_of_lists hinserts rfl rfl rfl (Or.inl ⟨rfl, rfl⟩) ⟨rfl, rfl⟩
  have hneutral : (Insertion.numbered .forward ⟨0⟩ 0).Neutral (sendingSetup (secondName 1)) := by
    have hfirst : (sendingSetup (secondName 1)).program.stmt? ⟨0⟩ = some ⟨⟨0⟩, ⟨0⟩, .nop⟩ := by
      decide +kernel
    intro _ a ha
    cases hfirst.symm.trans ha
    rfl
  have hletsOut : ∀ E d e, Extent.LetsOut E (sendingSetup (secondName 1)) d e :=
    Extent.letsOut_of_uncalled hp (by decide +kernel) (by decide +kernel)
  have halike : Coupled.LetsOutAlikeAlong (StmtId.makeRoom 0) (sendingSetup (secondName 1))
      out.final out'.final :=
    fun d e _ _ _ => ⟨fun _ => hletsOut _ d e, fun _ => hletsOut _ d e⟩
  have hagrees := (analyze_agreesAlong_iff hp hp' hinto hneutral rfl rfl hout hout').mpr halike
  refine ⟨out, out', hout, hout', halike, hagrees, hflow, ?_⟩
  exact (hagrees.findings _ _).mpr ⟨⟨5⟩, ⟨2⟩, rfl, rfl, hflow⟩

/-! A secret is sent by the last statement. -/

def lastSend (nops : Nat) : List Description :=
  let text (name : String) : Value := .local ⟨⟨0⟩, name, .string⟩
  [.method "<A: void main()>" true false,
    .statement ⟨0⟩ (.assign (text "x") (.invoke none ⟨"Sec", "String", "get", []⟩ [])),
    .statement ⟨0⟩ (.invoke ⟨none, ⟨"Net", "void", "send", ["String"]⟩, [text "x"]⟩)] ++
  List.replicate nops (.statement ⟨0⟩ .nop)

/-! `main` has `fill` put a secret into a box and sends it. The last statement of `fill` is a branch
back, and there is nothing that it could fall through to. -/

def fallingOff (nops : Nat) : List Description :=
  let box (m : Nat) (name : String) : Local := ⟨⟨m⟩, name, .object "Box"⟩
  let text (m : Nat) (name : String) : Value := .local ⟨⟨m⟩, name, .string⟩
  let secret : FieldRef := ⟨"Box", "secret"⟩
  [.method "<A: void main()>" true false, .method "<A: void fill(Box)>" true false,
    .statement ⟨0⟩ .nop,
    .statement ⟨0⟩ (.assign (.local (box 0 "o")) (.new "Box")),
    .statement ⟨0⟩ (.invoke ⟨none, ⟨"A", "void", "fill", ["Box"]⟩, [.local (box 0 "o")]⟩),
    .statement ⟨0⟩ (.assign (text 0 "y") (.field (box 0 "o") secret)),
    .statement ⟨0⟩ (.invoke ⟨none, ⟨"Net", "void", "send", ["String"]⟩, [text 0 "y"]⟩),
    .statement ⟨0⟩ (.return none),
    .statement ⟨1⟩ (.identity (box 1 "p") (.parameter 0)),
    .statement ⟨1⟩ (.assign (text 1 "x") (.invoke none ⟨"Sec", "String", "get", []⟩ [])),
    .statement ⟨1⟩ (.assign (.field (box 1 "p") secret) (text 1 "x")),
    .statement ⟨1⟩ (.branch (text 1 "x"))] ++
  List.replicate nops (.statement ⟨1⟩ .nop) ++ [.edge ⟨9⟩ ⟨8⟩]

/-- The analysis misses a flow in one program and finds it in another. -/
def GainsFlow (steps steps' : List Description) (entries : List MethodId)
    (sink source sink' source' : StmtId) : Prop :=
  (sendingSetup steps').FindsBeyond (sendingSetup steps) entries 40 sink' source' sink source

/-- A statement without an effect brings a flow to light before a first statement with an effect,
after a last one, after a last branch, and where it delays a call until its callee has been left. -/
theorem nop_gains_flows :
    GainsFlow (secondName 0) (secondName 1) [⟨0⟩] ⟨4⟩ ⟨1⟩ ⟨5⟩ ⟨2⟩ ∧
    GainsFlow (lastSend 0) (lastSend 1) [⟨0⟩] ⟨1⟩ ⟨0⟩ ⟨1⟩ ⟨0⟩ ∧
    GainsFlow (fallingOff 0) (fallingOff 1) [⟨0⟩] ⟨4⟩ ⟨7⟩ ⟨4⟩ ⟨7⟩ ∧
    GainsFlow unusedCaller (unusedCaller.insertIdx 7 (.statement ⟨1⟩ .nop)) [⟨0⟩, ⟨1⟩]
      ⟨8⟩ ⟨0⟩ ⟨9⟩ ⟨0⟩ := by
  refine ⟨?_, ?_, ?_, ?_⟩
  · exact Setup.findsBeyond_of_runs (by decide +kernel) (by decide +kernel)
  · exact Setup.findsBeyond_of_runs (by decide +kernel) (by decide +kernel)
  · exact Setup.findsBeyond_of_runs (by decide +kernel) (by decide +kernel)
  · exact Setup.findsBeyond_of_runs (by decide +kernel) (by decide +kernel)

end TaintFlow
