import TaintFlow.Proofs.Analysis.Batching
import TaintFlow.Proofs.Analysis.Termination
import TaintFlow.Proofs.Flow.Twin

/-!
# One analysis inside another

Two analyses that are twins need not take the same way through their programs: one of them may pass
a statement that the other does not have. A `Bridge` says at which statements of the second analysis
the facts of the first have to turn up, and that they do so whenever a step of the first is taken.

The edges of the first run with counterparts in the tables of the second run are then closed under
everything that the first run owes, apart from letting exits out. So if they are closed under that
as well, the first run is inside the second (`Bridge.contains`).
-/

namespace TaintFlow

open Tabulation Correspondence

/-- Assignments and calls change what a fact is about; other statements do not. -/
def Action.acts : Action → Bool
  | .assign _ _ | .invoke _ => true
  | _ => false

theorem Action.acts_of_call? {a : Action} {invocation : Invocation}
    (h : a.call? = some invocation) : a.acts = true := by
  cases a with
  | assign target source => rfl
  | invoke call => rfl
  | _ => cases h

namespace Setup

variable {x : Setup} {d : Direction} {f : Fact} {h : StmtId × Fact}

theorem CallAt.acts {call : StmtId} {stmt : Stmt} {invocation : Invocation}
    (h : x.CallAt call stmt invocation) : stmt.action.acts = true :=
  Action.acts_of_call? h.calls

/-- Facts are handed over around an assignment or a call, in the direction of the other side. -/
theorem site_of_handed (hp : x.program.Built) {edge : FlowEdge}
    (hh : h ∈ (x.react d false edge f).handed) :
    h.1 ∈ (x.program.view d.opposite).succsOf (edge.site d) ∧
      ∃ a, x.program.stmt? (edge.site d) = some a ∧ a.action.acts = true := by
  -- only assignments and calls hand facts over, whichever way a fact comes to them
  cases d with
  | forward =>
    cases (Forward.within_react edge).handed h hh with
    | assigned hs haction _ _ _ _ hpred =>
      rw [hp.id_eq hs] at hpred
      exact ⟨hpred, _, hs, by rw [haction]; rfl⟩
    | returned hcall _ hpred =>
      rw [hp.id_eq hcall.known] at hpred
      exact ⟨hpred, _, hcall.known, hcall.acts⟩
    | modelled hcall _ _ _ _ _ hpred =>
      rw [hp.id_eq hcall.known] at hpred
      exact ⟨hpred, _, hcall.known, hcall.acts⟩
  | backward =>
    cases (Backward.within_react edge).handed h hh with
    | moved hs _ hmoves hsucc =>
      rw [hp.id_eq hs] at hsucc
      obtain ⟨haction, -, -⟩ := hmoves
      exact ⟨hsucc, _, hs, by rw [haction]; rfl⟩
    | left hs _ hmoves hsucc =>
      rw [hp.id_eq hs] at hsucc
      obtain ⟨haction, -, -⟩ := hmoves
      exact ⟨hsucc, _, hs, by rw [haction]; rfl⟩

/-- No fact is handed over when a method is left for good. -/
theorem handed_departure (m : MethodId) (e : StmtId) :
    (x.react d false (.leave none m e) f).handed = [] := by
  cases d with
  | forward =>
    apply List.eq_nil_iff_forall_not_mem.mpr
    intro p hp
    cases (Forward.within_react (.leave none m e)).handed p hp
  | backward => rfl

theorem handed_of_isQuiet {call : Option StmtId} {m : MethodId} {e : StmtId}
    (hquiet : ∀ a, x.program.stmt? e = some a → a.IsQuiet .backward) :
    (x.react .backward false (.leave call m e) f).handed = [] := by
  apply List.eq_nil_iff_forall_not_mem.mpr
  intro p hp
  cases (Backward.within_react (.leave call m e)).handed p hp with
  | left hs _ hmoves _ =>
    obtain ⟨haction, -, -⟩ := hmoves
    exact hquiet _ hs _ _ haction

/-- The statement hands the fact on as it is. -/
def Idles (x : Setup) (d : Direction) (n : StmtId) (f : Fact) : Prop :=
  ∃ g, x.react d false (.normal n) f = .pass [g] ∧ g.taint = f.taint

end Setup

/-- The conservative native model takes corresponding facts to corresponding places, unless a place
that is new to the one fact is the place of the other. -/
theorem NativeModel.covers_conservative {K : Correspondence} {most most' : Nat}
    (hK : K.Lawful most most') {a b : Stmt} (hab : K.Stmts a b) {f g : Fact} (hfg : K.Facts f g)
    {args : List Value} (hnew : ∀ v p, (v ∈ args ∨ a.target? = some v) →
      AccessPath.ofValue? v = some p → p ≠ f.path → p ≠ g.path) :
    K.Covers (conservative a f args) (conservative b g args) := by
  have hwritten : written b g args = written a f args := by
    unfold written
    rw [hab.call?, (hfg.alike hK).isRootedAt]
  unfold conservative
  dsimp only
  rw [hwritten, hab.target?]
  apply Covers.distinct
  -- the places that a native call writes to are named by its operands, so their chains are short
  have hplace : ∀ p ∈ (written a f args ++ a.target?.toList).filterMap AccessPath.ofValue?,
      ∃ v, (v ∈ args ∨ a.target? = some v) ∧ AccessPath.ofValue? v = some p := by
    intro p hp
    obtain ⟨v, hv, hofValue⟩ := List.mem_filterMap.mp hp
    rcases List.mem_append.mp hv with hv | hv
    · exact ⟨v, Or.inl (mem_written hv), hofValue⟩
    · exact ⟨v, Or.inr (Option.mem_toList.mp hv), hofValue⟩
  refine covers_map ?_ ?_
  · intro p hp
    obtain ⟨hp, hne⟩ := List.mem_filter.mp hp
    obtain ⟨v, hv, hofValue⟩ := hplace p hp
    refine List.mem_filter.mpr ⟨hp, decide_eq_true ?_⟩
    exact hnew v p hv hofValue (of_decide_eq_true hne)
  · intro p hp
    obtain ⟨v, -, hofValue⟩ := hplace p (List.mem_filter.mp hp).1
    obtain ⟨field, hfield⟩ := AccessPath.exists_fields_ofValue? hofValue
    refine (hfg.moveTo (hK.short ?_)).visit a.id b.id
    rw [hfield]
    exact Option.length_toList_le

/-! ## Bridges -/

theorem Tabulation.Landing.fact_of_mem_edge? {l : Landing Taint} {f : Fact} {e : Edge Fact Taint}
    (he : e ∈ l.edge? Fact.taint f) : e.fact = f := by
  cases l with
  | nowhere => cases he
  | _ =>
    cases he
    rfl

/-- Something corresponds to the taint. -/
def Correspondence.Onto (K : Correspondence) (t : Taint) : Prop := ∃ u, K.Taints u t

namespace Coupled

/-- The table of the side `d` has the fact at every statement that stands for `n`. -/
def Reaches (c : Coupled) (stands : Direction → StmtId → StmtId → Prop) (d : Direction)
    (k t : Taint) (n : StmtId) : Prop :=
  ∀ n', stands d n n' → (c.state d).holds k n' t = true

end Coupled

variable (K : Correspondence) (x y : Setup) (c c' : Coupled)

/-- How the run of `x` that ended with `c` can be followed in `c'`, an end of a run of `y`. -/
structure Bridge where
  /-- The statements of `y` that a fact before this one has reached. -/
  stands : Direction → StmtId → StmtId → Prop
  /-- The exits of `y` by which a fact leaves that leaves by this one. -/
  leaves : Direction → StmtId → StmtId → Prop
  twin : x.Twin K y
  built : x.program.Built
  fixed : Coupled.IsFixedPoint y c'
  self : ∀ {d n n'}, K.stmt n n' → stands d n n'
  call : ∀ {n}, x.program.isCall n = true → ∃ n', K.stmt n n'
  /-- Every step is one of `y` as well, or it is at a statement that does nothing. -/
  step : ∀ {d n m}, m ∈ (x.program.view d).succsOf n →
    (∃ n', K.stmt n n' ∧ (y.program.view d).succsOf n' ≠ [] ∧ ∀ {k t}, K.Onto k → K.Onto t →
      (∀ m' ∈ (y.program.view d).succsOf n', (c'.state d).holds k m' t = true) →
      c'.Reaches stands d k t m) ∨
    (∀ a, x.program.stmt? n = some a → a.action.acts = false) ∧
    ∀ e k, c.Holds d e → e.node = n → K.Taints e.context k → ∀ t, K.Taints e.fact.taint t →
      x.Idles d n e.fact ∧ (c'.Reaches stands d k t n → c'.Reaches stands d k t m)
  start : ∀ {d m s}, s ∈ (x.program.view d).startsOf m →
    (∃ s', s' ∈ (y.program.view d).startsOf m) ∧ ∀ {k t}, K.Onto k → K.Onto t →
      (∀ s' ∈ (y.program.view d).startsOf m, (c'.state d).holds k s' t = true) →
      c'.Reaches stands d k t s
  exit : ∀ {d e k t}, c.Holds d e → (x.program.view d).isExit e.node = true →
    K.Taints e.context k → K.Taints e.fact.taint t → c'.Reaches stands d k t e.node →
    ∃ n', leaves d e.node n' ∧ (c'.state d).holds k n' t = true
  left : ∀ {d n n'}, leaves d n n' → (y.program.view d).isExit n' = true ∧ x.Exits K y d n n' ∧
    y.program.ownerOf n' = x.program.ownerOf n
  caller : ∀ {m s}, s ∈ x.program.callersOf m → ∃ s', K.stmt s s' ∧ s' ∈ y.program.callersOf m
  uncalled : ∀ {m}, x.program.callersOf m = [] → y.program.callersOf m = []
  fits : ∀ {d e q}, c.Holds d e → K.path e.fact.path q → x.Fits K y d e.node e.fact.path q

namespace Bridge

variable {K x y c c'} (B : Bridge K x y c c') {d : Direction}

/-- The edges and the pairs that have counterparts in the other run. -/
def image : Extent where
  edges d := {e | ∃ k t, K.Taints e.context k ∧ K.Taints e.fact.taint t ∧
    c'.Reaches B.stands d k t e.node}
  pairs := {r | ∃ sink source, K.stmt r.1 sink ∧ K.stmt r.2 source ∧
    c'.findings.containsFlow sink source = true}

/-- Those of them that are edges of the run itself. -/
def extent : Extent where
  edges d := {e | c.Holds d e ∧ e ∈ B.image.edges d}
  pairs := B.image.pairs

include B

theorem isCall {n n' : StmtId} (hn : K.stmt n n') (hknown : x.program.Has n) :
    (y.program.view d).isCall n' = (x.program.view d).isCall n := by
  obtain ⟨a, ha⟩ := Program.exists_stmt_of_has hknown
  obtain ⟨b, hb, hab⟩ := B.twin.stmts hn ha
  rw [Program.isCall_view, Program.isCall_view]
  unfold Program.isCall
  rw [ha, hb]
  exact congrArg Action.isCall hab.action

/-- An edge with a counterpart has it at the same statement. -/
theorem exists_edge {e : Edge Fact Taint} (he : e ∈ B.extent.edges d) {n' : StmtId}
    (hn : K.stmt e.node n') : ∃ k g, K.Taints e.context k ∧ K.Facts e.fact g ∧
      (⟨k, n', g⟩ : Edge Fact Taint) ∈ (c'.state d).edges := by
  obtain ⟨-, k, t, hk, ht, hreaches⟩ := he
  have hholds : c'.Holds d ⟨k, n', { taint := t }⟩ := hreaches n' (B.self hn)
  obtain ⟨g, hg, htaint⟩ := hholds.exists_edge (B.fixed.coherent d)
  refine ⟨k, g, hk, ?_, hg⟩
  unfold Facts
  rw [htaint]
  exact ht

/-- What twins make of corresponding facts corresponds, and so the reply has counterparts if its
facts land where they have some. -/
theorem takesIn {q q' : Query} {f g : Fact} {l l' : Landing Taint}
    (hy : Coupled.Absorbs y c' d q' g l')
    (hedge : x.Edges K y d q.flowEdge q'.flowEdge) (hfg : K.Facts f g)
    (hfits : x.Fits K y d q.flowEdge.node f.path g.path)
    (hsite : K.stmt (q.flowEdge.site d) (q'.flowEdge.site d) ∨ (x.reply d q f).handed = [])
    (hland : ∀ f' g', g' ∈ (y.reply d q' g).facts → K.Facts f' g' → ∀ e ∈ l.edge? Fact.taint f',
      ∃ k, K.Taints e.context k ∧ c'.Reaches B.stands d k g'.taint e.node) :
    B.image.TakesIn x d q f l := by
  -- the second run has met no fault here, so the two reactions mirror each other
  have hmirrors := B.twin.mirrors hedge hfg hfits hy.fault
  refine ⟨?_, ?_, ?_⟩
  · intro f' hf' e he
    obtain ⟨g', hg', hfg'⟩ := hmirrors.facts f' (Setup.answer_subset hf')
    obtain ⟨k, hk, hreaches⟩ := hland f' g' hg' hfg' e he
    refine ⟨k, g'.taint, hk, ?_, hreaches⟩
    rw [Landing.fact_of_mem_edge? he]
    exact hfg'
  · intro h hh
    -- whatever hands facts over acts, so a statement that is skipped cannot have done so
    rcases hsite with hsite | hnone
    · obtain ⟨g', hg', hmem⟩ := hmirrors.handed h hh
      obtain ⟨hsucc, a, ha, hacts⟩ := Setup.site_of_handed B.built hh
      rcases B.step hsucc with ⟨n', hn', -, hreaches⟩ | ⟨hidle, -⟩
      · obtain rfl : n' = q'.flowEdge.site d := (B.twin.lawful.unique hn' hsite).mpr rfl
        refine ⟨g'.taint, g'.taint, hg', hg', ?_⟩
        exact hreaches ⟨_, hg'⟩ ⟨_, hg'⟩ fun m' hm' => hy.handed _ (hmem m' hm')
      · rw [hidle a ha] at hacts
        cases hacts
    · rw [hnone] at hh
      cases hh
  · intro r hr
    obtain ⟨r', hr', hsink, hsource⟩ := hmirrors.findings r hr
    exact ⟨r'.sink, r'.source, hsink, hsource, hy.findings r' hr'⟩

/-! ## What is owed has counterparts -/

variable {e : Edge Fact Taint} (he : e ∈ B.extent.edges d)

include he

theorem fits_of_facts {f g : Fact} (hf : f.taint = e.fact.taint) (hfg : K.Facts f g) :
    x.Fits K y d e.node f.path g.path := by
  have hpath : f.path = e.fact.path := congrArg Taint.path hf
  rw [hpath]
  apply B.fits he.1
  rw [← hpath]
  exact hfg.path

theorem takesIn_normal {m : StmtId} (hcall : (x.program.view d).isCall e.node = false)
    (hm : m ∈ (x.program.view d).succsOf e.node) :
    B.image.TakesIn x d (.normal e.node m) e.fact (.within e.context m) := by
  -- the statement has a counterpart that goes on somewhere, or it does nothing and is skipped
  rcases B.step hm with ⟨n', hn', hbusy, hreaches⟩ | ⟨-, hidle⟩
  · obtain ⟨k, g, hk, hfg, hg⟩ := B.exists_edge he hn'
    have hcall' : (y.program.view d).isCall n' = false := by
      rw [B.isCall hn' (B.built.has_of_succsOf hm)]
      exact hcall
    have habsorbs : ∀ m' ∈ (y.program.view d).succsOf n',
        Coupled.Absorbs y c' d (.normal n' m') g (.within k m') :=
      fun m' hm' => B.fixed.absorbs d _ _ _
        (Owed.normal (P := y.problem d) (e := ⟨k, n', g⟩) hg hcall' hm')
    obtain ⟨m₀, hm₀⟩ := List.exists_mem_of_ne_nil _ hbusy
    refine B.takesIn (habsorbs m₀ hm₀) (.normal hn') hfg (B.fits_of_facts he rfl hfg)
      (Or.inl hn') ?_
    intro f' g' hg' hfg' e' he'
    cases he'
    exact ⟨k, hk, hreaches ⟨_, hk⟩ ⟨_, hfg'⟩ fun m' hm' => (habsorbs m' hm').facts g' hg' _ rfl⟩
  · -- the statement does nothing, and the fact stays what it is
    obtain ⟨hheld, k, t, hk, ht, hreaches⟩ := he
    obtain ⟨⟨g, hpass, htaint⟩, hmove⟩ := hidle e k hheld rfl hk t ht
    have hreply : x.reply d (.normal e.node m) e.fact = .pass [g] := hpass
    refine ⟨?_, ?_, ?_⟩
    · intro f' hf' e' he'
      refine ⟨k, t, ?_, ?_, ?_⟩
      all_goals cases he'
      · exact hk
      · have hf'' : f' ∈ (x.reply d (.normal e.node m) e.fact).facts := hf'
        rw [hreply] at hf''
        rw [List.mem_singleton.mp hf'', htaint]
        exact ht
      · exact hmove hreaches
    · intro h hh
      rw [hreply] at hh
      cases hh
    · intro r hr
      rw [hreply] at hr
      cases hr

omit he in
theorem mem_calleesOf {n n' : StmtId} (hn : K.stmt n n') {m : MethodId}
    (hm : m ∈ (x.program.view d).calleesOf n) : m ∈ (y.program.view d).calleesOf n' := by
  rw [Program.calleesOf_view] at hm ⊢
  rw [B.twin.callees hn]
  exact hm

omit he in
/-- A call goes on to where it goes on in the other program. -/
theorem step_of_call {n n' m : StmtId} (hn : K.stmt n n')
    (hcall : (x.program.view d).isCall n = true)
    (hm : m ∈ (x.program.view d).succsOf n) : (y.program.view d).succsOf n' ≠ [] ∧
      ∀ {k t}, K.Onto k → K.Onto t →
        (∀ m' ∈ (y.program.view d).succsOf n', (c'.state d).holds k m' t = true) →
        c'.Reaches B.stands d k t m := by
  -- a call acts, so it is never skipped
  rcases B.step hm with ⟨n'', hn'', hbusy, hreaches⟩ | ⟨hidle, -⟩
  · obtain rfl : n'' = n' := (B.twin.lawful.unique hn'' hn).mpr rfl
    exact ⟨hbusy, hreaches⟩
  · rw [Program.isCall_view] at hcall
    obtain ⟨a, ha, hacall⟩ := (Option.any_eq_true _ _).mp hcall
    obtain ⟨invocation, hinvocation⟩ := Option.isSome_iff_exists.mp hacall
    have hacts := Action.acts_of_call? hinvocation
    rw [hidle a ha] at hacts
    cases hacts

omit he in
theorem exists_call {n : StmtId} (hcall : (x.program.view d).isCall n = true) :
    ∃ n', K.stmt n n' ∧ (y.program.view d).isCall n' = true := by
  have hcall' := hcall
  rw [Program.isCall_view] at hcall'
  obtain ⟨n', hn'⟩ := B.call hcall'
  obtain ⟨a, ha, -⟩ := (Option.any_eq_true _ _).mp hcall'
  refine ⟨n', hn', ?_⟩
  rw [B.isCall hn' (Program.has_of_stmt? ha)]
  exact hcall

theorem takesIn_bypass {m : StmtId} (hcall : (x.program.view d).isCall e.node = true)
    (hm : m ∈ (x.program.view d).succsOf e.node) :
    B.image.TakesIn x d (.bypass e.node m) e.fact (.within e.context m) := by
  obtain ⟨n', hn', hcall'⟩ := B.exists_call hcall
  obtain ⟨hbusy, hreaches⟩ := B.step_of_call hn' hcall hm
  obtain ⟨k, g, hk, hfg, hg⟩ := B.exists_edge he hn'
  have habsorbs : ∀ m' ∈ (y.program.view d).succsOf n',
      Coupled.Absorbs y c' d (.bypass n' m') g (.within k m') :=
    fun m' hm' => B.fixed.absorbs d _ _ _
      (Owed.bypass (P := y.problem d) (e := ⟨k, n', g⟩) hg hcall' hm')
  obtain ⟨m₀, hm₀⟩ := List.exists_mem_of_ne_nil _ hbusy
  refine B.takesIn (habsorbs m₀ hm₀) (.bypass hn') hfg (B.fits_of_facts he rfl hfg)
    (Or.inl hn') ?_
  intro f' g' hg' hfg' e' he'
  cases he'
  exact ⟨k, hk, hreaches ⟨_, hk⟩ ⟨_, hfg'⟩ fun m' hm' => (habsorbs m' hm').facts g' hg' _ rfl⟩

theorem takesIn_call {callee : MethodId} (hcall : (x.program.view d).isCall e.node = true)
    (hcallee : callee ∈ (x.program.view d).calleesOf e.node) :
    B.image.TakesIn x d (.enter e.node callee) e.fact .nowhere := by
  obtain ⟨n', hn', hcall'⟩ := B.exists_call hcall
  obtain ⟨k, g, hk, hfg, hg⟩ := B.exists_edge he hn'
  have habsorbs : Coupled.Absorbs y c' d (.enter n' callee) g .nowhere := by
    apply B.fixed.absorbs
    refine Owed.call (P := y.problem d) (e := ⟨k, n', g⟩) hg hcall' ?_
    exact B.mem_calleesOf hn' hcallee
  refine B.takesIn habsorbs (.enter hn') hfg (B.fits_of_facts he rfl hfg) (Or.inl hn') ?_
  intro f' g' _ _ e' he'
  cases he'

theorem takesIn_enter {callee : MethodId} {start : StmtId}
    (hcall : (x.program.view d).isCall e.node = true)
    (hcallee : callee ∈ (x.program.view d).calleesOf e.node)
    (hstart : start ∈ (x.program.view d).startsOf callee) :
    B.image.TakesIn x d (.enter e.node callee) e.fact (.anew start) := by
  obtain ⟨n', hn', hcall'⟩ := B.exists_call hcall
  obtain ⟨⟨s₀, hs₀⟩, hreaches⟩ := B.start hstart
  obtain ⟨k, g, hk, hfg, hg⟩ := B.exists_edge he hn'
  have habsorbs : ∀ s' ∈ (y.program.view d).startsOf callee,
      Coupled.Absorbs y c' d (.enter n' callee) g (.anew s') :=
    fun s' hs' => B.fixed.absorbs d _ _ _ (Owed.enter (P := y.problem d) (e := ⟨k, n', g⟩) hg
      hcall' (B.mem_calleesOf hn' hcallee) hs')
  refine B.takesIn (habsorbs s₀ hs₀) (.enter hn') hfg (B.fits_of_facts he rfl hfg)
    (Or.inl hn') ?_
  intro f' g' hg' hfg' e' he'
  cases he'
  exact ⟨g'.taint, hfg', hreaches ⟨_, hfg'⟩ ⟨_, hfg'⟩ fun s' hs' =>
    (habsorbs s' hs').facts g' hg' _ rfl⟩

/-- What enters a callee in one program enters it in the other. -/
theorem enters {n' : StmtId} (hn' : K.stmt e.node n') {callee : MethodId} {context k : Taint}
    {g : Fact} (hfg : K.Facts e.fact g)
    (hcalled : Coupled.Absorbs y c' d (.enter n' callee) g .nowhere)
    (henters : x.EntersAlike d e.node callee e.fact context) (hk : K.Taints context k) :
    y.Enters d n' callee g k := by
  obtain ⟨f, hf, f', hf', rfl⟩ := henters
  have hfg' : K.Facts f g := by
    unfold Facts
    rw [hf]
    exact hfg
  have hmirrors := B.twin.mirrors (.enter hn') hfg' (B.fits_of_facts he hf hfg') hcalled.fault
  obtain ⟨g', hg', hk'⟩ := hmirrors.facts f' hf'
  exact ⟨g', hg', Taints.functional B.twin.lawful hk' hk⟩

omit B he in
/-- Facts are handed over around a call in both programs, or around an exit that corresponds. -/
theorem site_leave {call call' : StmtId} (hcall : K.stmt call call')
    {exit exit' site site' : StmtId}
    (hexit : x.Exits K y d exit exit') {m m' : MethodId} {f : Fact} :
    K.stmt ((Query.leave call m exit site).flowEdge.site d)
      ((Query.leave call' m' exit' site').flowEdge.site d) ∨
      (x.reply d (.leave call m exit site) f).handed = [] := by
  cases d with
  | forward => exact Or.inl hcall
  | backward =>
    rcases hexit with hexit | ⟨hquiet, -⟩
    · exact Or.inl hexit
    · exact Or.inr (Setup.handed_of_isQuiet hquiet)

/-- An exit edge has its counterpart at an exit of the other program. -/
theorem exists_exit (hexit : (x.program.view d).isExit e.node = true) : ∃ k n' g,
    B.leaves d e.node n' ∧ K.Taints e.context k ∧ K.Facts e.fact g ∧
      (⟨k, n', g⟩ : Edge Fact Taint) ∈ (c'.state d).edges := by
  obtain ⟨hheld, k, t, hk, ht, hreaches⟩ := he
  obtain ⟨n', hn', hholds⟩ := B.exit hheld hexit hk ht hreaches
  have hheld' : c'.Holds d ⟨k, n', { taint := t }⟩ := hholds
  obtain ⟨g, hg, htaint⟩ := hheld'.exists_edge (B.fixed.coherent d)
  refine ⟨k, n', g, hn', hk, ?_, hg⟩
  unfold Facts
  rw [htaint]
  exact ht

theorem takesIn_leave {out : Edge Fact Taint} {start site : StmtId}
    (hcall : (x.program.view d).isCall e.node = true)
    (hcallee : (x.program.view d).ownerOf out.node ∈ (x.program.view d).calleesOf e.node)
    (hstart : start ∈ (x.program.view d).startsOf ((x.program.view d).ownerOf out.node))
    (henters : x.EntersAlike d e.node ((x.program.view d).ownerOf out.node) e.fact out.context)
    (hout : out ∈ B.extent.edges d) (hexit : (x.program.view d).isExit out.node = true)
    (hsite : site ∈ (x.program.view d).succsOf e.node) :
    B.image.TakesIn x d (.leave e.node ((x.program.view d).ownerOf out.node) out.node site)
      out.fact (.within e.context site) := by
  obtain ⟨n', hn', hcall'⟩ := B.exists_call hcall
  obtain ⟨hbusy, hreaches⟩ := B.step_of_call hn' hcall hsite
  obtain ⟨k, g, hk, hfg, hg⟩ := B.exists_edge he hn'
  obtain ⟨k', exit', g', hleaves, hk', hfg', hg'⟩ := B.exists_exit hout hexit
  obtain ⟨hexit', hexits, howner⟩ := B.left hleaves
  rw [← Program.ownerOf_view y.program d, ← Program.ownerOf_view x.program d] at howner
  rw [← howner] at hcallee hstart henters ⊢
  have hcallee' := B.mem_calleesOf hn' hcallee
  -- the call brings the context of the exit edge in on the other side too
  have henters' := B.enters he hn' hfg (B.fixed.absorbs d _ _ _
    (Owed.call (P := y.problem d) (e := ⟨k, n', g⟩) hg hcall' hcallee')) henters hk'
  obtain ⟨⟨s', hs'⟩, -⟩ := B.start hstart
  have habsorbs : ∀ m' ∈ (y.program.view d).succsOf n', Coupled.Absorbs y c' d
      (.leave n' ((y.program.view d).ownerOf exit') exit' m') g' (.within k m') :=
    fun m' hm' => B.fixed.absorbs d _ _ _ (Owed.leave (P := y.problem d) (c := ⟨k, n', g⟩)
      (x := ⟨k', exit', g'⟩) hg hcall' hcallee' hs' henters' hg' hexit' hm')
  obtain ⟨m₀, hm₀⟩ := List.exists_mem_of_ne_nil _ hbusy
  refine B.takesIn (habsorbs m₀ hm₀) (.leave (.some hn') hexits) hfg'
    (B.fits_of_facts hout rfl hfg') (site_leave hn' hexits) ?_
  intro f₁ g₁ hg₁ hfg₁ e' he'
  cases he'
  exact ⟨k, hk, hreaches ⟨_, hk⟩ ⟨_, hfg₁⟩ fun m' hm' => (habsorbs m' hm').facts g₁ hg₁ _ rfl⟩

/-- An exit edge can be let out into every caller if its counterpart is. -/
theorem takesIn_release {n' : StmtId} {k : Taint} {g : Fact} (hleaves : B.leaves d e.node n')
    (hk : K.Taints e.context k) (hfg : K.Facts e.fact g)
    (hout : Coupled.LetsOut y c' d ⟨k, n', g⟩) {q : Query} {l : Landing Taint}
    (hrel : Release (x.problem d) e q l) : B.image.TakesIn x d q e.fact l := by
  obtain ⟨-, hexits, howner⟩ := B.left hleaves
  rw [← Program.ownerOf_view y.program d, ← Program.ownerOf_view x.program d] at howner
  -- out of a method that nothing calls, or into a caller that has a counterpart
  cases hrel with
  | departure hnone =>
    change (x.program.view d).callersOf ((x.program.view d).ownerOf e.node) = [] at hnone
    have hnone' : (y.program.view d).callersOf ((y.program.view d).ownerOf n') = [] := by
      rw [Program.callersOf_view] at hnone ⊢
      rw [howner]
      exact B.uncalled hnone
    have habsorbs := hout _ _ (Release.departure (P := y.problem d) (x := ⟨k, n', g⟩) hnone')
    refine B.takesIn habsorbs ?_ hfg (B.fits_of_facts he rfl hfg)
      (Or.inr (Setup.handed_departure _ _)) ?_
    · change x.Edges K y d (.leave none ((x.program.view d).ownerOf e.node) e.node)
        (.leave none ((y.program.view d).ownerOf n') n')
      rw [howner]
      exact .leave .none hexits
    · intro f' g' _ _ e' he'
      cases he'
  | @toCaller call site hcaller hsite =>
    change call ∈ (x.program.view d).callersOf ((x.program.view d).ownerOf e.node) at hcaller
    rw [Program.callersOf_view] at hcaller
    obtain ⟨call', hcall', hcaller'⟩ := B.caller hcaller
    obtain ⟨hbusy, hreaches⟩ :=
      B.step_of_call hcall' (B.built.isCall_of_mem_callersOf hcaller) hsite
    -- a context that is zero on the one side is zero on the other, so both facts land alike
    have hzero : Taint.isZero k = Taint.isZero e.context := by
      unfold Taint.isZero AccessPath.local?
      rw [(B.twin.lawful.alike hk.path).root]
    have habsorbs : ∀ m' ∈ (y.program.view d).succsOf call', Coupled.Absorbs y c' d
        (.leave call' ((y.program.view d).ownerOf n') n' m') g
        (if Taint.isZero e.context then .within .zero m' else .anew m') := by
      intro m' hm'
      rw [← hzero]
      refine hout _ _ (Release.toCaller (P := y.problem d) (x := ⟨k, n', g⟩) ?_ hm')
      change call' ∈ (y.program.view d).callersOf ((y.program.view d).ownerOf n')
      rw [Program.callersOf_view, howner]
      exact hcaller'
    obtain ⟨m₀, hm₀⟩ := List.exists_mem_of_ne_nil _ hbusy
    refine B.takesIn (habsorbs m₀ hm₀) ?_ hfg (B.fits_of_facts he rfl hfg)
      (site_leave hcall' hexits) ?_
    · change x.Edges K y d (.leave (some call) ((x.program.view d).ownerOf e.node) e.node)
        (.leave (some call') ((y.program.view d).ownerOf n') n')
      rw [howner]
      exact .leave (.some hcall') hexits
    · intro f' g' hg' hfg' e' he'
      have hfacts := fun m' hm' => (habsorbs m' hm').facts g' hg'
      change e' ∈ (if Taint.isZero e.context then Landing.within Taint.zero site
        else .anew site).edge? Fact.taint f' at he'
      split at he'
      · next hcontext =>
        cases he'
        have hzeros := taints_zero B.twin.lawful
        refine ⟨.zero, hzeros, hreaches ⟨_, hzeros⟩ ⟨_, hfg'⟩ fun m' hm' => ?_⟩
        have hland := hfacts m' hm'
        rw [if_pos hcontext] at hland
        exact hland _ rfl
      · next hcontext =>
        cases he'
        refine ⟨g'.taint, hfg', hreaches ⟨_, hfg'⟩ ⟨_, hfg'⟩ fun m' hm' => ?_⟩
        have hland := hfacts m' hm'
        rw [if_neg hcontext] at hland
        exact hland _ rfl

/-! ## The whole run -/

omit he in
/-- Both runs start in the same methods. -/
theorem reaches_starts {entries : List MethodId} {starts starts' : List StmtId}
    (hstarts : x.entryPoints entries = .ok starts) (hstarts' : y.entryPoints entries = .ok starts')
    (hstarted : ∀ s ∈ starts', c'.Holds .forward ⟨.zero, s, .zero⟩) :
    ∀ s ∈ starts, c'.Reaches B.stands .forward .zero .zero s := by
  intro s hs
  obtain ⟨m, hm, hs⟩ := (Setup.mem_entryPoints hstarts).mp hs
  have hzeros := taints_zero B.twin.lawful
  refine (B.start (d := .forward) hs).2 ⟨_, hzeros⟩ ⟨_, hzeros⟩ ?_
  intro s' hs'
  exact hstarted s' ((Setup.mem_entryPoints hstarts').mpr ⟨m, hm, hs'⟩)

omit he in
/-- The first run is inside the second, if everything by which its exits are let out has
counterparts there. -/
theorem contains {starts : List StmtId} {R : Direction → Set (Edge Fact Taint)}
    (hsettles : Coupled.Settles x starts R c) (hnative : x.native.IgnoresBookkeeping)
    (hstarts : ∀ s ∈ starts, c'.Reaches B.stands .forward .zero .zero s)
    (hout : ∀ d, ∀ e ∈ R d, e ∈ B.extent.edges d → (x.program.view d).isExit e.node = true →
      ∀ q l, Release (x.problem d) e q l → B.image.TakesIn x d q e.fact l) :
    B.extent.Contains c := by
  refine hsettles.inside B.extent ?_ ?_
  · intro d q f l howed
    -- in its own tables the first run has everything that it owes
    have hx : c.extent.TakesIn x d q f l := by
      refine (Coupled.absorbs_of_owed hnative hsettles.fixed.absorbs hsettles.fixed.coherent
        (fun e he hexit _ => hsettles.letsOut d e he hexit) (fun _ _ _ _ hent => hent)
        (howed.mono (Progress.full_le ?_ (subset_refl _)) fun _ _ _ _ hent => hent)).takesIn
      exact fun e he => he.1
    suffices himage : B.image.TakesIn x d q f l by
      refine ⟨?_, ?_, himage.findings⟩
      · exact fun g hg e he => ⟨hx.facts g hg e he, himage.facts g hg e he⟩
      · exact fun h hh => ⟨hx.handed h hh, himage.handed h hh⟩
    -- one lemma for each reason to owe something; what is let out of a method is the caller's
    -- business
    cases howed with
    | normal he hcall hsucc => exact B.takesIn_normal he hcall hsucc
    | bypass he hcall hsite => exact B.takesIn_bypass he hcall hsite
    | call he hcall hcallee => exact B.takesIn_call he hcall hcallee
    | enter he hcall hcallee hstart => exact B.takesIn_enter he hcall hcallee hstart
    | leave he hcall hcallee hstart hent hexited hexit hsite =>
      exact B.takesIn_leave he hcall hcallee hstart hent hexited hexit hsite
    | release _ he hexit hrel => exact hout d _ he.2 he.1 hexit q l hrel
  · intro s hs
    have hzeros := taints_zero B.twin.lawful
    exact ⟨hsettles.started s hs, .zero, .zero, hzeros, hzeros, hstarts s hs⟩

end Bridge

end TaintFlow
