import TaintFlow.Analysis.Coupled
import TaintFlow.Proofs.Model.Native

/-!
# What a reaction can hold

For both analyses and every edge: which facts can follow a fact, which facts can be handed over,
which findings can be made, and why a reaction can break off. Each of the four is an inductive
relation with one rule for every way in which it comes about, so that an invariant of facts is
proved by going through the rules and not through the analyses.

The rules say how a fact comes about and keep the guards that tell them apart; they do not say that
it must.
-/

namespace TaintFlow

/-! ## Reactions that hold nothing but what is allowed -/

namespace Reaction

/-- What a reaction may hold. -/
structure Allowed where
  facts : Fact → Prop
  handed : StmtId × Fact → Prop
  findings : Finding → Prop
  fault : Fault → Prop

structure Within (A : Allowed) (r : Reaction) : Prop where
  facts : ∀ g ∈ r.facts, A.facts g
  handed : ∀ h ∈ r.handed, A.handed h
  findings : ∀ n ∈ r.findings, A.findings n
  fault : ∀ e ∈ r.fault, A.fault e

variable {A : Allowed} {a b : Reaction}

theorem within_empty : Within A {} := ⟨nofun, nofun, nofun, nofun⟩

theorem within_pass {fs : List Fact} (h : ∀ g ∈ fs, A.facts g) : Within A (pass fs) :=
  ⟨h, nofun, nofun, nofun⟩

theorem within_fail {fault : Fault} (h : A.fault fault) : Within A (fail fault) := by
  refine ⟨nofun, nofun, nofun, ?_⟩
  intro e he
  cases he
  exact h

theorem Within.append (ha : Within A a) (hb : Within A b) : Within A (a ++ b) := by
  change Within A (Reaction.append a b)
  unfold Reaction.append
  split
  -- once a reaction has broken off, nothing is added to it
  · exact ha
  · refine ⟨?_, ?_, ?_, hb.fault⟩
    · intro g hg
      exact (List.mem_append.mp (Fact.mem_of_mem_distinct hg)).elim (ha.facts g) (hb.facts g)
    · intro h hh
      exact (List.mem_append.mp hh).elim (ha.handed h) (hb.handed h)
    · intro n hn
      exact (List.mem_append.mp hn).elim (ha.findings n) (hb.findings n)

theorem within_sequence {rs : List Reaction} (h : ∀ r ∈ rs, Within A r) :
    Within A (sequence rs) := by
  unfold sequence
  refine List.foldlRecOn (motive := Within A) rs append within_empty ?_
  intro r hr r' hr'
  exact Within.append hr (h r' hr')

theorem Within.mono {B : Allowed} (h : Within A a) (hfacts : ∀ g, A.facts g → B.facts g)
    (hhanded : ∀ h, A.handed h → B.handed h) (hfindings : ∀ n, A.findings n → B.findings n)
    (hfault : ∀ e, A.fault e → B.fault e) : Within B a where
  facts g hg := hfacts g (h.facts g hg)
  handed p hp := hhanded p (h.handed p hp)
  findings n hn := hfindings n (h.findings n hn)
  fault e he := hfault e (h.fault e he)

end Reaction

/-! ## Reactions by their taints -/

namespace Reaction

/-- The taints of the facts that go on. -/
def taints (r : Reaction) : List Taint := r.facts.map Fact.taint

theorem mem_taints {r : Reaction} {t : Taint} : t ∈ r.taints ↔ ∃ g ∈ r.facts, g.taint = t :=
  List.mem_map

theorem mem_taints_distinct {fs : List Fact} {t : Taint} :
    t ∈ (Fact.distinct fs).map Fact.taint ↔ t ∈ fs.map Fact.taint := by
  induction fs with
  | nil => rfl
  | cons f fs ih =>
    simp only [Fact.distinct, List.map_cons, List.mem_cons, List.mem_map, List.mem_filter,
      decide_eq_true_eq] at ih ⊢
    constructor
    · rintro (rfl | ⟨g, ⟨hg, -⟩, rfl⟩)
      · exact Or.inl rfl
      · exact Or.inr (ih.mp ⟨g, hg, rfl⟩)
    · rintro (rfl | hold)
      · exact Or.inl rfl
      · obtain ⟨g, hg, rfl⟩ := ih.mpr hold
        -- of several facts with one taint only the first is kept, so `g` may be there as `f`
        by_cases hsame : g.taint = f.taint
        · exact Or.inl hsame
        · exact Or.inr ⟨g, ⟨hg, hsame⟩, rfl⟩

theorem mem_taints_append {a b : Reaction} (ha : a.fault = none) {t : Taint} :
    t ∈ (a ++ b).taints ↔ t ∈ a.taints ∨ t ∈ b.taints := by
  have hfacts : (a ++ b).facts = Fact.distinct (a.facts ++ b.facts) := by
    change (Reaction.append a b).facts = _
    unfold Reaction.append
    rw [ha]
    rfl
  unfold taints
  rw [hfacts, mem_taints_distinct, List.map_append, List.mem_append]

theorem fault_append {a b : Reaction} (ha : a.fault = none) : (a ++ b).fault = b.fault := by
  change (Reaction.append a b).fault = _
  unfold Reaction.append
  rw [ha]
  rfl

theorem handed_append {a b : Reaction} (ha : a.fault = none) :
    (a ++ b).handed = a.handed ++ b.handed := by
  change (Reaction.append a b).handed = _
  unfold Reaction.append
  rw [ha]
  rfl

/-- Nothing before a reaction is the reaction, up to repeated facts. -/
theorem empty_append (r : Reaction) :
    ({} : Reaction) ++ r = { r with facts := Fact.distinct r.facts } := by
  change Reaction.append {} r = _
  simp [Reaction.append]

/-- Everything in `a` is in `b`, facts up to their bookkeeping. -/
structure Under (a b : Reaction) : Prop where
  facts : ∀ g ∈ a.facts, ∃ g' ∈ b.facts, g'.taint = g.taint
  handed : ∀ h ∈ a.handed, h ∈ b.handed
  findings : ∀ n ∈ a.findings, n ∈ b.findings

theorem Under.refl (a : Reaction) : a.Under a :=
  ⟨fun g hg => ⟨g, hg, rfl⟩, fun _ hh => hh, fun _ hn => hn⟩

theorem Under.trans {a b c : Reaction} (h : a.Under b) (h' : b.Under c) : a.Under c where
  facts g hg := by
    obtain ⟨g', hg', heq⟩ := h.facts g hg
    obtain ⟨g'', hg'', heq'⟩ := h'.facts g' hg'
    exact ⟨g'', hg'', heq'.trans heq⟩
  handed p hp := h'.handed p (h.handed p hp)
  findings n hn := h'.findings n (h.findings n hn)

/-- A reaction that does not break off has taken both of its parts into account. -/
theorem under_append {a b : Reaction} (h : (a ++ b).fault = none) :
    (a.fault = none ∧ a.Under (a ++ b)) ∧ b.fault = none ∧ b.Under (a ++ b) := by
  -- the first part is looked at first: its fault would be the fault of the whole
  have ha : a.fault = none := by
    change (Reaction.append a b).fault = none at h
    unfold Reaction.append at h
    split at h
    · exact h
    · next hfault => simpa using hfault
  have hfacts : ∀ g ∈ a.facts ++ b.facts, ∃ g' ∈ (a ++ b).facts, g'.taint = g.taint := by
    intro g hg
    have hmem : g.taint ∈ (a ++ b).taints := by
      rw [mem_taints_append ha, mem_taints, mem_taints]
      rcases List.mem_append.mp hg with hg | hg
      · exact Or.inl ⟨g, hg, rfl⟩
      · exact Or.inr ⟨g, hg, rfl⟩
    exact mem_taints.mp hmem
  have hfindings : (a ++ b).findings = a.findings ++ b.findings := by
    change (Reaction.append a b).findings = _
    unfold Reaction.append
    rw [ha]
    rfl
  rw [fault_append ha] at h
  refine ⟨⟨ha, ?_, ?_, ?_⟩, h, ?_, ?_, ?_⟩
  · exact fun g hg => hfacts g (List.mem_append_left _ hg)
  · exact fun p hp => handed_append ha ▸ List.mem_append_left _ hp
  · exact fun n hn => hfindings ▸ List.mem_append_left _ hn
  · exact fun g hg => hfacts g (List.mem_append_right _ hg)
  · exact fun p hp => handed_append ha ▸ List.mem_append_right _ hp
  · exact fun n hn => hfindings ▸ List.mem_append_right _ hn

theorem under_sequence {rs : List Reaction} (h : (sequence rs).fault = none) {r : Reaction}
    (hr : r ∈ rs) : r.fault = none ∧ r.Under (sequence rs) := by
  -- what has been gone through stays in, whatever comes after it
  suffices hfold : ∀ (rs : List Reaction) (a : Reaction), (rs.foldl append a).fault = none →
      (a.fault = none ∧ a.Under (rs.foldl append a)) ∧
      ∀ r ∈ rs, r.fault = none ∧ r.Under (rs.foldl append a) by
    exact (hfold rs {} h).2 r hr
  intro rs
  induction rs with
  | nil => exact fun a ha => ⟨⟨ha, .refl a⟩, nofun⟩
  | cons r rs ih =>
    intro a hfault
    obtain ⟨⟨hfirst, hunder⟩, hrest⟩ := ih (append a r) hfault
    obtain ⟨⟨ha, haunder⟩, hr, hrunder⟩ := under_append hfirst
    refine ⟨⟨ha, haunder.trans hunder⟩, ?_⟩
    intro r' hr'
    rcases List.mem_cons.mp hr' with rfl | hr'
    · exact ⟨hr, hrunder.trans hunder⟩
    · exact hrest r' hr'

end Reaction

namespace Setup

open Reaction

variable {x : Setup} {A : Allowed}

theorem within_withStmt {s : StmtId} {react : Stmt → Reaction}
    (hknown : ∀ stmt, x.program.stmt? s = some stmt → Within A (react stmt))
    (hunknown : x.program.stmt? s = none → A.fault (.unknownStatement s)) :
    Within A (x.withStmt s react) := by
  unfold withStmt
  split
  · next stmt hstmt => exact hknown stmt hstmt
  · next hnone => exact within_fail (hunknown hnone)

theorem within_withMethod {m : MethodId} {react : Method → Reaction}
    (hknown : ∀ method, x.program.method? m = some method → Within A (react method))
    (hunknown : x.program.method? m = none → A.fault (.unknownMethod m)) :
    Within A (x.withMethod m react) := by
  unfold withMethod
  split
  · next method hmethod => exact hknown method hmethod
  · next hnone => exact within_fail (hunknown hnone)

/-- The statement `stmt`, number `call`, makes the call `invocation`. -/
structure CallAt (x : Setup) (call : StmtId) (stmt : Stmt) (invocation : Invocation) : Prop where
  known : x.program.stmt? call = some stmt
  calls : stmt.call? = some invocation

end Setup

/-- The statements and the method that a reaction to an edge looks up. -/
inductive FlowEdge.LooksUp : FlowEdge → Fault → Prop
  | normal {s} : LooksUp (.normal s) (.unknownStatement s)
  | call {call callee} : LooksUp (.enter call callee) (.unknownStatement call)
  | callee {call callee} : LooksUp (.enter call callee) (.unknownMethod callee)
  | exit {call callee exit} : LooksUp (.leave call callee exit) (.unknownStatement exit)
  | back {call callee exit} : LooksUp (.leave (some call) callee exit) (.unknownStatement call)
  | left {call callee exit} : LooksUp (.leave (some call) callee exit) (.unknownMethod callee)
  | bypass {call} : LooksUp (.bypass call) (.unknownStatement call)

/-- The taint continued at local `y`. -/
def Taint.movedTo (t : Taint) (y : Local) (most : Nat) : Taint :=
  { t with path := t.path.moveToLocal y most, thrown := false }

/-- The program lacks what a fault says that it lacks. -/
def Program.Lacks (p : Program) : Fault → Prop
  | .unknownStatement s => p.stmt? s = none
  | .unknownMethod m => p.method? m = none
  | .argumentCount _ _ => False

/-! ## The forward analysis -/

namespace Forward

variable (x : Setup)

/-- The fact that leaves a method: activated at the call, if there is one. -/
def leaving (call : Option StmtId) (f : Fact) : Fact := ((call.map f.activateAt).getD f).leaveCall

/-- The facts that can follow a fact along an edge. -/
inductive Yields : FlowEdge → Fact → Fact → Prop
  | kept {s f stmt} : x.program.stmt? s = some stmt → Yields (.normal s) f (f.activateAt s)
  | caught {s f stmt target} : x.program.stmt? s = some stmt →
    stmt.action = .identity target .caughtException → (f.activateAt s).taint.thrown = true →
    Yields (.normal s) f (((f.activateAt s).caughtBy target).visit stmt.id)
  | arrived {s f stmt target source} : x.program.stmt? s = some stmt →
    stmt.action = .identity target source → x.isSource stmt = true →
    Yields (.normal s) f (newFact x (.ofLocal target) stmt.id source (f.activateAt s))
  | assigned {s f stmt target source cut moved} : x.program.stmt? s = some stmt →
    stmt.action = .assign target source → (f.activateAt s).isZero = false →
    (f.activateAt s).reaches target = true →
    (f.activateAt s).moveToValue? target cut x.most = some moved →
    Yields (.normal s) f (moved.visit stmt.id)
  | thrown {s f stmt operand} : x.program.stmt? s = some stmt → stmt.action = .throw operand →
    (f.activateAt s).path.isRootedAt operand = true → Yields (.normal s) f (f.activateAt s).throw
  | zero {call callee f method} : x.program.method? callee = some method → f.isZero = true →
    Yields (.enter call callee) f f
  | bound {call callee f stmt invocation method l} : x.CallAt call stmt invocation →
    x.program.method? callee = some method → f.isZero = false →
    (l ∈ method.params ∨ method.thisLocal = some l) →
    Yields (.enter call callee) f
      ((((f.activateAt call).moveToLocal l x.most).visit stmt.id).enterCall)
  | entered {call callee f} : f.isZero = false → (f.activateAt call).path.isStatic = true →
    Yields (.enter call callee) f (f.activateAt call).enterCall
  | returned {call callee exit f stmt invocation exitStmt v moved} :
    x.CallAt call stmt invocation → x.program.stmt? exit = some exitStmt → f.isZero = false →
    (stmt.target? = some v ∨ v ∈ invocation.args ∨ v ∈ invocation.receiver.map Value.local) →
    (leaving (some call) f).moveToValue? v false x.most = some moved →
    Yields (.leave (some call) callee exit) f (moved.visit exitStmt.id)
  | left {call callee exit f stmt invocation} : x.CallAt call stmt invocation →
    f.isZero = false → (leaving (some call) f).path.isStatic = true →
    Yields (.leave (some call) callee exit) f (leaving (some call) f)
  | idle {call f stmt} : x.program.stmt? call = some stmt → stmt.call? = none →
    Yields (.bypass call) f f
  | passed {call f stmt invocation} : x.CallAt call stmt invocation →
    passesBy x stmt invocation (f.activateAt call) = true →
    Yields (.bypass call) f (f.activateAt call)
  | modelled {call f stmt invocation library path} : x.CallAt call stmt invocation →
    x.library = some library → (f.activateAt call).isZero = false →
    path ∈ library.derived stmt (f.activateAt call).path →
    isOperand stmt invocation path = true →
    Yields (.bypass call) f (((f.activateAt call).moveTo path).visit stmt.id)
  | native {call f stmt invocation g} : x.CallAt call stmt invocation →
    g ∈ throughNative x stmt invocation (f.activateAt call) → Yields (.bypass call) f g
  | created {call f stmt invocation v path} : x.CallAt call stmt invocation →
    x.isSource stmt = true → stmt.target? = some v → AccessPath.ofValue? v = some path →
    Yields (.bypass call) f (newFact x path stmt.id invocation.toValue (f.activateAt call))

/-- The facts that can be handed to the backward analysis. -/
inductive Hands : FlowEdge → Fact → StmtId × Fact → Prop
  | assigned {s f stmt target source cut moved p} : x.program.stmt? s = some stmt →
    stmt.action = .assign target source → (f.activateAt s).isZero = false →
    (f.activateAt s).isActive = true → (f.activateAt s).mayAlias target = true →
    (f.activateAt s).moveToValue? target cut x.most = some moved →
    p ∈ x.program.predsOf stmt.id →
    Hands (.normal s) f (p, (moved.visit stmt.id).deactivate stmt.id)
  | returned {call callee exit f stmt invocation g p} : x.CallAt call stmt invocation →
    Yields x (.leave (some call) callee exit) f g → p ∈ x.program.predsOf stmt.id →
    Hands (.leave (some call) callee exit) f (p, probeAfter stmt.id g)
  | modelled {call f stmt invocation library path p} : x.CallAt call stmt invocation →
    x.library = some library → (f.activateAt call).isZero = false →
    (f.activateAt call).isActive = true →
    path ∈ library.derived stmt (f.activateAt call).path →
    isOperand stmt invocation path = true → p ∈ x.program.predsOf stmt.id →
    Hands (.bypass call) f (p, ((f.activateAt call).moveTo path).deactivate stmt.id)

/-- The findings that can be made. -/
inductive Finds : FlowEdge → Fact → Finding → Prop
  | assigned {s f stmt target source} : x.program.stmt? s = some stmt →
    stmt.action = .assign target source → (f.activateAt s).isZero = false →
    (f.activateAt s).isActive = true → x.isSink stmt = true →
    Finds (.normal s) f ((f.activateAt s).findingAt stmt.id target)
  | returned {s f stmt result} : x.program.stmt? s = some stmt →
    stmt.action = .return (some result) → (f.activateAt s).isActive = true →
    (f.activateAt s).path.isRootedAt result = true → x.isSink stmt = true →
    Finds (.normal s) f ((f.activateAt s).findingAt stmt.id result)
  | left {call callee exit f stmt result} : x.program.stmt? exit = some stmt →
    stmt.action = .return (some result) → f.isZero = false → (leaving call f).isActive = true →
    (leaving call f).path.isRootedAt result = true → x.isSink stmt = true →
    Finds (.leave call callee exit) f ((leaving call f).findingAt stmt.id result)
  | called {call f stmt invocation} : x.CallAt call stmt invocation →
    (f.activateAt call).isActive = true → (f.activateAt call).isZero = false →
    x.isSink stmt = true → (invocation.args.any (f.activateAt call).path.isRootedAt = true ∨
      invocation.receiver.any (f.activateAt call).path.startsAt = true) →
    Finds (.bypass call) f ((f.activateAt call).findingAt stmt.id invocation.toValue)

/-- Why a reaction can break off. -/
inductive Faults : FlowEdge → Fact → Fault → Prop
  | lacking {edge f fault} : edge.LooksUp fault → x.program.Lacks fault → Faults edge f fault
  | mismatch {call callee f stmt invocation method} : x.CallAt call stmt invocation →
    x.program.method? callee = some method → method.isConcrete = true →
    method.signature.isStaticInitializer = false →
    method.params.length ≠ invocation.args.length →
    Faults (.enter call callee) f (.argumentCount stmt.id callee)
  | stray {call callee exit f unit} : (leaving call f).isActive = false →
    (leaving call f).taint.unit = some unit → x.program.stmt? unit = none →
    Faults (.leave call callee exit) f (.unknownStatement unit)

def allowed (edge : FlowEdge) (f : Fact) : Reaction.Allowed where
  facts := Yields x edge f
  handed := Hands x edge f
  findings := Finds x edge f
  fault := Faults x edge f

variable {x} {f : Fact}

open Reaction Setup

/-! ### Normal edges -/

theorem within_identity {s : StmtId} {stmt : Stmt} (hs : x.program.stmt? s = some stmt)
    {target : Local} {source : Value} (haction : stmt.action = .identity target source) :
    Within (allowed x (.normal s) f) (identity x stmt target source (f.activateAt s)) := by
  unfold identity
  apply within_pass
  intro g hg
  -- either the fact itself, caught or not, or what a source creates beside it
  rcases List.mem_cons.mp (Fact.mem_of_mem_distinct hg) with rfl | hcreated
  · split
    · next hcaught =>
      simp only [Bool.and_eq_true, decide_eq_true_eq] at hcaught
      rw [hcaught.1.1] at haction
      exact .caught hs haction hcaught.1.2
    · exact .kept hs
  · split at hcreated
    · next hsource =>
      rw [List.mem_singleton.mp hcreated]
      exact .arrived hs haction hsource
    · cases hcreated

theorem within_copyTo {s : StmtId} {stmt : Stmt} (hs : x.program.stmt? s = some stmt)
    {target source : Value} (haction : stmt.action = .assign target source)
    (hzero : (f.activateAt s).isZero = false) (hreaches : (f.activateAt s).reaches target = true)
    (cut : Bool) :
    Within (allowed x (.normal s) f) (copyTo x stmt target cut (f.activateAt s)) := by
  unfold copyTo
  split
  · exact within_empty
  · next moved hmoved =>
    refine ⟨?_, ?_, nofun, nofun⟩
    · intro g hg
      rw [List.mem_singleton.mp hg]
      exact .assigned hs haction hzero hreaches hmoved
    -- a copy is handed over only where the target may have other names
    · intro h hh
      dsimp only at hh
      split at hh
      · next hprobe =>
        obtain ⟨p, hp, rfl⟩ := List.mem_map.mp hh
        simp only [Bool.and_eq_true] at hprobe
        exact .assigned hs haction hzero hprobe.1.2 hprobe.1.1 hmoved hp
      · cases hh

theorem within_assign {s : StmtId} {stmt : Stmt} (hs : x.program.stmt? s = some stmt)
    {target source : Value} (haction : stmt.action = .assign target source) :
    Within (allowed x (.normal s) f) (assign x stmt target source (f.activateAt s)) := by
  have hkept : ∀ g ∈ [f.activateAt s], Yields x (.normal s) f g := by
    intro g hg
    rw [List.mem_singleton.mp hg]
    exact .kept hs
  unfold assign
  split
  · exact within_pass hkept
  · next hzero =>
    rw [Bool.not_eq_true] at hzero
    split
    -- the fact is read: it stays, may be reported, and is copied if it reaches the target
    · have hkeeps : Within (allowed x (.normal s) f) {
          facts := [f.activateAt s]
          findings := if (f.activateAt s).isActive && x.isSink stmt then
            [(f.activateAt s).findingAt stmt.id target] else [] } := by
        refine ⟨hkept, nofun, ?_, nofun⟩
        intro n hn
        dsimp only at hn
        split at hn
        · next hsink =>
          simp only [Bool.and_eq_true] at hsink
          rw [List.mem_singleton.mp hn]
          exact .assigned hs haction hzero hsink.1 hsink.2
        · cases hn
      dsimp only
      split
      · next hreaches => exact hkeeps.append (within_copyTo hs haction hzero hreaches _)
      · exact hkeeps
    -- it is not read, so it goes if the target is overwritten and stays otherwise
    · split
      · exact within_empty
      · exact within_pass hkept

theorem mem_returnLeak {stmt : Stmt} {n : Finding} (h : n ∈ returnLeak x stmt f) :
    ∃ result, stmt.action = .return (some result) ∧ f.isActive = true ∧
      f.path.isRootedAt result = true ∧ x.isSink stmt = true ∧ n = f.findingAt stmt.id result := by
  unfold returnLeak at h
  split at h
  · next result haction =>
    split at h
    · next hleak =>
      simp only [Bool.and_eq_true] at hleak
      exact ⟨result, haction, hleak.1.1, hleak.1.2, hleak.2, List.mem_singleton.mp h⟩
    · cases h
  · cases h

theorem within_normal (s : StmtId) : Within (allowed x (.normal s) f) (normal x s f) := by
  unfold normal
  refine within_withStmt ?_ fun hnone => .lacking .normal hnone
  intro stmt hs
  have hkept : ∀ g ∈ [f.activateAt s], Yields x (.normal s) f g := by
    intro g hg
    rw [List.mem_singleton.mp hg]
    exact .kept hs
  dsimp only
  split
  · next haction => exact within_identity hs haction
  · next haction => exact within_assign hs haction
  -- a return only reports, a throw only marks the fact
  · refine ⟨hkept, nofun, ?_, nofun⟩
    intro n hn
    obtain ⟨result, haction, hactive, hrooted, hsink, rfl⟩ := mem_returnLeak hn
    exact .returned hs haction hactive hrooted hsink
  · next operand haction =>
    apply within_pass
    intro g hg
    rw [List.mem_singleton.mp hg]
    split
    · next hrooted => exact .thrown hs haction hrooted
    · exact .kept hs
  · exact within_pass hkept

/-! ### Call edges -/

theorem within_bindOperands {call : StmtId} {stmt : Stmt} {invocation : Invocation}
    (hcall : x.CallAt call stmt invocation) {callee : MethodId} {method : Method}
    (hmethod : x.program.method? callee = some method) (hconcrete : method.isConcrete = true)
    (hzero : f.isZero = false) :
    Within (allowed x (.enter call callee) f)
      (bindOperands x stmt invocation callee method (f.activateAt call)) := by
  have hbound : ∀ l, (l ∈ method.params ∨ method.thisLocal = some l) →
      Yields x (.enter call callee) f
        ((((f.activateAt call).moveToLocal l x.most).visit stmt.id).enterCall) :=
    fun l hl => .bound hcall hmethod hzero hl
  unfold bindOperands
  extract_lets bind this static
  have hthis : ∀ g ∈ this, Yields x (.enter call callee) f g := by
    intro g hg
    simp only [this] at hg
    split at hg
    · next receiver l _ hl =>
      split at hg
      · rw [List.mem_singleton.mp hg]
        exact hbound l (Or.inr hl)
      · cases hg
    · cases hg
  have hstatic : ∀ g ∈ static, Yields x (.enter call callee) f g := by
    intro g hg
    simp only [static] at hg
    split at hg
    · next hstatic =>
      rw [List.mem_singleton.mp hg]
      exact .entered hzero hstatic
    · cases hg
  -- only where arguments are passed can their number be wrong
  split
  · apply within_pass
    intro g hg
    exact (List.mem_append.mp (Fact.mem_of_mem_distinct hg)).elim (hthis g) (hstatic g)
  · next hinit =>
    split
    · next hcount =>
      exact within_fail (.mismatch hcall hmethod hconcrete (by simpa using hinit) hcount)
    · apply within_pass
      intro g hg
      rcases List.mem_append.mp (Fact.mem_of_mem_distinct hg) with hg | hg
      · rcases List.mem_append.mp hg with hg | hg
        · exact hthis g hg
        · obtain ⟨r, hr, rfl⟩ := List.mem_map.mp hg
          exact hbound r.2 (Or.inl (List.of_mem_zip (List.mem_filter.mp hr).1).2)
      · exact hstatic g hg

theorem within_enter (call : StmtId) (callee : MethodId) :
    Within (allowed x (.enter call callee) f) (enter x call callee f) := by
  unfold enter
  refine within_withMethod ?_ fun hnone => .lacking .callee hnone
  intro method hmethod
  split
  · exact within_empty
  · next hconcrete =>
    -- the zero fact enters whatever the operands are, without a look at the call
    split
    · next hzero =>
      apply within_pass
      intro g hg
      rw [List.mem_singleton.mp hg]
      exact .zero hmethod hzero
    · next hzero =>
      refine within_withStmt ?_ fun hnone => .lacking .call hnone
      intro stmt hs
      split
      · exact within_empty
      · next invocation hinvocation =>
        split
        · exact within_empty
        · exact within_bindOperands ⟨hs, hinvocation⟩ hmethod (by simpa using hconcrete)
            (by simpa using hzero)

/-! ### Return edges -/

section

variable {call exit : StmtId} {callee : MethodId} {stmt exitStmt : Stmt} {invocation : Invocation}

theorem within_comeOut (hcall : x.CallAt call stmt invocation) {g : Fact}
    (hg : Yields x (.leave (some call) callee exit) f g) (v : Value) :
    Within (allowed x (.leave (some call) callee exit) f) (comeOut x stmt.id v g) := by
  refine ⟨?_, ?_, nofun, nofun⟩
  · intro g' hg'
    rw [List.mem_singleton.mp hg']
    exact hg
  · intro h hh
    unfold comeOut at hh
    dsimp only at hh
    split at hh
    · obtain ⟨p, hp, rfl⟩ := List.mem_map.mp hh
      exact .returned hcall hg hp
    · cases hh

theorem within_unbindOperands (hcall : x.CallAt call stmt invocation)
    (hexit : x.program.stmt? exit = some exitStmt) (hzero : f.isZero = false) (method : Method) :
    Within (allowed x (.leave (some call) callee exit) f)
      (unbindOperands x stmt invocation method exitStmt (leaving (some call) f)) := by
  unfold unbindOperands
  -- the four ways out: the result, a static field, the arguments, the receiver
  refine Within.append (Within.append (Within.append ?_ ?_) ?_) ?_
  · split
    · next returned target haction htarget =>
      split
      · split
        · next moved hmoved =>
          exact within_comeOut hcall (.returned hcall hexit hzero (Or.inl htarget) hmoved) target
        · exact within_empty
      · exact within_empty
    · exact within_empty
  · split
    · next hstatic =>
      have hyields : Yields x (.leave (some call) callee exit) f (leaving (some call) f) :=
        .left hcall hzero hstatic
      refine ⟨?_, ?_, nofun, nofun⟩
      · intro g hg
        rw [List.mem_singleton.mp hg]
        exact hyields
      · intro h hh
        obtain ⟨p, hp, rfl⟩ := List.mem_map.mp hh
        exact .returned hcall hyields hp
    · exact within_empty
  · apply within_sequence
    intro r hr
    obtain ⟨b, hb, rfl⟩ := List.mem_map.mp hr
    have harg : b.2 ∈ invocation.args := (List.of_mem_zip (List.mem_filter.mp hb).1).2
    dsimp only
    split
    · split
      · next moved hmoved =>
        exact within_comeOut hcall (.returned hcall hexit hzero (Or.inr (Or.inl harg)) hmoved) b.2
      · exact within_empty
    · exact within_empty
  · split
    · next this receiver _ hreceiver =>
      split
      · refine within_comeOut hcall (.returned hcall hexit hzero (Or.inr (Or.inr ?_))
          (Fact.moveToValue?_local _ receiver x.most)) _
        rw [hreceiver]
        rfl
      · exact within_empty
    · exact within_empty

end

theorem isStranded_eq_error {callee : MethodId} {fault : Fault}
    (h : isStranded x callee f = .error fault) :
    ∃ unit, f.isActive = false ∧ f.taint.unit = some unit ∧ x.program.stmt? unit = none ∧
      fault = .unknownStatement unit := by
  unfold isStranded at h
  split at h
  · next unit hactive hunit =>
    split at h
    · cases h
    · next hnone =>
      cases h
      exact ⟨unit, hactive, hunit, hnone, rfl⟩
  · cases h

theorem within_leave (call : Option StmtId) (callee : MethodId) (exit : StmtId) :
    Within (allowed x (.leave call callee exit) f) (leave x call callee exit f) := by
  unfold leave
  split
  · exact within_empty
  · next hzero =>
    rw [Bool.not_eq_true] at hzero
    extract_lets leaver
    -- asking whether the fact is stranded comes first, and may fail on its activation unit
    split
    · next fault hstranded =>
      obtain ⟨unit, hactive, hunit, hnone, rfl⟩ := isStranded_eq_error hstranded
      exact within_fail (.stray hactive hunit hnone)
    · exact within_empty
    · refine within_withStmt ?_ fun hnone => .lacking .exit hnone
      intro exitStmt hexit
      have hleak : Within (allowed x (.leave call callee exit) f)
          { findings := returnLeak x exitStmt leaver } := by
        refine ⟨nofun, nofun, ?_, nofun⟩
        intro n hn
        obtain ⟨result, haction, hactive, hrooted, hsink, rfl⟩ := mem_returnLeak hn
        exact .left hexit haction hzero hactive hrooted hsink
      dsimp only
      -- out of an entry there is no way but the report
      split
      · exact hleak
      · next call =>
        refine hleak.append (within_withStmt ?_ fun hnone => .lacking .back hnone)
        intro stmt hs
        split
        · exact within_empty
        · next invocation hinvocation =>
          refine within_withMethod ?_ fun hnone => .lacking .left hnone
          intro method hmethod
          exact within_unbindOperands ⟨hs, hinvocation⟩ hexit hzero method

/-! ### Call-to-return edges -/

section

variable {call : StmtId} {stmt : Stmt} {invocation : Invocation}

theorem within_modelled (hcall : x.CallAt call stmt invocation) :
    Within (allowed x (.bypass call) f) (modelled x stmt invocation (f.activateAt call)) := by
  unfold modelled
  split
  · exact within_empty
  · next library hlibrary =>
    dsimp only
    split
    · exact within_empty
    · next hconcerned =>
      simp only [Bool.or_eq_true, not_or, Bool.not_eq_true] at hconcerned
      apply within_sequence
      intro r hr
      obtain ⟨path, hpath, rfl⟩ := List.mem_map.mp hr
      obtain ⟨hderived, hoperand⟩ := List.mem_filter.mp hpath
      refine ⟨?_, ?_, nofun, nofun⟩
      · intro g hg
        rw [List.mem_singleton.mp hg]
        exact .modelled hcall hlibrary hconcerned.1 hderived hoperand
      · intro h hh
        dsimp only at hh
        split at hh
        · next hprobe =>
          rw [Bool.and_eq_true] at hprobe
          obtain ⟨p, hp, rfl⟩ := List.mem_map.mp hh
          exact .modelled hcall hlibrary hconcerned.1 hprobe.2 hderived hoperand hp
        · cases hh

theorem mem_created {g : Fact} (h : g ∈ created x stmt invocation f) :
    ∃ v path, x.isSource stmt = true ∧ stmt.target? = some v ∧ AccessPath.ofValue? v = some path ∧
      g = newFact x path stmt.id invocation.toValue f := by
  unfold created at h
  split at h
  · next hsource =>
    rw [Option.mem_toList, Option.map_eq_some_iff] at h
    obtain ⟨path, hpath, rfl⟩ := h
    obtain ⟨v, hv, hpath⟩ := Option.bind_eq_some_iff.mp hpath
    exact ⟨v, path, hsource, hv, hpath, rfl⟩
  · cases h

theorem mem_callLeaks {n : Finding} (h : n ∈ callLeaks x stmt invocation f) :
    f.isActive = true ∧ f.isZero = false ∧ x.isSink stmt = true ∧
      (invocation.args.any f.path.isRootedAt = true ∨
        invocation.receiver.any f.path.startsAt = true) ∧
      n = f.findingAt stmt.id invocation.toValue := by
  unfold callLeaks at h
  split at h
  · next hsink =>
    simp only [Bool.and_eq_true, Bool.not_eq_true'] at hsink
    refine ⟨hsink.1.1, hsink.1.2, hsink.2, ?_⟩
    rcases List.mem_append.mp h with h | h
    · split at h
      · next harg => exact ⟨Or.inl harg, List.mem_singleton.mp h⟩
      · cases h
    · split at h
      · next hreceiver => exact ⟨Or.inr hreceiver, List.mem_singleton.mp h⟩
      · cases h
  · cases h

theorem within_bypass (call : StmtId) :
    Within (allowed x (.bypass call) f) (bypass x call f) := by
  unfold bypass
  refine within_withStmt ?_ fun hnone => .lacking .bypass hnone
  intro stmt hs
  split
  · next hnone =>
    apply within_pass
    intro g hg
    rw [List.mem_singleton.mp hg]
    exact .idle hs hnone
  · next invocation hinvocation =>
    have hcall : x.CallAt call stmt invocation := ⟨hs, hinvocation⟩
    -- the library model has its own lemma; left are the ways that the call decides about itself
    refine (within_modelled hcall).append ⟨?_, nofun, ?_, nofun⟩
    · intro g hg
      rcases List.mem_append.mp hg with hg | hg
      · rcases List.mem_append.mp hg with hg | hg
        · split at hg
          · next hpasses =>
            rw [List.mem_singleton.mp hg]
            exact .passed hcall hpasses
          · cases hg
        · exact .native hcall hg
      · obtain ⟨v, path, hsource, hv, hpath, rfl⟩ := mem_created hg
        exact .created hcall hsource hv hpath
    · intro n hn
      obtain ⟨hactive, hzero, hsink, hrooted, rfl⟩ := mem_callLeaks hn
      exact .called hcall hactive hzero hsink hrooted

end

theorem within_react (edge : FlowEdge) : Within (allowed x edge f) (react x edge f) := by
  cases edge with
  | normal s => exact within_normal s
  | enter call callee => exact within_enter call callee
  | leave call callee exit => exact within_leave call callee exit
  | bypass call => exact within_bypass call

end Forward

/-! ## The backward analysis -/

/-- The value without a cast around it. -/
def Value.uncast : Value → Value
  | .cast _ v => v
  | v => v

namespace Backward

variable (x : Setup)

/-- The assignment `stmt` moves a fact to one of its two sides, a cast left aside. -/
inductive Moves (stmt : Stmt) (f g : Fact) : Prop
  | mk {target source v cut} : stmt.action = .assign target source →
    (v = target ∨ v = source ∨ ∃ type, source = .cast type v) →
    f.moveToValue? v cut x.most = some g → Moves stmt f g

/-- The facts that can precede a fact along an edge. -/
inductive Yields : FlowEdge → Fact → Fact → Prop
  | kept {s f} : Yields (.normal s) f f
  | moved {s f stmt g} : x.program.stmt? s = some stmt → f.isZero = false → Moves x stmt f g →
    Yields (.normal s) f g
  | bound {call callee f method l} : x.program.method? callee = some method → f.isZero = false →
    (l ∈ method.params ∨ method.thisLocal = some l ∨ l ∈ returnedLocals x callee) →
    Yields (.enter call callee) f (f.moveToLocal l x.most)
  | entered {call callee f} : f.isZero = false → f.path.isStatic = true →
    Yields (.enter call callee) f f
  | left {call callee exit f stmt invocation exitStmt g} : x.CallAt call stmt invocation →
    x.program.stmt? exit = some exitStmt → f.isZero = false → (g = f ∨ Moves x exitStmt f g) →
    g.path.isStatic = true → Yields (.leave (some call) callee exit) f g
  | returned {call callee exit f stmt invocation exitStmt g l} : x.CallAt call stmt invocation →
    x.program.stmt? exit = some exitStmt → f.isZero = false → (g = f ∨ Moves x exitStmt f g) →
    (.local l ∈ invocation.args ∨ invocation.receiver = some l) →
    Yields (.leave (some call) callee exit) f ((g.moveToLocal l x.most).atLevel call)
  | passed {call f} : Yields (.bypass call) f f

/-- The facts that can be handed to the forward analysis. -/
inductive Hands : FlowEdge → Fact → StmtId × Fact → Prop
  | moved {s f stmt g t} : x.program.stmt? s = some stmt → f.isZero = false → Moves x stmt f g →
    t ∈ x.program.succsOf stmt.id → Hands (.normal s) f (t, g)
  | left {call callee exit f stmt g t} : x.program.stmt? exit = some stmt → f.isZero = false →
    Moves x stmt f g → t ∈ x.program.succsOf stmt.id →
    Hands (.leave (some call) callee exit) f (t, g)

/-- Why a reaction can break off. -/
def Faults (edge : FlowEdge) (fault : Fault) : Prop := edge.LooksUp fault ∧ x.program.Lacks fault

def allowed (edge : FlowEdge) (f : Fact) : Reaction.Allowed where
  facts := Yields x edge f
  handed := Hands x edge f
  findings _ := False
  fault := Faults x edge

variable {x} {f : Fact}

theorem mem_returnedLocals {m : MethodId} {l : Local} :
    l ∈ returnedLocals x m ↔ ∃ e ∈ x.program.exitsOf m, ∃ a,
      x.program.stmt? e = some a ∧ a.action = .return (some (.local l)) := by
  unfold returnedLocals
  rw [List.mem_filterMap]
  refine exists_congr fun e => and_congr_right fun _ => ?_
  rw [← Option.map_eq_some_iff]
  split
  · next l' haction =>
    rw [haction]
    simp
  · next hother =>
    refine ⟨nofun, fun haction => ?_⟩
    exact absurd haction (hother l)

open Reaction Setup

/-- What an assignment makes of a fact, whichever edge applies it. -/
theorem within_assign {stmt : Stmt} {target source : Value}
    (haction : stmt.action = .assign target source) :
    Within ⟨fun g => g = f ∨ Moves x stmt f g,
      fun h => h.1 ∈ x.program.succsOf stmt.id ∧ Moves x stmt f h.2, fun _ => False,
      fun _ => False⟩ (assign x stmt target source f) := by
  unfold assign
  extract_lets operand
  -- a cast is seen through on the way to the source, which is all the rule says about it
  have hoperand : operand = source ∨ ∃ type, source = .cast type operand := by
    cases source with
    | cast type v => exact Or.inr ⟨type, rfl⟩
    | _ => exact Or.inl rfl
  have hafter : ∀ {g : Fact}, Moves x stmt f g → ∀ h ∈ x.handAfter stmt.id g,
      h.1 ∈ x.program.succsOf stmt.id ∧ Moves x stmt f h.2 := by
    intro g hg h hh
    obtain ⟨t, ht, rfl⟩ := List.mem_map.mp hh
    exact ⟨ht, hg⟩
  -- the path goes through the target, and the fact moves behind the source
  split
  · split
    · next moved hmoved =>
      have hmoves : Moves x stmt f moved := .mk haction (Or.inr hoperand) hmoved
      refine ⟨?_, hafter hmoves, nofun, nofun⟩
      intro g hg
      rw [List.mem_singleton.mp hg]
      exact Or.inr hmoves
    · exact within_empty
  -- the path goes through the source, and the fact stays, with a new name beside it
  · have hkept : ∀ g ∈ [f], g = f ∨ Moves x stmt f g := by
      intro g hg
      exact Or.inl (List.mem_singleton.mp hg)
    split
    · split
      · next moved hmoved =>
        have hmoves : Moves x stmt f moved := .mk haction (Or.inl rfl) hmoved
        refine ⟨?_, hafter hmoves, nofun, nofun⟩
        intro g hg
        rcases List.mem_cons.mp (Fact.mem_of_mem_distinct hg) with rfl | holder
        · exact Or.inl rfl
        · -- an older name is the moved fact, or there is none
          right
          split at holder
          · rw [List.mem_singleton.mp holder]
            exact hmoves
          · rw [List.mem_singleton.mp holder]
            exact hmoves
          · cases holder
      · exact within_pass hkept
    · exact within_pass hkept

theorem within_normal (s : StmtId) : Within (allowed x (.normal s) f) (normal x s f) := by
  unfold normal
  refine within_withStmt ?_ fun hnone => ⟨.normal, hnone⟩
  intro stmt hs
  have hkept : ∀ g ∈ [f], Yields x (.normal s) f g := by
    intro g hg
    rw [List.mem_singleton.mp hg]
    exact .kept
  split
  · next haction =>
    split
    · exact within_pass hkept
    · next hzero =>
      rw [Bool.not_eq_true] at hzero
      refine (within_assign haction).mono ?_ ?_ (fun _ h => h) nofun
      · rintro g (rfl | hmoves)
        · exact .kept
        · exact .moved hs hzero hmoves
      · rintro ⟨t, g⟩ ⟨ht, hmoves⟩
        exact .moved hs hzero hmoves ht
  · exact within_pass hkept

theorem within_enter (call : StmtId) (callee : MethodId) :
    Within (allowed x (.enter call callee) f) (enter x call callee f) := by
  unfold enter
  refine within_withMethod ?_ fun hnone => ⟨.callee, hnone⟩
  intro method hmethod
  split
  · exact within_empty
  · next hskip =>
    simp only [Bool.or_eq_true, not_or, Bool.not_eq_true] at hskip
    refine within_withStmt ?_ fun hnone => ⟨.call, hnone⟩
    intro stmt hs
    split
    · exact within_empty
    · next invocation hinvocation =>
      apply within_pass
      intro g hg
      unfold bindOperands at hg
      -- the locals of the callee come from the result, the arguments and the receiver
      rcases List.mem_append.mp (Fact.mem_of_mem_distinct hg) with hg | hg
      · obtain ⟨l, hl, rfl⟩ := List.mem_map.mp hg
        refine .bound hmethod hskip.2 ?_
        rcases List.mem_append.mp hl with hl | hl
        · rcases List.mem_append.mp hl with hl | hl
          · split at hl
            · exact Or.inr (Or.inr hl)
            · cases hl
          · obtain ⟨r, hr, rfl⟩ := List.mem_map.mp hl
            exact Or.inl (List.of_mem_zip (List.mem_filter.mp hr).1).2
        · split at hl
          · next this _ hthis =>
            split at hl
            · rw [List.mem_singleton.mp hl]
              exact Or.inr (Or.inl hthis)
            · cases hl
          · cases hl
      · split at hg
        · next hstatic =>
          rw [List.mem_singleton.mp hg]
          exact .entered hskip.2 hstatic
        · cases hg

theorem mem_unbindOperands {call : StmtId} {invocation : Invocation} {method : Method} {g : Fact}
    (h : g ∈ unbindOperands x call invocation method f) :
    (g = f ∧ f.path.isStatic = true) ∨ ∃ l, (.local l ∈ invocation.args ∨
      invocation.receiver = some l) ∧ g = (f.moveToLocal l x.most).atLevel call := by
  unfold unbindOperands at h
  split at h
  · next hstatic => exact Or.inl ⟨List.mem_singleton.mp h, hstatic⟩
  · obtain ⟨l, hl, rfl⟩ := List.mem_map.mp h
    refine Or.inr ⟨l, ?_, rfl⟩
    rcases List.mem_append.mp hl with hl | hl
    · obtain ⟨⟨param, arg⟩, hr, hlocal⟩ := List.mem_filterMap.mp hl
      have harg : arg ∈ invocation.args := (List.of_mem_zip hr).2
      dsimp only at hlocal
      split at hlocal
      · cases arg with
        | «local» l' =>
          cases hlocal
          exact Or.inl harg
        | _ => cases hlocal
      · cases hlocal
    · split at hl
      · next hreceiver =>
        split at hl
        · rw [List.mem_singleton.mp hl]
          exact Or.inr hreceiver
        · cases hl
      · cases hl

theorem within_leave (call : Option StmtId) (callee : MethodId) (exit : StmtId) :
    Within (allowed x (.leave call callee exit) f) (leave x call callee exit f) := by
  unfold leave
  split
  · exact within_empty
  · next call =>
    split
    · exact within_empty
    · next hzero =>
      rw [Bool.not_eq_true] at hzero
      refine within_withStmt ?_ fun hnone => ⟨.back, hnone⟩
      intro stmt hs
      split
      · exact within_empty
      · next invocation hinvocation =>
        refine within_withMethod ?_ fun hnone => ⟨.left, hnone⟩
        intro method hmethod
        refine within_withStmt ?_ fun hnone => ⟨.exit, hnone⟩
        intro exitStmt hexit
        extract_lets reaching
        -- the first statement of the callee is applied on the way out, so its moves come first
        have hreaching : Within ⟨fun g => g = f ∨ Moves x exitStmt f g,
            fun h => h.1 ∈ x.program.succsOf exitStmt.id ∧ Moves x exitStmt f h.2,
            fun _ => False, fun _ => False⟩ reaching := by
          cases haction : exitStmt.action with
          | assign target source =>
            have heq : reaching = assign x exitStmt target source f := by
              simp only [reaching, haction]
            rw [heq]
            exact within_assign haction
          | _ =>
            have heq : reaching = .pass [f] := by simp only [reaching, haction]
            rw [heq]
            exact within_pass fun g hg => Or.inl (List.mem_singleton.mp hg)
        refine ⟨?_, ?_, hreaching.findings, fun e he => (hreaching.fault e he).elim⟩
        · intro g hg
          obtain ⟨g₀, hg₀, hg⟩ := List.mem_flatMap.mp (Fact.mem_of_mem_distinct hg)
          have hstep := hreaching.facts g₀ hg₀
          -- what has moved there comes out unchanged if it is static, at an operand otherwise
          rcases mem_unbindOperands hg with ⟨rfl, hstatic⟩ | ⟨l, hl, rfl⟩
          · exact .left ⟨hs, hinvocation⟩ hexit hzero hstep hstatic
          · exact .returned ⟨hs, hinvocation⟩ hexit hzero hstep hl
        · rintro ⟨t, g⟩ hh
          obtain ⟨ht, hmoves⟩ := hreaching.handed _ hh
          exact .left hexit hzero hmoves ht

theorem within_bypass (call : StmtId) :
    Within (allowed x (.bypass call) f) (bypass x call f) := by
  have hpassed : ∀ g ∈ [f], Yields x (.bypass call) f g := by
    intro g hg
    rw [List.mem_singleton.mp hg]
    exact .passed
  unfold bypass
  split
  · exact within_pass hpassed
  · refine within_withStmt ?_ fun hnone => ⟨.bypass, hnone⟩
    intro stmt hs
    split
    · exact within_pass hpassed
    · split
      · exact within_empty
      · exact within_pass hpassed

theorem within_react (edge : FlowEdge) : Within (allowed x edge f) (react x edge f) := by
  cases edge with
  | normal s => exact within_normal s
  | enter call callee => exact within_enter call callee
  | leave call callee exit => exact within_leave call callee exit
  | bypass call => exact within_bypass call

end Backward

end TaintFlow
