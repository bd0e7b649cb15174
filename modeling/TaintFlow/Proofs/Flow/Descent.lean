import TaintFlow.Proofs.Flow.Coverage

/-!
# Descent of facts

Whatever a reaction makes of a fact descends from it: a source creates a fact, or the fact is
carried on by derivations, each under the guard that the analyses put before it. So a property of
facts that every derivation keeps is kept by reactions, on all edges and on both sides
(`Setup.within_descent`).

The guards rest on two things. No local of the program belongs to the synthetic method, so that a
taint at a place of the program is never the one that stands for none. And native code writes to the
operands of its call only.
-/

namespace TaintFlow

theorem Value.mem_locals_of_base {v : Value} {l : Local} (h : v.base? = some l) : l ∈ v.locals := by
  cases v with
  | «local» _ | element _ _ | field _ _ =>
    cases h
    simp [locals]
  | _ => cases h

/-- The path does not start at a local of the synthetic method. -/
def AccessPath.IsGenuine (p : AccessPath) : Prop := ∀ l, p.root = .local l → l.method ≠ .synthetic

theorem Taint.isZero_of_isGenuine {t : Taint} (h : t.path.IsGenuine) : t.isZero = false := by
  unfold isZero AccessPath.local?
  cases hroot : t.path.root with
  | «local» l => simpa using h l hroot
  | static f => rfl

theorem AccessPath.isGenuine_of_isStatic {p : AccessPath} (h : p.isStatic = true) :
    p.IsGenuine := by
  intro l hl
  unfold isStatic at h
  rw [hl] at h
  cases h

/-- The zero taint carries none. -/
theorem Fact.ne_zero_of_isZero {f : Fact} (h : f.isZero = false) : f.taint ≠ .zero := by
  intro hzero
  unfold isZero at h
  rw [hzero] at h
  cases h

/-- Facts that an analysis on the side `d` can derive from `f`. -/
inductive Setup.Descends (x : Setup) (d : Direction) (f : Fact) : Fact → Prop
  | refl : Descends x d f f
  /-- A source creates a fact from nothing, while another holds. -/
  | created {s stmt path origin} (parent) : d = .forward → x.program.stmt? s = some stmt →
    x.isSource stmt = true → stmt.action.origin? = some origin → path.IsGenuine →
    Descends x d f (Forward.newFact x path stmt.id origin parent)
  | moved {g path} : Descends x d f g → g.taint ≠ .zero → path.IsGenuine →
    Descends x d f (g.moveTo path)
  | thrown {g} : Descends x d f g → g.taint ≠ .zero → Descends x d f g.throw
  | activated {g} (s) : d = .forward → Descends x d f g → Descends x d f (g.activateAt s)
  | deactivated {g s} : Descends x d f g → g.taint ≠ .zero → x.program.Has s →
    Descends x d f (g.deactivate s)
  /-- The level is that of an alias candidate; the backward analysis has no others. -/
  | leveled {g s} : Descends x d f g → g.taint ≠ .zero → g.isActive = false ∨ d = .backward →
    x.program.Has s → Descends x d f (g.atLevel s)
  | visited {g} (s) : Descends x d f g → Descends x d f (g.visit s)
  | entered {g} : Descends x d f g → Descends x d f g.enterCall
  | left {g} : Descends x d f g → Descends x d f g.leaveCall

/-- Findings that a descendant of `f` makes at a sink. -/
inductive Setup.Leaks (x : Setup) (f : Fact) : Finding → Prop
  | mk {g s stmt} (v) : x.Descends .forward f g → g.taint ≠ .zero →
    x.program.stmt? s = some stmt → x.isSink stmt = true → Leaks x f (g.findingAt stmt.id v)

section

open Program

variable {x : Setup} {d : Direction} {edge : FlowEdge} {f g : Fact}

theorem Setup.descends_activateAt (s : StmtId) : x.Descends .forward f (f.activateAt s) :=
  .activated s rfl .refl

section

variable (hgenuine : ∀ l, x.program.MentionsLocal l → l.method ≠ .synthetic)

include hgenuine

/-- Places that the program names are genuine. -/
theorem AccessPath.isGenuine_of_ofValue {v : Value} (hv : x.program.MentionsValue v)
    {p : AccessPath} (hp : ofValue? v = some p) : p.IsGenuine := by
  intro l hl
  refine hgenuine l (hv.locals l ?_)
  cases v with
  | static f =>
    cases hp
    cases hl
  | «local» _ | element _ _ | field _ _ =>
    cases hp
    cases hl
    simp [Value.locals]
  | _ => cases hp

theorem AccessPath.isGenuine_of_startsAt {p : AccessPath} {l : Local}
    (hl : x.program.MentionsLocal l) (h : p.startsAt l = true) : p.IsGenuine := by
  intro l' hroot
  rw [startsAt_eq_true.mp h] at hroot
  cases hroot
  exact hgenuine l hl

theorem AccessPath.isGenuine_of_isRootedAt {p : AccessPath} {v : Value}
    (hv : x.program.MentionsValue v) (h : p.isRootedAt v = true) : p.IsGenuine := by
  obtain ⟨l, rfl, hroot⟩ := isRootedAt_eq_true.mp h
  have hl : x.program.MentionsLocal l := hv.locals l (by simp [Value.locals])
  exact isGenuine_of_startsAt hgenuine hl (startsAt_eq_true.mpr hroot)

/-- A taint at an operand is one. -/
theorem Fact.ne_zero_of_isRootedAt {v : Value} (hv : x.program.MentionsValue v)
    (h : f.path.isRootedAt v = true) : f.taint ≠ .zero :=
  ne_zero_of_isZero
    (Taint.isZero_of_isGenuine (AccessPath.isGenuine_of_isRootedAt hgenuine hv h))

namespace Setup.Descends

theorem moveToLocal (h : x.Descends d f g) (hne : g.taint ≠ .zero) {l : Local}
    (hl : x.program.MentionsLocal l) (most : Nat) : x.Descends d f (g.moveToLocal l most) := by
  refine h.moved hne ?_
  rintro l' ⟨⟩
  exact hgenuine l hl

theorem moveToValue (h : x.Descends d f g) (hne : g.taint ≠ .zero) {v : Value}
    (hv : x.program.MentionsValue v) {cut : Bool} {most : Nat} {moved : Fact}
    (hmoved : g.moveToValue? v cut most = some moved) :
    x.Descends d f moved ∧ moved.path.IsGenuine := by
  obtain ⟨path, hpath, rfl⟩ := Option.map_eq_some_iff.mp hmoved
  obtain ⟨q, hq, rfl⟩ := Option.map_eq_some_iff.mp hpath
  have hroot : q.IsGenuine := AccessPath.isGenuine_of_ofValue hgenuine hv hq
  exact ⟨h.moved hne hroot, hroot⟩

end Setup.Descends

/-- Library models write to operands of the call or to static fields. -/
theorem Forward.isGenuine_of_isOperand {call : StmtId} {stmt : Stmt} {invocation : Invocation}
    (hcall : x.CallAt call stmt invocation) {p : AccessPath}
    (h : isOperand stmt invocation p = true) : p.IsGenuine := by
  unfold isOperand at h
  simp only [Bool.or_eq_true, Option.any_eq_true, List.any_eq_true] at h
  rcases h with ((hstatic | ⟨l, hl, hroot⟩) | ⟨v, hv, hroot⟩) | ⟨l, hl, hroot⟩
  · exact AccessPath.isGenuine_of_isStatic hstatic
  · exact AccessPath.isGenuine_of_startsAt hgenuine (hcall.mentionsLocal (Or.inr hl)) hroot
  · exact AccessPath.isGenuine_of_isRootedAt hgenuine
      (hcall.mentionsValue (Or.inr (Or.inl hv))) hroot
  · obtain ⟨v, hv, hbase⟩ := Option.bind_eq_some_iff.mp hl
    have hmention := hcall.mentionsValue (Or.inl hv)
    exact AccessPath.isGenuine_of_startsAt hgenuine
      (hmention.locals l (Value.mem_locals_of_base hbase)) hroot

/-! ## The forward analysis -/

/-- What comes out of a call is a taint of the caller. -/
theorem Forward.descends_of_leave {call : Option StmtId} {callee : MethodId} {exit : StmtId}
    (hyields : Forward.Yields x (.leave call callee exit) f g) :
    x.Descends .forward f g ∧ g.isZero = false := by
  have hleaving : ∀ call, f.isZero = false → x.Descends .forward f (leaving (some call) f) ∧
      (leaving (some call) f).taint ≠ .zero := by
    intro call hzero
    have hactive := (f.isZero_activateAt call).trans hzero
    exact ⟨(Setup.descends_activateAt call).left,
      Fact.ne_zero_of_isZero (f := f.activateAt call) hactive⟩
  cases hyields with
  | @returned call _ _ _ stmt invocation exitStmt v moved hcall _ hzero hv hmoved =>
    obtain ⟨hdescends, hne⟩ := hleaving call hzero
    obtain ⟨hmovedDescends, hpath⟩ :=
      hdescends.moveToValue hgenuine hne (hcall.mentionsValue hv) hmoved
    exact ⟨hmovedDescends.visited _, Taint.isZero_of_isGenuine hpath⟩
  | @left call _ _ _ stmt invocation hcall hzero hstatic =>
    exact ⟨(hleaving call hzero).1,
      Taint.isZero_of_isGenuine (AccessPath.isGenuine_of_isStatic hstatic)⟩

variable (hp : x.program.Built)

include hp

theorem Forward.descends_of_yields (hnative : x.native = .conservative)
    (hyields : Forward.Yields x edge f g) : x.Descends .forward f g := by
  have hne : ∀ {s}, f.isZero = false → (f.activateAt s).taint ≠ .zero := by
    intro s hzero
    exact Fact.ne_zero_of_isZero ((f.isZero_activateAt s).trans hzero)
  have htarget : ∀ {s stmt target source}, x.program.stmt? s = some stmt →
      stmt.action = .identity target source → (AccessPath.ofLocal target).IsGenuine := by
    intro s stmt target source hs haction
    exact AccessPath.isGenuine_of_ofValue (v := .local target) hgenuine
      (mentionsValue_of_action hs haction (List.mem_cons_self ..)) rfl
  cases hyields with
  | kept _ => exact Setup.descends_activateAt _
  | @caught s _ stmt target hs haction hthrown =>
    refine ((Setup.descends_activateAt s).moved ?_ (htarget hs haction)).visited _
    -- the zero taint is never in flight
    intro hzero
    rw [hzero] at hthrown
    cases hthrown
  | arrived hs haction hsource =>
    exact .created _ rfl hs hsource (by rw [haction]; rfl) (htarget hs haction)
  | @assigned s _ stmt target source cut moved hs haction hzero _ hmoved =>
    have hmention : x.program.MentionsValue target :=
      mentionsValue_of_action hs haction (List.mem_cons_self ..)
    have hmovedDescends := (Setup.descends_activateAt s).moveToValue hgenuine
      (Fact.ne_zero_of_isZero hzero) hmention hmoved
    exact hmovedDescends.1.visited _
  | @thrown s _ stmt operand hs haction hroot =>
    have hmention : x.program.MentionsValue operand :=
      mentionsValue_of_action hs haction (List.mem_cons_self ..)
    exact (Setup.descends_activateAt s).thrown
      (Fact.ne_zero_of_isRootedAt hgenuine hmention hroot)
  | zero _ _ => exact .refl
  | @bound call callee _ stmt invocation method l _ hmethod hzero hl =>
    have hbound := hp.mentionsLocal_of_bound hmethod hl
    have hmoved :=
      (Setup.descends_activateAt call).moveToLocal hgenuine (hne hzero) hbound x.most
    exact (hmoved.visited _).entered
  | entered _ _ => exact (Setup.descends_activateAt _).entered
  | @returned call callee exit _ _ _ exitStmt _ moved hcall hexit hzero hv hmoved =>
    have hyields : Yields x (.leave (some call) callee exit) f (moved.visit exitStmt.id) :=
      .returned hcall hexit hzero hv hmoved
    exact (descends_of_leave hgenuine hyields).1
  | @left call callee exit _ _ _ hcall hzero hstatic =>
    have hyields : Yields x (.leave (some call) callee exit) f (leaving (some call) f) :=
      .left hcall hzero hstatic
    exact (descends_of_leave hgenuine hyields).1
  | idle _ _ => exact .refl
  | passed _ _ => exact Setup.descends_activateAt _
  | @modelled call _ stmt invocation library path hcall _ hzero _ hoperand =>
    exact ((Setup.descends_activateAt call).moved (Fact.ne_zero_of_isZero hzero)
      (isGenuine_of_isOperand hgenuine hcall hoperand)).visited _
  | @native call _ stmt invocation _ hcall hg =>
    unfold throughNative at hg
    dsimp only at hg
    split at hg
    · next hargs =>
      -- native code is asked about taints of its arguments only
      simp only [Bool.and_eq_true, List.any_eq_true] at hargs
      obtain ⟨-, arg, harg, hroot⟩ := hargs
      have hne := Fact.ne_zero_of_isRootedAt hgenuine
        (hcall.mentionsValue (Or.inr (Or.inl harg))) hroot
      rw [hnative] at hg
      obtain ⟨v, path, hv, hpath, rfl⟩ := NativeModel.mem_conservative hg
      have hmention := hcall.mentionsValue (hv.symm.imp_right Or.inl)
      exact ((Setup.descends_activateAt call).moved hne
        (AccessPath.isGenuine_of_ofValue hgenuine hmention hpath)).visited _
    · cases hg
  | @created call _ stmt invocation v path hcall hsource htarget hpath =>
    exact .created _ rfl hcall.known hsource hcall.origin
      (AccessPath.isGenuine_of_ofValue hgenuine (hcall.mentionsValue (Or.inl htarget)) hpath)

/-- What is handed to the backward analysis is an alias candidate. -/
theorem Forward.descends_of_hands {h : StmtId × Fact} (hhands : Forward.Hands x edge f h) :
    x.Descends .forward f h.2 ∧ h.2.isZero = false ∧ h.2.isActive = false := by
  -- the search for aliases of a taint at a genuine place
  have hprobe : ∀ {g s}, x.Descends .forward f g → g.isZero = false → x.program.Has s →
      x.Descends .forward f (g.deactivate s) ∧ (g.deactivate s).isZero = false ∧
        (g.deactivate s).isActive = false := by
    intro g s hg hzero hs
    exact ⟨hg.deactivated (Fact.ne_zero_of_isZero hzero) hs, hzero, rfl⟩
  cases hhands with
  | @assigned s _ stmt target source cut moved p hs haction hzero _ _ hmoved _ =>
    have hmention : x.program.MentionsValue target :=
      mentionsValue_of_action hs haction (List.mem_cons_self ..)
    obtain ⟨hdescends, hpath⟩ := (Setup.descends_activateAt s).moveToValue hgenuine
      (Fact.ne_zero_of_isZero hzero) hmention hmoved
    exact hprobe (hdescends.visited stmt.id) (Taint.isZero_of_isGenuine hpath) (hp.has_id hs)
  | @returned call callee exit _ stmt invocation g p hcall hyields _ =>
    obtain ⟨hdescends, hzero⟩ := descends_of_leave hgenuine hyields
    unfold probeAfter
    split
    · -- an active taint becomes a candidate that waits for the call, on the level of the caller
      have hid := hp.has_id hcall.known
      obtain ⟨hprobed, hnonzero, hinactive⟩ := hprobe hdescends hzero hid
      exact ⟨hprobed.leveled (Fact.ne_zero_of_isZero hnonzero) (Or.inl hinactive) hid, hzero, rfl⟩
    · next hinactive =>
      rw [Bool.not_eq_true] at hinactive
      exact ⟨hdescends, hzero, hinactive⟩
  | @modelled call _ stmt invocation library path p hcall _ hzero _ _ hoperand _ =>
    have hpath := isGenuine_of_isOperand hgenuine hcall hoperand
    exact hprobe ((Setup.descends_activateAt call).moved (Fact.ne_zero_of_isZero hzero) hpath)
      (Taint.isZero_of_isGenuine (t := ((f.activateAt call).moveTo path).taint) hpath)
      (hp.has_id hcall.known)

omit hp in
theorem Forward.leaks_of_finds {n : Finding} (hfinds : Forward.Finds x edge f n) :
    x.Leaks f n := by
  cases hfinds with
  | @assigned s _ stmt target source hs _ hzero _ hsink =>
    exact .mk _ (Setup.descends_activateAt s) (Fact.ne_zero_of_isZero hzero) hs hsink
  | @returned s _ stmt result hs haction _ hroot hsink =>
    have hmention : x.program.MentionsValue result :=
      mentionsValue_of_action hs haction (List.mem_cons_self ..)
    exact .mk _ (Setup.descends_activateAt s)
      (Fact.ne_zero_of_isRootedAt hgenuine hmention hroot) hs hsink
  | @left call callee exit _ stmt result hs haction hzero _ hroot hsink =>
    have hmention : x.program.MentionsValue result :=
      mentionsValue_of_action hs haction (List.mem_cons_self ..)
    refine .mk _ ?_ (Fact.ne_zero_of_isRootedAt hgenuine hmention hroot) hs hsink
    cases call with
    | none => exact Setup.Descends.refl.left
    | some call => exact (Setup.descends_activateAt call).left
  | @called call _ stmt invocation hcall _ hzero hsink _ =>
    exact .mk _ (Setup.descends_activateAt call) (Fact.ne_zero_of_isZero hzero)
      hcall.known hsink

/-! ## The backward analysis -/

omit hp in
theorem Backward.descends_of_moves {s : StmtId} {stmt : Stmt} (hs : x.program.stmt? s = some stmt)
    (hzero : f.isZero = false) (hmoves : Backward.Moves x stmt f g) :
    x.Descends .backward f g ∧ g.isZero = false := by
  obtain ⟨v, cut, hmention, hmoved⟩ := mentionsValue_of_moves hs hmoves
  obtain ⟨hdescends, hpath⟩ :=
    Setup.Descends.refl.moveToValue hgenuine (Fact.ne_zero_of_isZero hzero) hmention hmoved
  exact ⟨hdescends, Taint.isZero_of_isGenuine hpath⟩

omit hp in
/-- What the first statement of a method makes of a fact before it leaves. -/
theorem Backward.descends_of_last {s : StmtId} {stmt : Stmt} (hs : x.program.stmt? s = some stmt)
    (hzero : f.isZero = false) (hstep : g = f ∨ Backward.Moves x stmt f g) :
    x.Descends .backward f g ∧ g.isZero = false := by
  rcases hstep with rfl | hmoves
  · exact ⟨.refl, hzero⟩
  · exact descends_of_moves hgenuine hs hzero hmoves

theorem Backward.descends_of_yields (hyields : Backward.Yields x edge f g) :
    x.Descends .backward f g := by
  cases hyields with
  | kept => exact .refl
  | moved hs hzero hmoves => exact (descends_of_moves hgenuine hs hzero hmoves).1
  | bound hmethod hzero hl =>
    refine Setup.Descends.refl.moveToLocal hgenuine (Fact.ne_zero_of_isZero hzero) ?_ _
    rcases hl with hparam | hthis | hreturned
    · exact hp.mentionsLocal_of_bound hmethod (Or.inl hparam)
    · exact hp.mentionsLocal_of_bound hmethod (Or.inr hthis)
    · exact mentionsLocal_of_returned hreturned
  | entered _ _ => exact .refl
  | left _ hexit hzero hstep _ => exact (descends_of_last hgenuine hexit hzero hstep).1
  | @returned call callee exit _ stmt invocation exitStmt g l hcall hexit hzero hstep hl =>
    obtain ⟨hdescends, hnonzero⟩ := descends_of_last hgenuine hexit hzero hstep
    have hmention := hcall.mentionsLocal hl
    have hmoved :=
      hdescends.moveToLocal hgenuine (Fact.ne_zero_of_isZero hnonzero) hmention x.most
    refine hmoved.leveled (Fact.ne_zero_of_isZero (Taint.isZero_of_isGenuine ?_)) (Or.inr rfl)
      (has_of_stmt? hcall.known)
    rintro l' ⟨⟩
    exact hgenuine l hmention
  | passed => exact .refl

omit hp in
theorem Backward.descends_of_hands {h : StmtId × Fact} (hhands : Backward.Hands x edge f h) :
    x.Descends .backward f h.2 ∧ h.2.isZero = false := by
  cases hhands with
  | moved hs hzero hmoves _ => exact descends_of_moves hgenuine hs hzero hmoves
  | left hs hzero hmoves _ => exact descends_of_moves hgenuine hs hzero hmoves

/-! ## Reactions -/

/-- Facts and what is handed over descend from the fact, and findings are made by its
descendants. -/
theorem Setup.within_descent (hnative : x.native = .conservative) (d : Direction)
    (edge : FlowEdge) (f : Fact) :
    (x.react d false edge f).Within {
      facts := x.Descends d f
      handed := fun h => x.Descends d f h.2 ∧ h.2.isZero = false ∧
        (h.2.isActive = false ∨ d = .backward)
      findings := x.Leaks f
      fault := fun _ => True } := by
  cases d with
  | forward =>
    refine Forward.within_react edge |>.mono ?_ ?_ ?_ fun _ _ => trivial
    · intro g hyields
      exact Forward.descends_of_yields hgenuine hp hnative hyields
    · intro h hhands
      obtain ⟨hdescends, hzero, hinactive⟩ := Forward.descends_of_hands hgenuine hp hhands
      exact ⟨hdescends, hzero, Or.inl hinactive⟩
    · intro n hfinds
      exact Forward.leaks_of_finds hgenuine hfinds
  | backward =>
    refine Backward.within_react edge |>.mono ?_ ?_ ?_ fun _ _ => trivial
    · intro g hyields
      exact Backward.descends_of_yields hgenuine hp hyields
    · intro h hhands
      obtain ⟨hdescends, hzero⟩ := Backward.descends_of_hands hgenuine hhands
      exact ⟨hdescends, hzero, Or.inr rfl⟩
    · intro n hnone
      exact hnone.elim

end

end

end TaintFlow
