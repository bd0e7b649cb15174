import TaintFlow.Proofs.Flow.Descent
import TaintFlow.Proofs.Flow.Twin

/-!
# The scope of a taint

Locals belong to methods, and a fact about a local means something only inside the method of that
local. If the statements of a program mention locals of their own method only, then reactions
respect this: what goes on along an edge is in scope where the edge ends (`Setup.inScope_of_facts`),
and what is handed over is in scope at the statement around which it is handed over
(`Setup.inScope_of_handed`).

A library model may answer with any path. It is taken at its word only where it names an operand of
the call or a static field, and these are in scope.
-/

namespace TaintFlow

/-- The path starts at a static field or at a local of the method `m`. -/
inductive AccessPath.InScope (m : MethodId) (p : AccessPath) : Prop
  | static {f : FieldRef} : p.root = .static f → InScope m p
  | owned {l : Local} : p.root = .local l → l.method = m → l.method ≠ .synthetic → InScope m p

/-- No taint, or a taint at a static field or at a local of the method `m`. -/
def Taint.InScope (m : MethodId) (t : Taint) : Prop := t = .zero ∨ t.path.InScope m

/-- Statements mention locals of their own method only, and none of the synthetic method. -/
def Program.LocalsOwned (p : Program) : Prop :=
  ∀ stmt ∈ p.stmts, ∀ l ∈ stmt.action.locals, l.method = stmt.method ∧ l.method ≠ .synthetic

/-- Every local in the value is one of the method `m`, which is not the synthetic one. -/
def Value.OwnedBy (m : MethodId) (v : Value) : Prop :=
  ∀ l ∈ v.locals, l.method = m ∧ l.method ≠ .synthetic

/-- The method in which facts are after they have flowed along an edge. -/
def Program.landsIn (p : Program) : FlowEdge → MethodId
  | .normal s | .bypass s => p.ownerOf s
  | .enter _ callee => callee
  | .leave call callee _ => (call.map p.ownerOf).getD callee

/-! ## Values and places in scope -/

theorem Value.ownedBy_local {m : MethodId} {l : Local} :
    (Value.local l).OwnedBy m ↔ l.method = m ∧ l.method ≠ .synthetic := by
  simp [OwnedBy, locals]

theorem Value.OwnedBy.of_cast {m : MethodId} {type : Ty} {v : Value}
    (h : (Value.cast type v).OwnedBy m) : v.OwnedBy m := by
  intro l hl
  exact h l (by simpa [Value.locals] using hl)

/-- The place that a value denotes starts at a static field or at a local of the value. -/
theorem AccessPath.root_of_ofValue {v : Value} {p : AccessPath} (h : ofValue? v = some p) :
    (∃ f, p.root = .static f) ∨ ∃ l ∈ v.locals, p.root = .local l := by
  cases v with
  | static f =>
    cases h
    exact Or.inl ⟨f, rfl⟩
  | «local» l | element l _ | field l _ =>
    cases h
    exact Or.inr ⟨l, by simp [Value.locals], rfl⟩
  | _ => cases h

namespace AccessPath.InScope

variable {m : MethodId} {p : AccessPath} {f g : Fact} {v : Value} {l : Local}

theorem of_isStatic (h : p.isStatic = true) : p.InScope m := by
  unfold isStatic at h
  cases hroot : p.root with
  | «local» l =>
    rw [hroot] at h
    cases h
  | static f => exact .static hroot

theorem of_startsAt (hl : l.method = m ∧ l.method ≠ .synthetic) (h : p.startsAt l = true) :
    p.InScope m :=
  .owned (startsAt_eq_true.mp h) hl.1 hl.2

theorem of_isRootedAt (hv : v.OwnedBy m) (h : p.isRootedAt v = true) : p.InScope m := by
  obtain ⟨l, rfl, hroot⟩ := isRootedAt_eq_true.mp h
  exact of_startsAt (Value.ownedBy_local.mp hv) (startsAt_eq_true.mpr hroot)

theorem of_ofLocal (hl : l.method = m ∧ l.method ≠ .synthetic) : (ofLocal l).InScope m :=
  .owned rfl hl.1 hl.2

/-- A place that a value in scope denotes is in scope. -/
theorem of_ofValue (hv : v.OwnedBy m) (hp : ofValue? v = some p) : p.InScope m := by
  rcases root_of_ofValue hp with ⟨f, hstatic⟩ | ⟨l, hl, hlocal⟩
  · exact .static hstatic
  · exact .owned hlocal (hv l hl).1 (hv l hl).2

/-- Scope is a matter of where a path starts. -/
theorem of_root_eq {q : AccessPath} (h : q.InScope m) (hroot : p.root = q.root) : p.InScope m := by
  cases h with
  | static hq => exact .static (hroot.trans hq)
  | owned hq hmethod hgenuine => exact .owned (hroot.trans hq) hmethod hgenuine

theorem moveToValue (hv : v.OwnedBy m) {cut : Bool} {most : Nat}
    (hmoved : f.moveToValue? v cut most = some g) : g.path.InScope m := by
  obtain ⟨path, hpath, rfl⟩ := Option.map_eq_some_iff.mp hmoved
  obtain ⟨q, hq, rfl⟩ := Option.map_eq_some_iff.mp hpath
  exact (of_ofValue hv hq).of_root_eq rfl

theorem moveToLocal (hl : l.method = m ∧ l.method ≠ .synthetic) (f : Fact) (most : Nat) :
    (f.moveToLocal l most).path.InScope m :=
  .owned rfl hl.1 hl.2

end AccessPath.InScope

namespace Taint.InScope

variable {m : MethodId} {t : Taint} {f : Fact}

/-- A taint in scope that carries none is the zero taint: no other local of the synthetic method is
in scope. -/
theorem eq_zero (h : t.InScope m) (hzero : t.isZero = true) : t = .zero := by
  rcases h with rfl | hpath
  · rfl
  · have hgenuine : t.path.IsGenuine := by
      intro l hl
      cases hpath with
      | static hroot => cases hl.symm.trans hroot
      | owned hroot _ hgenuine =>
        cases hl.symm.trans hroot
        exact hgenuine
    rw [isZero_of_isGenuine hgenuine] at hzero
    cases hzero

/-- The zero fact is active from the start. -/
theorem activateAt (h : f.taint.InScope m) (s : StmtId) : (f.activateAt s).taint.InScope m := by
  rcases h with hzero | hpath
  · left
    unfold Fact.activateAt
    split
    · next hactivated =>
      rw [hzero] at hactivated
      cases hactivated
    · exact hzero
  · right
    exact hpath.of_root_eq (congrArg AccessPath.root (f.path_activateAt s))

end Taint.InScope

/-! ## What statements and methods name -/

section

variable {x : Setup} (howned : x.program.LocalsOwned) {d : Direction} {edge : FlowEdge} {f g : Fact}
  {s : StmtId} {stmt : Stmt}

open Program Taint

include howned

/-- The locals of a statement are those of the method that contains it. -/
theorem Program.LocalsOwned.belongs (hs : x.program.stmt? s = some stmt) {l : Local}
    (hl : l ∈ stmt.action.locals) : l.method = x.program.ownerOf s ∧ l.method ≠ .synthetic := by
  have howner : x.program.ownerOf s = stmt.method := by
    unfold ownerOf
    rw [hs]
    rfl
  rw [howner]
  exact howned stmt (mem_stmts hs) l hl

theorem Program.LocalsOwned.value (hs : x.program.stmt? s = some stmt) {a : Action}
    (haction : stmt.action = a) {v : Value} (hv : v ∈ a.values) :
    v.OwnedBy (x.program.ownerOf s) := by
  intro l hl
  refine howned.belongs hs ?_
  rw [haction]
  exact List.mem_flatMap.mpr ⟨v, hv, hl⟩

theorem Setup.CallAt.ownedBy {call : StmtId} {invocation : Invocation}
    (h : x.CallAt call stmt invocation) {v : Value} (hv : stmt.target? = some v ∨
      v ∈ invocation.args ∨ v ∈ invocation.receiver.map Value.local) :
    v.OwnedBy (x.program.ownerOf call) := by
  have hwhole := howned.value h.known rfl (toValue_mem_values h.calls)
  -- target, argument or receiver: all are values of one statement
  rcases hv with htarget | harg | hreceiver
  · exact howned.value h.known rfl (target_mem_values htarget)
  · intro l hl
    apply hwhole l
    rw [Invocation.toValue, Value.locals, Value.localsOfAll_eq]
    exact List.mem_append_right _ (List.mem_flatMap.mpr ⟨v, harg, hl⟩)
  · obtain ⟨receiver, hsome, rfl⟩ := Option.map_eq_some_iff.mp hreceiver
    apply Value.ownedBy_local.mpr
    apply hwhole receiver
    rw [Invocation.toValue, Value.locals, hsome]
    exact List.mem_append_left _ (List.mem_singleton.mpr rfl)

theorem Setup.CallAt.owns {call : StmtId} {invocation : Invocation}
    (h : x.CallAt call stmt invocation) {l : Local}
    (hl : .local l ∈ invocation.args ∨ invocation.receiver = some l) :
    l.method = x.program.ownerOf call ∧ l.method ≠ .synthetic := by
  apply Value.ownedBy_local.mp
  apply h.ownedBy howned
  right
  exact hl.imp_right fun hreceiver => Option.map_eq_some_iff.mpr ⟨l, hreceiver, rfl⟩

/-- The locals that a method binds are its own. -/
theorem Program.LocalsOwned.bound (hp : x.program.Built) {m : MethodId} {method : Method}
    (hm : x.program.method? m = some method) {l : Local}
    (hl : l ∈ method.params ∨ method.thisLocal = some l) :
    l.method = m ∧ l.method ≠ .synthetic := by
  obtain ⟨b, hbodies, hbuild⟩ := hp.exists_builder
  obtain ⟨-, methods, hmethods, hpm, hstmts, -⟩ := Builder.build_eq_ok hbuild
  unfold method? at hm
  rw [hpm, List.getElem?_toArray] at hm
  obtain ⟨decl, hdecl, hbuilt⟩ := Builder.getElem?_of_mapM hmethods hm
  rw [Array.getElem?_toList] at hdecl
  -- the identity statement that binds the local stands in the body of the method
  obtain ⟨s, hs, stmt, source, hstmt, haction⟩ := Builder.mem_buildMethod hbuilt hl
  obtain ⟨stmt', hstmt', hmethod⟩ := hbodies m.index decl hdecl s hs
  cases hstmt.symm.trans hstmt'
  have hlocal : l ∈ stmt.action.locals := by
    rw [haction]
    simp [Action.locals, Action.values, Value.locals]
  have hbelongs := howned stmt (hstmts ▸ Array.mem_of_getElem? hstmt) l hlocal
  rwa [hmethod] at hbelongs

theorem Program.LocalsOwned.returned (hp : x.program.Built) {m : MethodId} {l : Local}
    (hl : l ∈ Backward.returnedLocals x m) : l.method = m ∧ l.method ≠ .synthetic := by
  obtain ⟨exit, hexit, stmt, hstmt, haction⟩ := Backward.mem_returnedLocals.mp hl
  have howner : x.program.ownerOf exit = m := hp.startsOwned .backward m exit hexit
  have hvalue : (Value.local l).OwnedBy (x.program.ownerOf exit) :=
    howned.value hstmt haction (List.mem_cons_self ..)
  rw [howner] at hvalue
  exact Value.ownedBy_local.mp hvalue

/-! ## The forward analysis -/

theorem Forward.inScope_of_isOperand {call : StmtId} {invocation : Invocation}
    (hcall : x.CallAt call stmt invocation) {p : AccessPath}
    (h : isOperand stmt invocation p = true) : p.InScope (x.program.ownerOf call) := by
  unfold isOperand at h
  simp only [Bool.or_eq_true, Option.any_eq_true, List.any_eq_true] at h
  rcases h with ((hstatic | ⟨l, hl, hroot⟩) | ⟨v, hv, hroot⟩) | ⟨l, hl, hroot⟩
  · exact .of_isStatic hstatic
  · exact .of_startsAt (hcall.owns howned (Or.inr hl)) hroot
  · exact .of_isRootedAt (hcall.ownedBy howned (Or.inr (Or.inl hv))) hroot
  · obtain ⟨v, hv, hbase⟩ := Option.bind_eq_some_iff.mp hl
    have htarget := hcall.ownedBy howned (Or.inl hv)
    exact .of_startsAt (htarget l (Value.mem_locals_of_base hbase)) hroot

/-- What comes out of a call is at a place of the caller. -/
theorem Forward.inScope_of_leave {call exit : StmtId} {callee : MethodId}
    (hyields : Forward.Yields x (.leave (some call) callee exit) f g) :
    g.path.InScope (x.program.ownerOf call) := by
  cases hyields with
  | returned hcall _ _ hv hmoved =>
    have hscope := AccessPath.InScope.moveToValue (hcall.ownedBy howned hv) hmoved
    exact hscope
  | left _ _ hstatic => exact .of_isStatic hstatic

variable (hp : x.program.Built)

include hp

theorem Forward.inScope_of_yields (hnative : x.native = .conservative)
    (hyields : Forward.Yields x edge f g) (hf : f.taint.InScope (x.program.ownerOf edge.node)) :
    g.taint.InScope (x.program.landsIn edge) := by
  have htarget : ∀ {s stmt target source}, x.program.stmt? s = some stmt →
      stmt.action = .identity target source →
      target.method = x.program.ownerOf s ∧ target.method ≠ .synthetic := by
    intro s stmt target source hs haction
    exact Value.ownedBy_local.mp (howned.value hs haction (List.mem_cons_self ..))
  -- facts go to places of the method that the edge lands in, or are static and in scope everywhere
  cases hyields with
  | kept _ => exact hf.activateAt _
  | caught hs haction _ => exact Or.inr (.of_ofLocal (htarget hs haction))
  | arrived hs haction _ => exact Or.inr (.of_ofLocal (htarget hs haction))
  | assigned hs haction _ _ hmoved =>
    have hscope := AccessPath.InScope.moveToValue
      (howned.value hs haction (List.mem_cons_self ..)) hmoved
    exact Or.inr hscope
  | thrown hs haction hroot =>
    exact Or.inr (.of_isRootedAt (howned.value hs haction (List.mem_cons_self ..)) hroot)
  | zero _ hzero => exact Or.inl (hf.eq_zero hzero)
  | bound _ hmethod _ hl => exact Or.inr (.moveToLocal (howned.bound hp hmethod hl) _ _)
  | entered _ hstatic => exact Or.inr (.of_isStatic hstatic)
  | @returned call callee exit _ _ _ exitStmt _ moved hcall hexit hzero hv hmoved =>
    have hyields : Yields x (.leave (some call) callee exit) f (moved.visit exitStmt.id) :=
      .returned hcall hexit hzero hv hmoved
    exact Or.inr (inScope_of_leave howned hyields)
  | left _ _ hstatic => exact Or.inr (.of_isStatic hstatic)
  | idle _ _ => exact hf
  | passed _ _ => exact hf.activateAt _
  | modelled hcall _ _ _ hoperand => exact Or.inr (inScope_of_isOperand howned hcall hoperand)
  | native hcall hg =>
    unfold throughNative at hg
    dsimp only at hg
    split at hg
    · rw [hnative] at hg
      obtain ⟨v, path, hv, hpath, rfl⟩ := NativeModel.mem_conservative hg
      exact Or.inr (.of_ofValue (hcall.ownedBy howned (hv.symm.imp_right Or.inl)) hpath)
    · cases hg
  | created hcall _ htarget hpath =>
    exact Or.inr (.of_ofValue (hcall.ownedBy howned (Or.inl htarget)) hpath)

omit hp in
theorem Forward.inScope_of_hands {h : StmtId × Fact} (hhands : Forward.Hands x edge f h) :
    h.2.path.InScope (x.program.ownerOf (edge.site .forward)) := by
  cases hhands with
  | assigned hs haction _ _ _ hmoved _ =>
    have hscope := AccessPath.InScope.moveToValue
      (howned.value hs haction (List.mem_cons_self ..)) hmoved
    exact hscope
  | returned _ hyields _ =>
    have hscope := inScope_of_leave howned hyields
    unfold probeAfter
    split <;> exact hscope
  | modelled hcall _ _ _ _ hoperand _ => exact inScope_of_isOperand howned hcall hoperand

/-! ## The backward analysis -/

omit hp in
theorem Backward.inScope_of_moves (hs : x.program.stmt? s = some stmt)
    (hmoves : Backward.Moves x stmt f g) : g.path.InScope (x.program.ownerOf s) := by
  obtain @⟨target, source, v, cut, haction, hv, hmoved⟩ := hmoves
  have hsides : ∀ v ∈ [target, source], v.OwnedBy (x.program.ownerOf s) := by
    intro v hv
    exact howned.value hs haction hv
  have howner : v.OwnedBy (x.program.ownerOf s) := by
    rcases hv with rfl | rfl | ⟨type, rfl⟩
    · exact hsides v (List.mem_cons_self ..)
    · exact hsides v (List.mem_cons_of_mem _ (List.mem_singleton.mpr rfl))
    · exact (hsides _ (List.mem_cons_of_mem _ (List.mem_singleton.mpr rfl))).of_cast
  exact .moveToValue howner hmoved

theorem Backward.inScope_of_yields (hyields : Backward.Yields x edge f g)
    (hf : f.taint.InScope (x.program.ownerOf edge.node)) :
    g.taint.InScope (x.program.landsIn edge) := by
  cases hyields with
  | kept => exact hf
  | moved hs _ hmoves => exact Or.inr (inScope_of_moves howned hs hmoves)
  | bound hmethod _ hl =>
    refine Or.inr (.moveToLocal ?_ _ _)
    rcases hl with hparam | hthis | hreturned
    · exact howned.bound hp hmethod (Or.inl hparam)
    · exact howned.bound hp hmethod (Or.inr hthis)
    · exact howned.returned hp hreturned
  | entered _ hstatic => exact Or.inr (.of_isStatic hstatic)
  | left _ _ _ _ hstatic => exact Or.inr (.of_isStatic hstatic)
  | returned hcall _ _ _ hl => exact Or.inr (.moveToLocal (hcall.owns howned hl) _ _)
  | passed => exact hf

omit hp in
theorem Backward.inScope_of_hands {h : StmtId × Fact} (hhands : Backward.Hands x edge f h) :
    h.2.path.InScope (x.program.ownerOf (edge.site .backward)) := by
  cases hhands with
  | moved hs _ hmoves _ => exact inScope_of_moves howned hs hmoves
  | left hs _ hmoves _ => exact inScope_of_moves howned hs hmoves

/-! ## Reactions -/

/-- A fact that is in scope where an edge begins leads to facts that are in scope where it ends. -/
theorem Setup.inScope_of_facts (hnative : x.native = .conservative)
    (hf : f.taint.InScope (x.program.ownerOf edge.node)) (hg : g ∈ (x.react d false edge f).facts) :
    g.taint.InScope (x.program.landsIn edge) := by
  cases d with
  | forward =>
    exact Forward.inScope_of_yields howned hp hnative ((Forward.within_react edge).facts g hg) hf
  | backward =>
    exact Backward.inScope_of_yields howned hp ((Backward.within_react edge).facts g hg) hf

omit hp in
/-- What is handed over is in scope where it is handed over. -/
theorem Setup.inScope_of_handed {h : StmtId × Fact} (hh : h ∈ (x.react d false edge f).handed) :
    h.2.taint.InScope (x.program.ownerOf (edge.site d)) := by
  right
  cases d with
  | forward => exact Forward.inScope_of_hands howned ((Forward.within_react edge).handed h hh)
  | backward => exact Backward.inScope_of_hands howned ((Backward.within_react edge).handed h hh)

end

end TaintFlow
