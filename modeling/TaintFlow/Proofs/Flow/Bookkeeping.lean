import TaintFlow.Analysis.Coupled

/-!
# Bookkeeping does not steer the analysis

Solvers compare facts by their taints, so which of several facts with one taint a table keeps
depends on the order of work. It does not matter: facts with one taint make both analyses react
alike. The reactions carry the same taints on and over to the other side, find the same up to
witness paths, and break off with the same fault.
-/

namespace TaintFlow

open Tabulation

/-- The finding without its witness path. -/
def Finding.unwitnessed (r : Finding) : Finding := { r with path := none }

/-- What the receiving side can tell of a fact handed over. -/
def handedTaint (h : StmtId × Fact) : StmtId × Taint := (h.1, h.2.taint)

/-- A native model that does not look at bookkeeping. -/
def NativeModel.IgnoresBookkeeping (native : NativeModel) : Prop :=
  ∀ s f g args, f.taint = g.taint →
    (native s f args).map Fact.taint = (native s g args).map Fact.taint

/-! ## Facts with one taint -/

namespace Fact

variable {f g : Fact}

@[simp] theorem taint_moveTo (f : Fact) (path : AccessPath) :
    (f.moveTo path).taint = { f.taint with path, thrown := false } := rfl

@[simp] theorem taint_moveToLocal (f : Fact) (l : Local) (most : Nat) :
    (f.moveToLocal l most).taint =
      { f.taint with path := f.taint.path.moveToLocal l most, thrown := false } := rfl

@[simp] theorem taint_deactivate (f : Fact) (s : StmtId) :
    (f.deactivate s).taint = f.taint.deactivate s := rfl

@[simp] theorem taint_atLevel (f : Fact) (s : StmtId) :
    (f.atLevel s).taint = { f.taint with level := some s } := rfl

@[simp] theorem taint_caughtBy (f : Fact) (l : Local) :
    (f.caughtBy l).taint = { f.taint with path := .ofLocal l, thrown := false } := rfl

@[simp] theorem taint_throw (f : Fact) : f.throw.taint = { f.taint with thrown := true } := rfl

@[simp] theorem taint_enterCall (f : Fact) : f.enterCall.taint = f.taint := rfl

@[simp] theorem taint_visit (f : Fact) (s : StmtId) : (f.visit s).taint = f.taint := rfl

theorem taint_activateAt (h : f.taint = g.taint) (s : StmtId) :
    (f.activateAt s).taint = (g.activateAt s).taint := by
  unfold activateAt activate
  rw [h]
  split
  · rfl
  · exact h

/-- Both facts move, or neither does. -/
theorem moveToValue?_congr (h : f.taint = g.taint) (v : Value) (cut : Bool) (most : Nat) :
    (f.moveToValue? v cut most = none ∧ g.moveToValue? v cut most = none) ∨
    ∃ f' g', f.moveToValue? v cut most = some f' ∧ g.moveToValue? v cut most = some g' ∧
      f'.taint = g'.taint := by
  unfold moveToValue? path
  rw [h]
  cases g.taint.path.moveTo? v cut most with
  | none => exact Or.inl ⟨rfl, rfl⟩
  | some p => exact Or.inr ⟨_, _, rfl, rfl, by simp [h]⟩

theorem path_congr (h : f.taint = g.taint) : f.path = g.path := congrArg Taint.path h

theorem isActive_congr (h : f.taint = g.taint) : f.isActive = g.isActive := congrArg Taint.active h

theorem isZero_congr (h : f.taint = g.taint) : f.isZero = g.isZero := congrArg Taint.isZero h

theorem mayAlias_congr (h : f.taint = g.taint) (v : Value) : f.mayAlias v = g.mayAlias v := by
  unfold mayAlias path
  rw [h]

theorem reaches_congr (h : f.taint = g.taint) (v : Value) : f.reaches v = g.reaches v := by
  unfold reaches isActive
  rw [mayAlias_congr h, h]

/-- Which facts of a list survive is decided by their taints. -/
theorem map_taint_distinct {fs gs : List Fact} (h : fs.map Fact.taint = gs.map Fact.taint) :
    (distinct fs).map Fact.taint = (distinct gs).map Fact.taint := by
  have hfilter : ∀ (t : Taint) (l : List Fact), (l.filter fun g => g.taint ≠ t).map Fact.taint =
      (l.map Fact.taint).filter fun t' => t' ≠ t := by
    intro t l
    rw [List.filter_map]
    rfl
  -- over both lists at once: their taints agree element by element, so the same elements are
  -- dropped
  induction fs generalizing gs with
  | nil =>
    rw [List.map_nil, eq_comm, List.map_eq_nil_iff] at h
    rw [h]
  | cons f fs ih =>
    cases gs with
    | nil => cases h
    | cons g gs =>
      simp only [List.map_cons, List.cons.injEq] at h
      simp only [distinct, List.map_cons, hfilter]
      rw [ih h.2, h.1]

end Fact

/-! ## Reactions that are alike -/

namespace Reaction

structure Alike (r r' : Reaction) : Prop where
  facts : r.facts.map Fact.taint = r'.facts.map Fact.taint
  handed : r.handed.map handedTaint = r'.handed.map handedTaint
  findings : r.findings.map Finding.unwitnessed = r'.findings.map Finding.unwitnessed
  fault : r.fault = r'.fault

theorem Alike.refl (r : Reaction) : r.Alike r := ⟨rfl, rfl, rfl, rfl⟩

theorem Alike.trans {a b c : Reaction} (h : a.Alike b) (h' : b.Alike c) : a.Alike c :=
  ⟨h.facts.trans h'.facts, h.handed.trans h'.handed, h.findings.trans h'.findings,
    h.fault.trans h'.fault⟩

theorem Alike.pass {fs gs : List Fact} (h : fs.map Fact.taint = gs.map Fact.taint) :
    (pass fs).Alike (pass gs) := ⟨h, rfl, rfl, rfl⟩

theorem Alike.append {a a' b b' : Reaction} (ha : a.Alike a') (hb : b.Alike b') :
    (a ++ b).Alike (a' ++ b') := by
  change (Reaction.append a b).Alike (Reaction.append a' b')
  unfold Reaction.append
  rw [ha.fault]
  split
  · exact ha
  · refine ⟨Fact.map_taint_distinct ?_, ?_, ?_, hb.fault⟩
    · rw [List.map_append, List.map_append, ha.facts, hb.facts]
    · rw [List.map_append, List.map_append, ha.handed, hb.handed]
    · rw [List.map_append, List.map_append, ha.findings, hb.findings]

theorem Alike.sequence {α : Type} (l : List α) {F G : α → Reaction}
    (h : ∀ a ∈ l, (F a).Alike (G a)) : (sequence (l.map F)).Alike (sequence (l.map G)) := by
  suffices fold : ∀ (l : List α), (∀ a ∈ l, (F a).Alike (G a)) → ∀ r r' : Reaction, r.Alike r' →
      ((l.map F).foldl Reaction.append r).Alike ((l.map G).foldl Reaction.append r') by
    exact fold l h _ _ (.refl _)
  intro l
  induction l with
  | nil => exact fun _ r r' hr => hr
  | cons a l ih =>
    intro h r r' hr
    apply ih fun b hb => h b (List.mem_cons_of_mem a hb)
    exact hr.append (h a (List.mem_cons_self ..))

end Reaction

namespace Setup

variable {x : Setup}

theorem withStmt_alike {s : StmtId} {F G : Stmt → Reaction} (h : ∀ stmt, (F stmt).Alike (G stmt)) :
    (x.withStmt s F).Alike (x.withStmt s G) := by
  unfold withStmt
  split
  · exact h _
  · exact .refl _

theorem withMethod_alike {m : MethodId} {F G : Method → Reaction}
    (h : ∀ method, (F method).Alike (G method)) :
    (x.withMethod m F).Alike (x.withMethod m G) := by
  unfold withMethod
  split
  · exact h _
  · exact .refl _

theorem handBefore_alike (s : StmtId) {f g : Fact} (h : f.taint = g.taint) :
    (x.handBefore s f).map handedTaint = (x.handBefore s g).map handedTaint := by
  unfold handBefore handedTaint
  simp only [List.map_map, Function.comp_def, h]

theorem handAfter_alike (s : StmtId) {f g : Fact} (h : f.taint = g.taint) :
    (x.handAfter s f).map handedTaint = (x.handAfter s g).map handedTaint := by
  unfold handAfter handedTaint
  simp only [List.map_map, Function.comp_def, h]

theorem isExclusive_congr (s : Stmt) {f g : Fact} (h : f.taint = g.taint) :
    x.isExclusive s f = x.isExclusive s g := by
  unfold isExclusive Fact.path
  rw [h]

end Setup

/-! ## The forward analysis -/

namespace Forward

variable {x : Setup} {f g : Fact}

theorem findingAt_alike (h : f.taint = g.taint) (sink : StmtId) (value : Value) :
    (f.findingAt sink value).unwitnessed = (g.findingAt sink value).unwitnessed := by
  unfold Fact.findingAt Finding.unwitnessed
  rw [h]

theorem returnLeak_alike (h : f.taint = g.taint) (stmt : Stmt) :
    (returnLeak x stmt f).map Finding.unwitnessed =
      (returnLeak x stmt g).map Finding.unwitnessed := by
  unfold returnLeak
  rw [Fact.isActive_congr h, Fact.path_congr h]
  split
  · split
    · simp [findingAt_alike h]
    · rfl
  · rfl

theorem identity_alike (h : f.taint = g.taint) (stmt : Stmt) (target : Local) (source : Value) :
    (identity x stmt target source f).Alike (identity x stmt target source g) := by
  unfold identity
  apply Reaction.Alike.pass
  apply Fact.map_taint_distinct
  rw [h, Fact.isActive_congr h]
  simp only [List.map_cons]
  congr 1
  · split
    · simp [h]
    · exact h
  · split <;> rfl

theorem copyTo_alike (h : f.taint = g.taint) (stmt : Stmt) (target : Value) (cut : Bool) :
    (copyTo x stmt target cut f).Alike (copyTo x stmt target cut g) := by
  unfold copyTo
  rcases Fact.moveToValue?_congr h target cut x.most with ⟨hf, hg⟩ | ⟨f', g', hf, hg, hmoved⟩
  · rw [hf, hg]
    exact .refl _
  · rw [hf, hg]
    -- the two are worth probing alike, since that is read off the path
    have hprobe : (f'.visit stmt.id).isWorthProbing target =
        (g'.visit stmt.id).isWorthProbing target := by
      unfold Fact.isWorthProbing Fact.path
      rw [Fact.taint_visit, Fact.taint_visit, hmoved]
    dsimp only
    rw [Fact.mayAlias_congr h, Fact.isActive_congr h, hprobe]
    refine ⟨by simp [hmoved], ?_, rfl, rfl⟩
    split
    · exact Setup.handBefore_alike _ (by simp [hmoved])
    · rfl

theorem assign_alike (h : f.taint = g.taint) (stmt : Stmt) (target source : Value) :
    (assign x stmt target source f).Alike (assign x stmt target source g) := by
  unfold assign
  -- every question that the rules ask has been turned into one about `g` now
  rw [Fact.isZero_congr h, Fact.path_congr h, Fact.isActive_congr h, Fact.reaches_congr h]
  have hkept : Reaction.Alike
      { facts := [f]
        findings := if g.isActive && x.isSink stmt then [f.findingAt stmt.id target] else [] }
      { facts := [g]
        findings := if g.isActive && x.isSink stmt then [g.findingAt stmt.id target] else [] } := by
    refine ⟨by simp [h], rfl, ?_, rfl⟩
    split
    · simp [findingAt_alike h]
    · rfl
  dsimp only
  -- what stays is alike already, and its text would only be in the way
  generalize ({ facts := [f], findings := _ } : Reaction) = kept at hkept ⊢
  generalize ({ facts := [g], findings := _ } : Reaction) = kept' at hkept ⊢
  split
  · exact .pass (by simp [h])
  · split
    · split
      · exact hkept.append (copyTo_alike h stmt target _)
      · exact hkept
    · split
      · exact .refl _
      · exact .pass (by simp [h])

theorem normal_alike (h : f.taint = g.taint) (s : StmtId) :
    (normal x s f).Alike (normal x s g) := by
  unfold normal
  apply Setup.withStmt_alike
  intro stmt
  -- from here on only the activated facts matter
  have hs := Fact.taint_activateAt h s
  generalize f.activateAt s = f at hs ⊢
  generalize g.activateAt s = g at hs ⊢
  dsimp only
  split
  · exact identity_alike hs stmt _ _
  · exact assign_alike hs stmt _ _
  · exact ⟨by simp [hs], rfl, returnLeak_alike hs stmt, rfl⟩
  · apply Reaction.Alike.pass
    rw [Fact.path_congr hs]
    split <;> simp [hs]
  · exact .pass (by simp [hs])

theorem bindOperands_alike (h : f.taint = g.taint) (call : Stmt) (invocation : Invocation)
    (callee : MethodId) (method : Method) :
    (bindOperands x call invocation callee method f).Alike
      (bindOperands x call invocation callee method g) := by
  unfold bindOperands
  simp only [Fact.path_congr h, Fact.reaches_congr h]
  -- which locals are bound is the same for both, and `distinct` goes by taints alone
  split
  · apply Reaction.Alike.pass
    apply Fact.map_taint_distinct
    rw [List.map_append, List.map_append]
    congr 1
    · split
      · split <;> simp [h]
      · rfl
    · split <;> simp [h]
  · split
    · exact .refl _
    · apply Reaction.Alike.pass
      apply Fact.map_taint_distinct
      simp only [List.map_append, List.map_map, Function.comp_def]
      congr 1
      · congr 1
        · split
          · split <;> simp [h]
          · rfl
        · simp [h]
      · split <;> simp [h]

theorem enter_alike (h : f.taint = g.taint) (call : StmtId) (callee : MethodId) :
    (enter x call callee f).Alike (enter x call callee g) := by
  unfold enter
  apply Setup.withMethod_alike
  intro method
  rw [Fact.isZero_congr h]
  split
  · exact .refl _
  · split
    · exact .pass (by simp [h])
    · apply Setup.withStmt_alike
      intro stmt
      split
      · exact .refl _
      -- the library model is shown the path, which the two facts have in common
      · rw [Setup.isExclusive_congr stmt h]
        split
        · exact .refl _
        · exact bindOperands_alike (Fact.taint_activateAt h call) stmt _ callee method

theorem taint_probeAfter (h : f.taint = g.taint) (call : StmtId) :
    (probeAfter call f).taint = (probeAfter call g).taint := by
  unfold probeAfter
  rw [Fact.isActive_congr h]
  split
  · simp [h]
  · exact h

theorem comeOut_alike (h : f.taint = g.taint) (call : StmtId) (v : Value) :
    (comeOut x call v f).Alike (comeOut x call v g) := by
  unfold comeOut
  rw [Fact.mayAlias_congr h]
  refine ⟨by simp [h], ?_, rfl, rfl⟩
  split
  · exact Setup.handBefore_alike call (taint_probeAfter h call)
  · rfl

/-- A fact that moves to a value, if it can, and comes out there. -/
theorem comeOutAt_alike (h : f.taint = g.taint) (call exit : StmtId) (v : Value) :
    (match f.moveToValue? v false x.most with
      | some moved => comeOut x call v (moved.visit exit)
      | none => {}).Alike
    (match g.moveToValue? v false x.most with
      | some moved => comeOut x call v (moved.visit exit)
      | none => {}) := by
  rcases Fact.moveToValue?_congr h v false x.most with ⟨hf, hg⟩ | ⟨f', g', hf, hg, hmoved⟩
  · rw [hf, hg]
    exact .refl _
  · rw [hf, hg]
    exact comeOut_alike (f := f'.visit exit) (g := g'.visit exit) hmoved call v

theorem unbindOperands_alike (h : f.taint = g.taint) (call : Stmt) (invocation : Invocation)
    (method : Method) (exit : Stmt) :
    (unbindOperands x call invocation method exit f).Alike
      (unbindOperands x call invocation method exit g) := by
  unfold unbindOperands
  simp only [Fact.path_congr h, Fact.reaches_congr h]
  refine .append (.append (.append ?_ ?_) ?_) ?_
  · -- the result
    split
    · split
      · exact comeOutAt_alike h call.id exit.id _
      · exact .refl _
    · exact .refl _
  · -- static fields
    split
    · exact ⟨by simp [h], Setup.handBefore_alike call.id (taint_probeAfter h call.id), rfl, rfl⟩
    · exact .refl _
  · -- the arguments
    apply Reaction.Alike.sequence
    intro a _
    split
    · exact comeOutAt_alike h call.id exit.id _
    · exact .refl _
  · -- the receiver
    split
    · split
      · exact comeOut_alike (by simp [h]) call.id _
      · exact .refl _
    · exact .refl _

theorem isStranded_congr (h : f.taint = g.taint) (callee : MethodId) :
    isStranded x callee f = isStranded x callee g := by
  unfold isStranded Fact.isActive
  rw [h]

theorem leave_alike (h : f.taint = g.taint) (call : Option StmtId) (callee : MethodId)
    (exit : StmtId) : (leave x call callee exit f).Alike (leave x call callee exit g) := by
  unfold leave
  rw [Fact.isZero_congr h]
  split
  · exact .refl _
  · -- from here on the facts that leave take the place of `f` and `g`
    have hout : ((call.map f.activateAt).getD f).leaveCall.taint =
        ((call.map g.activateAt).getD g).leaveCall.taint := by
      cases call with
      | none => exact h
      | some call => exact Fact.taint_activateAt h call
    generalize ((call.map f.activateAt).getD f).leaveCall = f at hout ⊢
    generalize ((call.map g.activateAt).getD g).leaveCall = g at hout ⊢
    dsimp only
    rw [isStranded_congr hout]
    split
    · exact .refl _
    · exact .refl _
    · apply Setup.withStmt_alike
      intro exitStmt
      have hleak : Reaction.Alike { findings := returnLeak x exitStmt f }
          { findings := returnLeak x exitStmt g } :=
        ⟨rfl, rfl, returnLeak_alike hout exitStmt, rfl⟩
      split
      · exact hleak
      · refine hleak.append (Setup.withStmt_alike ?_)
        intro stmt
        split
        · exact .refl _
        · apply Setup.withMethod_alike
          intro method
          exact unbindOperands_alike hout stmt _ method exitStmt

theorem modelled_alike (h : f.taint = g.taint) (call : Stmt) (invocation : Invocation) :
    (modelled x call invocation f).Alike (modelled x call invocation g) := by
  unfold modelled
  split
  · exact .refl _
  -- the library model derives the same paths for both, so the sequences go side by side
  · simp only [Fact.path_congr h, Fact.isZero_congr h, Fact.isActive_congr h]
    split
    · exact .refl _
    · apply Reaction.Alike.sequence
      intro path _
      refine ⟨by simp [h], ?_, rfl, rfl⟩
      split
      · exact Setup.handBefore_alike call.id (by simp [h])
      · rfl

theorem throughNative_alike (hnative : x.native.IgnoresBookkeeping) (h : f.taint = g.taint)
    (call : Stmt) (invocation : Invocation) :
    (throughNative x call invocation f).map Fact.taint =
      (throughNative x call invocation g).map Fact.taint := by
  unfold throughNative
  rw [Fact.path_congr h]
  dsimp only
  split
  · exact hnative call f g invocation.args h
  · rfl

theorem created_alike (f g : Fact) (call : Stmt) (invocation : Invocation) :
    (created x call invocation f).map Fact.taint =
      (created x call invocation g).map Fact.taint := by
  unfold created
  split
  · cases call.target?.bind AccessPath.ofValue? <;> rfl
  · rfl

theorem callLeaks_alike (h : f.taint = g.taint) (call : Stmt) (invocation : Invocation) :
    (callLeaks x call invocation f).map Finding.unwitnessed =
      (callLeaks x call invocation g).map Finding.unwitnessed := by
  unfold callLeaks
  rw [Fact.isActive_congr h, Fact.isZero_congr h, Fact.path_congr h]
  split
  · rw [List.map_append, List.map_append]
    congr 1 <;> split <;> simp [findingAt_alike h]
  · rfl

theorem passesBy_congr (h : f.taint = g.taint) (call : Stmt) (invocation : Invocation) :
    passesBy x call invocation f = passesBy x call invocation g := by
  unfold passesBy
  rw [Fact.isZero_congr h, Fact.path_congr h, Setup.isExclusive_congr call h]

theorem bypass_alike (hnative : x.native.IgnoresBookkeeping) (h : f.taint = g.taint)
    (call : StmtId) : (bypass x call f).Alike (bypass x call g) := by
  unfold bypass
  apply Setup.withStmt_alike
  intro stmt
  split
  · exact .pass (by simp [h])
  · next invocation _ =>
    have hcall := Fact.taint_activateAt h call
    generalize f.activateAt call = f at hcall ⊢
    generalize g.activateAt call = g at hcall ⊢
    refine (modelled_alike hcall stmt invocation).append
      ⟨?_, rfl, callLeaks_alike hcall stmt invocation, rfl⟩
    -- native code has to be asked about separately: nothing but `hnative` keeps it from looking
    -- further
    simp only [List.map_append, throughNative_alike hnative hcall, created_alike f g,
      passesBy_congr hcall]
    congr 2
    split <;> simp [hcall]

theorem react_alike (hnative : x.native.IgnoresBookkeeping) (h : f.taint = g.taint)
    (edge : FlowEdge) : (react x edge f).Alike (react x edge g) := by
  cases edge with
  | normal s => exact normal_alike h s
  | enter call callee => exact enter_alike h call callee
  | leave call callee exit => exact leave_alike h call callee exit
  | bypass call => exact bypass_alike hnative h call

end Forward

/-! ## The backward analysis -/

namespace Backward

variable {x : Setup} {f g : Fact}

theorem assign_alike (h : f.taint = g.taint) (stmt : Stmt) (target source : Value) :
    (assign x stmt target source f).Alike (assign x stmt target source g) := by
  unfold assign
  rw [Fact.path_congr h]
  extract_lets operand
  clear_value operand
  -- backwards the fact moves where its path goes through the target, and has a copy through the
  -- source
  split
  · rcases Fact.moveToValue?_congr h operand target.isFieldOrElement x.most with
      ⟨hf, hg⟩ | ⟨f', g', hf, hg, hmoved⟩
    · rw [hf, hg]
      exact .refl _
    · rw [hf, hg]
      exact ⟨by simp [hmoved], Setup.handAfter_alike stmt.id hmoved, rfl, rfl⟩
  · split
    · rcases Fact.moveToValue?_congr h target operand.isFieldOrElement x.most with
        ⟨hf, hg⟩ | ⟨f', g', hf, hg, hmoved⟩
      · rw [hf, hg]
        exact .pass (by simp [h])
      · rw [hf, hg]
        refine ⟨Fact.map_taint_distinct ?_, Setup.handAfter_alike stmt.id hmoved, rfl, rfl⟩
        rw [List.map_cons, List.map_cons, h]
        congr 1
        split <;> simp [hmoved]
    · exact .pass (by simp [h])

theorem normal_alike (h : f.taint = g.taint) (s : StmtId) :
    (normal x s f).Alike (normal x s g) := by
  unfold normal
  apply Setup.withStmt_alike
  intro stmt
  split
  · rw [Fact.isZero_congr h]
    split
    · exact .pass (by simp [h])
    · exact assign_alike h stmt _ _
  · exact .pass (by simp [h])

theorem bindOperands_alike (h : f.taint = g.taint) (call : Stmt) (invocation : Invocation)
    (callee : MethodId) (method : Method) :
    (bindOperands x call invocation callee method f).map Fact.taint =
      (bindOperands x call invocation callee method g).map Fact.taint := by
  unfold bindOperands
  simp only [Fact.path_congr h]
  apply Fact.map_taint_distinct
  simp only [List.map_append, List.map_map, Function.comp_def, Fact.taint_moveToLocal, h]
  congr 1
  split <;> simp [h]

theorem enter_alike (h : f.taint = g.taint) (call : StmtId) (callee : MethodId) :
    (enter x call callee f).Alike (enter x call callee g) := by
  unfold enter
  apply Setup.withMethod_alike
  intro method
  rw [Fact.isZero_congr h]
  split
  · exact .refl _
  · apply Setup.withStmt_alike
    intro stmt
    split
    · exact .refl _
    · exact .pass (bindOperands_alike h stmt _ callee method)

theorem unbindOperands_alike (h : f.taint = g.taint) (call : StmtId) (invocation : Invocation)
    (method : Method) :
    (unbindOperands x call invocation method f).map Fact.taint =
      (unbindOperands x call invocation method g).map Fact.taint := by
  unfold unbindOperands
  simp only [Fact.path_congr h]
  split
  · simp [h]
  · simp only [List.map_map, Function.comp_def, Fact.taint_atLevel, Fact.taint_moveToLocal, h]

theorem flatMap_unbindOperands {fs gs : List Fact} (h : fs.map Fact.taint = gs.map Fact.taint)
    (call : StmtId) (invocation : Invocation) (method : Method) :
    (fs.flatMap (unbindOperands x call invocation method)).map Fact.taint =
      (gs.flatMap (unbindOperands x call invocation method)).map Fact.taint := by
  induction fs generalizing gs with
  | nil =>
    rw [List.map_nil, eq_comm, List.map_eq_nil_iff] at h
    rw [h]
  | cons f fs ih =>
    cases gs with
    | nil => cases h
    | cons g gs =>
      simp only [List.map_cons, List.cons.injEq] at h
      simp only [List.flatMap_cons, List.map_append]
      rw [ih h.2, unbindOperands_alike h.1]

/-- Reactions that are alike are carried out of a method alike. -/
theorem carryOut_alike {r r' : Reaction} (h : r.Alike r') (call : StmtId)
    (invocation : Invocation) (method : Method) :
    Reaction.Alike
      { r with facts := Fact.distinct (r.facts.flatMap (unbindOperands x call invocation method)) }
      { r' with
        facts := Fact.distinct (r'.facts.flatMap (unbindOperands x call invocation method)) } :=
  ⟨Fact.map_taint_distinct (flatMap_unbindOperands h.facts call invocation method), h.handed,
    h.findings, h.fault⟩

theorem leave_alike (h : f.taint = g.taint) (call : Option StmtId) (callee : MethodId)
    (exit : StmtId) : (leave x call callee exit f).Alike (leave x call callee exit g) := by
  unfold leave
  split
  · exact .refl _
  · next call =>
    rw [Fact.isZero_congr h]
    split
    · exact .refl _
    · apply Setup.withStmt_alike
      intro stmt
      split
      · exact .refl _
      · next invocation _ =>
        apply Setup.withMethod_alike
        intro method
        apply Setup.withStmt_alike
        intro exitStmt
        dsimp only
        -- the first statement of the callee is applied first, and alike
        split
        · exact carryOut_alike (assign_alike h exitStmt _ _) call invocation method
        · exact carryOut_alike (.pass (by simp [h])) call invocation method

theorem bypass_alike (h : f.taint = g.taint) (call : StmtId) :
    (bypass x call f).Alike (bypass x call g) := by
  unfold bypass goesThroughCallee
  rw [Fact.isZero_congr h, Fact.path_congr h]
  split
  · exact .pass (by simp [h])
  · apply Setup.withStmt_alike
    intro stmt
    split
    · exact .pass (by simp [h])
    · split
      · exact .refl _
      · exact .pass (by simp [h])

theorem react_alike (h : f.taint = g.taint) (edge : FlowEdge) :
    (react x edge f).Alike (react x edge g) := by
  cases edge with
  | normal s => exact normal_alike h s
  | enter call callee => exact enter_alike h call callee
  | leave call callee exit => exact leave_alike h call callee exit
  | bypass call => exact bypass_alike h call

end Backward

/-- Facts with one taint make both analyses react alike. -/
theorem Setup.react_alike {x : Setup} (hnative : x.native.IgnoresBookkeeping) {f g : Fact}
    (h : f.taint = g.taint) (d : Direction) (edge : FlowEdge) :
    (x.react d false edge f).Alike (x.react d false edge g) := by
  cases d with
  | forward => exact Forward.react_alike hnative h edge
  | backward => exact Backward.react_alike h edge

theorem NativeModel.conservative_ignoresBookkeeping : conservative.IgnoresBookkeeping := by
  intro s f g args h
  unfold conservative written
  simp only [Fact.path_congr h]
  apply Fact.map_taint_distinct
  simp only [List.map_map, Function.comp_def, Fact.taint_visit, Fact.taint_moveTo, h]

/-! ## Tracking of witness paths -/

/-- The setup with witness paths tracked or not, and with sets gone through in the given order. -/
def Setup.tracking (x : Setup) (tracking : PathTracking) (order : Order Fact Taint) : Setup :=
  { x with settings := { x.settings with pathTracking := tracking }, order }

section

variable {x : Setup} {t u : PathTracking} {o p : Order Fact Taint}

theorem Setup.isSource_tracking (stmt : Stmt) :
    (x.tracking t o).isSource stmt = x.isSource stmt := rfl

theorem Forward.identity_tracking (stmt : Stmt) (target : Local) (source : Value) (f : Fact) :
    (identity (x.tracking t o) stmt target source f).Alike
      (identity (x.tracking u p) stmt target source f) := by
  unfold identity
  apply Reaction.Alike.pass
  apply Fact.map_taint_distinct
  rw [Setup.isSource_tracking, Setup.isSource_tracking]
  simp only [List.map_cons]
  congr 1
  split <;> rfl

theorem Forward.normal_tracking (s : StmtId) (f : Fact) :
    (normal (x.tracking t o) s f).Alike (normal (x.tracking u p) s f) := by
  unfold normal
  change (x.withStmt s _).Alike (x.withStmt s _)
  apply Setup.withStmt_alike
  intro stmt
  dsimp only
  -- only a source makes a fact that says where it came from, and what it says is no part of its
  -- taint
  split
  · exact identity_tracking stmt _ _ _
  · exact .refl _
  · exact .refl _
  · exact .refl _
  · exact .refl _

theorem Forward.created_tracking (call : Stmt) (invocation : Invocation) (f : Fact) :
    (created (x.tracking t o) call invocation f).map Fact.taint =
      (created (x.tracking u p) call invocation f).map Fact.taint := by
  unfold created
  rw [Setup.isSource_tracking, Setup.isSource_tracking]
  split
  · cases call.target?.bind AccessPath.ofValue? <;> rfl
  · rfl

theorem Forward.bypass_tracking (call : StmtId) (f : Fact) :
    (bypass (x.tracking t o) call f).Alike (bypass (x.tracking u p) call f) := by
  unfold bypass
  change (x.withStmt call _).Alike (x.withStmt call _)
  apply Setup.withStmt_alike
  intro stmt
  split
  · exact .refl _
  · refine Reaction.Alike.append (.refl _) ⟨?_, rfl, rfl, rfl⟩
    simp only [List.map_append]
    rw [created_tracking (t := t) (u := u) (o := o) (p := p)]
    rfl

theorem Forward.react_tracking (edge : FlowEdge) (f : Fact) :
    (react (x.tracking t o) edge f).Alike (react (x.tracking u p) edge f) := by
  cases edge with
  | normal s => exact normal_tracking s f
  | enter call callee => exact .refl _
  | leave call callee exit => exact .refl _
  | bypass call => exact bypass_tracking call f

theorem Setup.react_tracking (hnative : x.native.IgnoresBookkeeping) {f g : Fact}
    (h : f.taint = g.taint) (d : Direction) (halted : Bool) (edge : FlowEdge) :
    ((x.tracking t o).react d halted edge f).Alike
      ((x.tracking u p).react d halted edge g) := by
  cases halted with
  | true => exact .refl _
  | false =>
    cases d with
    | forward =>
      exact (Forward.react_tracking edge f).trans
        (Forward.react_alike (x := x.tracking u p) hnative h edge)
    | backward => exact Backward.react_alike (x := x) h edge

end
end TaintFlow
