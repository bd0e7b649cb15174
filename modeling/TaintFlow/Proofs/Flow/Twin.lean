import TaintFlow.Proofs.Flow.Correspondence

/-!
# Twins react alike

Two analyses are twins if they are about the same program up to the numbers of its statements. Their
flow functions react to corresponding facts alike (`Setup.Twin.mirrors`). The one thing that has to
be asked for at every statement is that chains still correspond after an assignment has taken the
first field off, and after a native call (`Setup.Fits`).
-/

namespace TaintFlow

open Correspondence

/-- All but the body of a method, of which it only matters whether there is one. -/
structure Method.Headed (a b : Method) : Prop where
  signature : b.signature = a.signature
  isStatic : b.isStatic = a.isStatic
  isNative : b.isNative = a.isNative
  params : b.params = a.params
  thisLocal : b.thisLocal = a.thisLocal
  isConcrete : b.isConcrete = a.isConcrete

/-- The two analyses are about the same program, as far as their flow functions can see. -/
structure Setup.Twin (K : Correspondence) (x y : Setup) : Prop where
  lawful : K.Lawful x.most y.most
  stmts : ∀ {s s' a}, K.stmt s s' → x.program.stmt? s = some a →
    ∃ b, y.program.stmt? s' = some b ∧ K.Stmts a b
  numbered : ∀ {s b}, y.program.stmt? s = some b → b.id = s
  methods : ∀ m, Option.Rel Method.Headed (x.program.method? m) (y.program.method? m)
  callees : ∀ {s s'}, K.stmt s s' → y.program.calleesOf s' = x.program.calleesOf s
  declared : y.program.methodBySignature? = x.program.methodBySignature?
  returned : ∀ m, ∀ l ∈ Backward.returnedLocals x m, l ∈ Backward.returnedLocals y m
  isSource : ∀ {s a b}, x.program.stmt? s = some a → K.Stmts a b → y.isSource b = x.isSource a
  isSink : ∀ {s a b}, x.program.stmt? s = some a → K.Stmts a b → y.isSink b = x.isSink a
  inspectSinks : y.settings.inspectSinks = x.settings.inspectSinks
  library : Option.Rel (fun L L' => ∀ {s a b p q}, x.program.stmt? s = some a → K.Stmts a b →
    K.path p q → L'.isExclusive b q = L.isExclusive a p ∧
      ∀ r ∈ L.derived a p, ∃ r' ∈ L'.derived b q, K.path r r') x.library y.library

/-- Whether the assignment takes the first field off the chain and puts none in its place: forward
by reading it, backward by passing from one side of the assignment to the other. -/
def Action.shortens (p : AccessPath) : Direction → Action → Bool
  | .forward, .assign target source =>
    !target.isField && source.operands.any fun v => v.isField && p.passesThrough v
  | .backward, .assign target source =>
    target.isField && p.passesThrough target && !source.uncast.isField
      || source.uncast.isField && p.passesThrough source.uncast && !target.isField
  | _, _ => false

/-- Whether the method declared under the invoked signature is native. -/
def Setup.callsNative (x : Setup) (invocation : Invocation) : Bool :=
  ((x.program.methodBySignature? invocation.method).bind x.program.method?).any Method.isNative

/-- Whatever the statement `s` does to the chains of `p` and `q`, they still correspond after it. -/
structure Setup.Fits (K : Correspondence) (x y : Setup) (d : Direction) (s : StmtId)
    (p q : AccessPath) : Prop where
  shortened : ∀ {a}, x.program.stmt? s = some a → a.action.shortens p d = true → ∀ root,
    K.path (.truncated root p.fields.tail x.most) (.truncated root q.fields.tail y.most)
  native : ∀ {a b invocation f g}, d = .forward → x.CallAt s a invocation → K.Stmts a b →
    x.callsNative invocation = true → invocation.args.any p.isRootedAt = true → f.path = p →
    K.Facts f g → K.Covers (x.native a f invocation.args) (y.native b g invocation.args)

/-- Leaving a method, the analysis does not look at this last statement. -/
def Stmt.IsQuiet (a : Stmt) : Direction → Prop
  | .forward => ∀ v, a.action ≠ .return (some v)
  | .backward => ∀ target source, a.action ≠ .assign target source

/-- The statements by which a method is left correspond, or do not matter. -/
def Setup.Exits (K : Correspondence) (x y : Setup) (d : Direction) (e e' : StmtId) : Prop :=
  K.stmt e e' ∨ (∀ a, x.program.stmt? e = some a → a.IsQuiet d) ∧
    ∀ b, y.program.stmt? e' = some b → b.IsQuiet d

/-- The statement at which facts are before they flow along an edge. -/
def FlowEdge.node : FlowEdge → StmtId
  | .normal s | .enter s _ | .bypass s => s
  | .leave _ _ exit => exit

/-- The statement around which facts are handed over along an edge. -/
def FlowEdge.site : Direction → FlowEdge → StmtId
  | _, .normal s | _, .enter s _ | _, .bypass s => s
  | .forward, .leave call _ exit => call.getD exit
  | .backward, .leave _ _ exit => exit

/-- A field of an object is the only location that can be taken off a path that starts at a
local. -/
theorem AccessPath.isField_of_passesThrough {p : AccessPath} {v : Value}
    (hlocal : p.isStatic = false) (hv : v.isFieldOrElement = true)
    (hpasses : p.passesThrough v = true) : v.isField = true := by
  cases v with
  | field base field => rfl
  | static field =>
    unfold AccessPath.passesThrough at hpasses
    rw [hlocal] at hpasses
    cases hpasses
  | element base index => cases hpasses
  | _ => cases hv

namespace Setup.Twin

variable {K : Correspondence} {x y : Setup} (h : x.Twin K y) {N : List StmtId} {f g : Fact}

include h

theorem withStmt {s s' : StmtId} (hs : K.stmt s s') {F G : Stmt → Reaction}
    (hF : ∀ a b, x.program.stmt? s = some a → K.Stmts a b → b.id = s' → K.Mirrors N (F a) (G b)) :
    K.Mirrors N (x.withStmt s F) (y.withStmt s' G) := by
  unfold Setup.withStmt
  cases ha : x.program.stmt? s with
  | none => exact mirrors_fail _
  | some a =>
    obtain ⟨b, hb, hab⟩ := h.stmts hs ha
    rw [hb]
    exact hF a b ha hab (h.numbered hb)

theorem withMethod (m : MethodId) {F G : Method → Reaction}
    (hF : ∀ a b, a.Headed b → K.Mirrors N (F a) (G b)) :
    K.Mirrors N (x.withMethod m F) (y.withMethod m G) := by
  have hm := h.methods m
  unfold Setup.withMethod
  generalize x.program.method? m = a at hm ⊢
  generalize y.program.method? m = b at hm ⊢
  cases hm with
  | none => exact mirrors_fail _
  | some hab => exact hF _ _ hab

theorem withExit {d : Direction} {e e' : StmtId} (hexit : x.Exits K y d e e')
    {F G : Stmt → Reaction} (hF : ∀ a b, x.program.stmt? e = some a → b.id = e' →
      K.Stmts a b ∨ a.IsQuiet d ∧ b.IsQuiet d → K.Mirrors N (F a) (G b)) :
    K.Mirrors N (x.withStmt e F) (y.withStmt e' G) := by
  -- exits correspond, or neither of them does anything to a fact that leaves there
  rcases hexit with hs | ⟨hx, hy⟩
  · exact h.withStmt hs fun a b ha hab hid => hF a b ha hid (Or.inl hab)
  · unfold Setup.withStmt
    cases ha : x.program.stmt? e with
    | none => exact mirrors_fail _
    | some a =>
      cases hb : y.program.stmt? e' with
      | none => exact mirrors_of_fault
      | some b => exact hF a b ha (h.numbered hb) (Or.inr ⟨hx a ha, hy b hb⟩)

theorem any_method (m : MethodId) {F : Method → Bool} (hF : ∀ a b, a.Headed b → F b = F a) :
    (y.program.method? m).any F = (x.program.method? m).any F := by
  have hm := h.methods m
  generalize x.program.method? m = a at hm ⊢
  generalize y.program.method? m = b at hm ⊢
  cases hm with
  | none => rfl
  | some hab => exact hF _ _ hab

theorem entersCallee {s s' : StmtId} (hs : K.stmt s s') : y.entersCallee s' = x.entersCallee s := by
  unfold Setup.entersCallee
  rw [h.callees hs]
  congr 1
  funext m
  exact h.any_method m fun a b hab => hab.isConcrete

theorem isExclusive {s : StmtId} {a b : Stmt} (ha : x.program.stmt? s = some a)
    (hab : K.Stmts a b) (hfg : K.Facts f g) : y.isExclusive b g = x.isExclusive a f := by
  have hlibrary := h.library
  unfold Setup.isExclusive
  generalize x.library = L at hlibrary ⊢
  generalize y.library = L' at hlibrary ⊢
  cases hlibrary with
  | none => rfl
  | some hL => exact (hL ha hab hfg.path).1

end Setup.Twin

/-! ## The forward analysis -/

namespace Forward

variable {K : Correspondence} {x y : Setup} (h : x.Twin K y) {f g : Fact} (hfg : K.Facts f g)
  {s s' : StmtId} {a b : Stmt} (ha : x.program.stmt? s = some a) (hab : K.Stmts a b)

include h hfg ha hab

theorem finds_returnLeak : K.Finds (returnLeak x a f) (returnLeak y b g) := by
  unfold returnLeak
  rw [hab.action, hfg.isActive, (hfg.alike h.lawful).isRootedAt, h.isSink ha hab]
  split
  · exact finds_ite (finds_findingAt hfg hab.id _ _)
  · exact finds_nil

omit ha hfg in
theorem facts_newFact {p : AccessPath} (hp : p.fields.length ≤ 1) (origin : Value) :
    K.Facts (newFact x p a.id origin f) (newFact y p b.id origin g) :=
  ⟨h.lawful.short hp, hab.id, rfl, rfl, .none, .none, rfl⟩

theorem identity_mirrors {N : List StmtId} (target : Local) (source : Value) :
    K.Mirrors N (identity x a target source f) (identity y b target source g) := by
  unfold identity
  apply mirrors_pass
  apply Covers.distinct
  rw [hfg.isActive, show g.taint.thrown = f.taint.thrown from hfg.thrown, h.isSource ha hab]
  refine Covers.cons ?_ (covers_ite fun _ => covers_singleton ?_)
  · split
    · exact (hfg.caughtBy h.lawful target).visit a.id b.id
    · exact hfg
  · exact facts_newFact h hab (Nat.zero_le _) source

omit ha in
theorem copyTo_mirrors (target : Value) (cut : Bool)
    (hcut : cut = true → f.path.isStatic = false → target.isField = false → ∀ root,
      K.path (.truncated root f.path.fields.tail x.most)
        (.truncated root g.path.fields.tail y.most)) :
    K.Mirrors (y.program.predsOf b.id) (copyTo x a target cut f) (copyTo y b target cut g) := by
  unfold copyTo
  -- corresponding facts can move to the target both or not at all
  rcases hfg.moveToValue? h.lawful target cut hcut with ⟨hf, hg⟩ | ⟨f', g', hf, hg, hmoved⟩
  · rw [hf, hg]
    exact mirrors_empty
  · rw [hf, hg]
    have hprobe : (g'.visit b.id).isWorthProbing target =
        (f'.visit a.id).isWorthProbing target := by
      have halike := (hmoved.visit a.id b.id).alike h.lawful
      unfold Fact.isWorthProbing
      rw [halike.isLocal, halike.isRootedAt]
    dsimp only
    rw [hfg.mayAlias h.lawful, hfg.isActive, hprobe]
    refine mirrors_of_parts (covers_singleton (hmoved.visit a.id b.id)) ?_ finds_nil
    exact handsOver_ite (handsOver_map ((hmoved.visit a.id b.id).deactivate hab.id))

theorem assign_mirrors {target source : Value} (haction : a.action = .assign target source)
    (hfits : a.action.shortens f.path .forward = true → ∀ root,
      K.path (.truncated root f.path.fields.tail x.most)
        (.truncated root g.path.fields.tail y.most)) :
    K.Mirrors (y.program.predsOf b.id) (assign x a target source f)
      (assign y b target source g) := by
  have halike := hfg.alike h.lawful
  unfold assign
  -- all that the rules ask about a fact is the same for the two, so both take the same branch
  rw [hfg.isZero h.lawful, halike.isReadBy, halike.passesThrough, hfg.isActive, h.isSink ha hab,
    hfg.reaches h.lawful]
  have hkept : K.Mirrors (y.program.predsOf b.id)
      { facts := [f]
        findings := if f.isActive && x.isSink a then [f.findingAt a.id target] else [] }
      { facts := [g]
        findings := if f.isActive && x.isSink a then [g.findingAt b.id target] else [] } :=
    mirrors_of_parts (covers_singleton hfg) handsOver_nil
      (finds_ite (finds_findingAt hfg hab.id _ _))
  dsimp only
  split
  · exact mirrors_pass (covers_singleton hfg)
  · split
    · split
      · refine hkept.append (copyTo_mirrors h hfg hab target _ ?_)
        -- the field that was read is off the chain of the copy
        intro hread hlocal hplain
        obtain ⟨v, hv, hcut⟩ := List.any_eq_true.mp hread
        rw [Bool.and_eq_true] at hcut
        have hfield := AccessPath.isField_of_passesThrough hlocal hcut.1 hcut.2
        apply hfits
        rw [haction, Action.shortens, hplain]
        exact List.any_eq_true.mpr ⟨v, hv, by rw [hfield, hcut.2]; rfl⟩
      · exact hkept
    · split
      · exact mirrors_empty
      · exact mirrors_pass (covers_singleton hfg)

omit ha hab in
theorem normal_mirrors (hs : K.stmt s s') (hfits : x.Fits K y .forward s f.path g.path) :
    K.Mirrors (y.program.predsOf s') (normal x s f) (normal y s' g) := by
  unfold normal
  refine h.withStmt hs fun a b ha hab hid => ?_
  subst hid
  have hact := hfg.activateAt h.lawful hs
  have hshort := hfits.shortened ha
  rw [← Fact.path_activateAt f s, ← Fact.path_activateAt g b.id] at hshort
  -- from here on only the activated facts matter
  generalize f.activateAt s = f at hact hshort ⊢
  generalize g.activateAt b.id = g at hact hshort ⊢
  dsimp only
  rw [hab.action]
  cases haction : a.action with
  | identity target source => exact identity_mirrors h hact ha hab target source
  | assign target source => exact assign_mirrors h hact ha hab haction hshort
  | «return» result =>
    cases result with
    | none => exact mirrors_pass (covers_singleton hact)
    | some result =>
      exact mirrors_of_parts (covers_singleton hact) handsOver_nil (finds_returnLeak h hact ha hab)
  | throw operand =>
    apply mirrors_pass
    rw [(hact.alike h.lawful).isRootedAt]
    apply covers_singleton
    split
    · exact hact.throw
    · exact hact
  | _ => exact mirrors_pass (covers_singleton hact)

/-! ### Call edges -/

omit ha hab in
theorem bindOperands_mirrors {N : List StmtId} (invocation : Invocation) (callee : MethodId)
    {m m' : Method} (hm : m.Headed m') :
    K.Mirrors N (bindOperands x a invocation callee m f)
      (bindOperands y b invocation callee m' g) := by
  have halike := hfg.alike h.lawful
  have hbind : ∀ l, K.Facts (((f.moveToLocal l x.most).visit a.id).enterCall)
      (((g.moveToLocal l y.most).visit b.id).enterCall) :=
    fun l => hfg.moveToLocal h.lawful l
  -- the questions about operands have the same answers; what is bound corresponds local by local
  have hstatic : K.Covers (if f.path.isStatic then [f.enterCall] else [])
      (if f.path.isStatic then [g.enterCall] else []) :=
    covers_ite fun _ => covers_singleton hfg
  unfold bindOperands
  simp only [hm.signature, hm.isStatic, hm.params, hm.thisLocal, halike.startsAt, halike.isStatic,
    halike.isRootedAt, hfg.reaches h.lawful]
  split
  · refine mirrors_pass (Covers.append ?_ hstatic).distinct
    split
    · exact covers_ite fun _ => covers_singleton (hbind _)
    · exact covers_nil
  · split
    · exact mirrors_fail _
    · refine mirrors_pass ((Covers.append ?_ ?_).append hstatic).distinct
      · split
        · exact covers_ite fun _ => covers_singleton (hbind _)
        · exact covers_nil
      · exact covers_map (fun _ hp => hp) fun p _ => hbind p.2

omit ha hab in
theorem enter_mirrors {N : List StmtId} (hs : K.stmt s s') (callee : MethodId) :
    K.Mirrors N (enter x s callee f) (enter y s' callee g) := by
  unfold enter
  refine h.withMethod callee fun m m' hm => ?_
  rw [hm.isConcrete, hfg.isZero h.lawful]
  split
  · exact mirrors_empty
  · split
    · exact mirrors_pass (covers_singleton hfg)
    -- the zero facts have entered by now, so the call is looked at for other facts only
    · refine h.withStmt hs fun a b ha hab _ => ?_
      rw [hab.call?, h.isExclusive ha hab hfg, h.isSink ha hab, h.inspectSinks]
      split
      · exact mirrors_empty
      · split
        · exact mirrors_empty
        · exact bindOperands_mirrors h (hfg.activateAt h.lawful hs) _ callee hm

/-! ### Return edges -/

omit h ha in
theorem facts_probeAfter : K.Facts (probeAfter a.id f) (probeAfter b.id g) := by
  unfold probeAfter
  rw [hfg.isActive]
  split
  · exact (hfg.deactivate hab.id).atLevel hab.id
  · exact hfg

omit ha in
theorem comeOut_mirrors (v : Value) :
    K.Mirrors (y.program.predsOf b.id) (comeOut x a.id v f) (comeOut y b.id v g) := by
  unfold comeOut
  rw [hfg.mayAlias h.lawful]
  exact mirrors_of_parts (covers_singleton hfg)
    (handsOver_ite (handsOver_map (facts_probeAfter hfg hab))) finds_nil

omit ha in
/-- Corresponding facts that move to a value, if they can, and come out there. -/
theorem comeOutAt_mirrors (e e' : StmtId) (v : Value) :
    K.Mirrors (y.program.predsOf b.id)
      (match f.moveToValue? v false x.most with
        | some moved => comeOut x a.id v (moved.visit e)
        | none => {})
      (match g.moveToValue? v false y.most with
        | some moved => comeOut y b.id v (moved.visit e')
        | none => {}) := by
  rcases hfg.moveToValue? h.lawful v false (by simp) with ⟨hf, hg⟩ | ⟨f', g', hf, hg, hmoved⟩
  · rw [hf, hg]
    exact mirrors_empty
  · rw [hf, hg]
    exact comeOut_mirrors h (hmoved.visit e e') hab v

omit ha in
theorem unbindOperands_mirrors (invocation : Invocation) {m m' : Method} (hm : m.Headed m')
    {e e' : Stmt} (hexit : K.Stmts e e' ∨ e.IsQuiet .forward ∧ e'.IsQuiet .forward) :
    K.Mirrors (y.program.predsOf b.id) (unbindOperands x a invocation m e f)
      (unbindOperands y b invocation m' e' g) := by
  have halike := hfg.alike h.lawful
  unfold unbindOperands
  simp only [hm.params, hm.thisLocal, hab.target?, halike.startsAt, halike.isStatic,
    halike.isRootedAt, hfg.reaches h.lawful]
  refine .append (.append (.append ?_ ?_) ?_) ?_
  · -- the result
    rcases hexit with hexit | ⟨hquiet, -⟩
    · rw [hexit.action]
      split
      · split
        · exact comeOutAt_mirrors h hfg hab e.id e'.id _
        · exact mirrors_empty
      · exact mirrors_empty
    · split
      · next returned target haction _ => exact absurd haction (hquiet returned)
      · exact mirrors_empty
  · -- static fields
    split
    · exact mirrors_of_parts (covers_singleton hfg) (handsOver_map (facts_probeAfter hfg hab))
        finds_nil
    · exact mirrors_empty
  · -- the arguments
    apply mirrors_sequence
    intro r hr
    obtain ⟨p, hp, rfl⟩ := List.mem_map.mp hr
    refine ⟨_, List.mem_map_of_mem hp, ?_⟩
    split
    · exact comeOutAt_mirrors h hfg hab e.id e'.id _
    · exact mirrors_empty
  · -- the receiver
    split
    · split
      · exact comeOut_mirrors h ((hfg.moveToLocal h.lawful _).visit e.id e'.id) hab _
      · exact mirrors_empty
    · exact mirrors_empty

omit ha hab in
/-- Corresponding facts are stranded alike, if the analysis does not break off there. -/
theorem isStranded_twin (callee : MethodId) : (∃ e, isStranded x callee f = .error e) ∨
    isStranded y callee g = isStranded x callee f := by
  unfold isStranded
  rw [hfg.isActive]
  have hunit := Taints.unit hfg
  cases f.isActive with
  | true => exact Or.inr rfl
  | false =>
    -- the units correspond, or neither fact has one
    generalize f.taint.unit = u at hunit ⊢
    generalize g.taint.unit = v at hunit ⊢
    cases hunit with
    | none => exact Or.inr rfl
    | @some u v hs =>
      dsimp only
      -- a unit that is unknown breaks off the first analysis, and then nothing is claimed
      cases ha : x.program.stmt? u with
      | none => exact Or.inl ⟨_, rfl⟩
      | some a =>
        obtain ⟨b, hb, hab⟩ := h.stmts hs ha
        rw [hb]
        dsimp only
        rw [hab.method]
        exact Or.inr rfl

omit ha hab in
theorem leave_mirrors {call call' : Option StmtId} (hcall : Option.Rel K.stmt call call')
    (callee : MethodId) {e e' : StmtId} (hexit : x.Exits K y .forward e e') :
    K.Mirrors (y.program.predsOf (call'.getD e')) (leave x call callee e f)
      (leave y call' callee e' g) := by
  unfold leave
  rw [hfg.isZero h.lawful]
  split
  · exact mirrors_empty
  · -- from here on the facts that leave take the place of `f` and `g`
    have hout : K.Facts ((call.map f.activateAt).getD f).leaveCall
        ((call'.map g.activateAt).getD g).leaveCall := by
      cases hcall with
      | none => exact hfg
      | some hs => exact hfg.activateAt h.lawful hs
    generalize ((call.map f.activateAt).getD f).leaveCall = f at hout ⊢
    generalize ((call'.map g.activateAt).getD g).leaveCall = g at hout ⊢
    dsimp only
    rcases isStranded_twin h hout callee with ⟨fault, hstray⟩ | hstranded
    · rw [hstray]
      exact mirrors_fail _
    · rw [hstranded]
      split
      · exact mirrors_fail _
      · exact mirrors_empty
      · refine h.withExit hexit fun ea eb hea _ hquiet => ?_
        have hleak : K.Mirrors (y.program.predsOf (call'.getD e'))
            { findings := returnLeak x ea f } { findings := returnLeak y eb g } := by
          refine mirrors_of_parts covers_nil handsOver_nil ?_
          -- a return at corresponding exits is reported for both, a quiet exit reports nothing
          rcases hquiet with heab | ⟨hquiet, -⟩
          · exact finds_returnLeak h hout hea heab
          · unfold returnLeak
            split
            · next result haction => exact absurd haction (hquiet result)
            · exact finds_nil
        cases hcall with
        | none => exact hleak
        | some hs =>
          refine hleak.append (h.withStmt hs fun a b _ hab hid => ?_)
          subst hid
          rw [hab.call?]
          split
          · exact mirrors_empty
          · exact h.withMethod callee fun m m' hm =>
              unbindOperands_mirrors h hout hab _ hm hquiet

/-! ### Call-to-return edges -/

omit h hfg ha in
theorem isOperand_twin {p q : AccessPath} (hpq : p.Alike q) (invocation : Invocation) :
    isOperand b invocation q = isOperand a invocation p := by
  unfold isOperand
  rw [hpq.isStatic, hpq.startsAt, hpq.isRootedAt, hab.target?]

theorem modelled_mirrors (invocation : Invocation) :
    K.Mirrors (y.program.predsOf b.id) (modelled x a invocation f)
      (modelled y b invocation g) := by
  have halike := hfg.alike h.lawful
  have hlibrary := h.library
  unfold modelled
  -- the library models are compared rather than known, so only what they derive can be used
  generalize x.library = L at hlibrary ⊢
  generalize y.library = L' at hlibrary ⊢
  cases hlibrary with
  | none => exact mirrors_empty
  | some hL =>
    dsimp only
    rw [halike.isStatic, halike.startsAt, halike.isRootedAt, hfg.isZero h.lawful]
    split
    · exact mirrors_empty
    · apply mirrors_sequence
      intro r hr
      obtain ⟨p, hp, rfl⟩ := List.mem_map.mp hr
      obtain ⟨hp, hoperand⟩ := List.mem_filter.mp hp
      -- whatever the one model derives, the other derives a path that corresponds to it
      obtain ⟨q, hq, hpq⟩ := (hL ha hab hfg.path).2 p hp
      have hpalike := h.lawful.alike hpq
      refine ⟨_, List.mem_map_of_mem (List.mem_filter.mpr ⟨hq, ?_⟩), ?_⟩
      · rw [isOperand_twin hab hpalike]
        exact hoperand
      · rw [hpalike.isStatic, hpalike.startsAt, hfg.isActive]
        exact mirrors_of_parts (covers_singleton ((hfg.moveTo hpq).visit a.id b.id))
          (handsOver_ite (handsOver_map ((hfg.moveTo hpq).deactivate hab.id))) finds_nil

theorem passesBy_twin (invocation : Invocation) :
    passesBy y b invocation g = passesBy x a invocation f := by
  have halike := hfg.alike h.lawful
  unfold passesBy
  rw [hab.target?, halike.isRootedAt, hfg.isZero h.lawful, halike.isStatic, halike.startsAt,
    h.entersCallee hab.id, h.isExclusive ha hab hfg]

omit ha hab in
theorem covers_throughNative (invocation : Invocation)
    (hnative : x.callsNative invocation = true → invocation.args.any f.path.isRootedAt = true →
      K.Covers (x.native a f invocation.args) (y.native b g invocation.args)) :
    K.Covers (throughNative x a invocation f) (throughNative y b invocation g) := by
  have hdeclared : ((y.program.methodBySignature? invocation.method).bind y.program.method?).any
      Method.isNative = ((x.program.methodBySignature? invocation.method).bind
        x.program.method?).any Method.isNative := by
    rw [h.declared]
    cases x.program.methodBySignature? invocation.method with
    | none => rfl
    | some m => exact h.any_method m fun _ _ hm => hm.isNative
  unfold throughNative
  rw [hdeclared, (hfg.alike h.lawful).isRootedAt]
  apply covers_ite
  intro hboth
  rw [Bool.and_eq_true] at hboth
  exact hnative hboth.1 hboth.2

omit hfg in
theorem covers_created (invocation : Invocation) :
    K.Covers (created x a invocation f) (created y b invocation g) := by
  unfold created
  rw [h.isSource ha hab, hab.target?]
  apply covers_ite
  intro _
  cases hpath : a.target?.bind AccessPath.ofValue? with
  | none => exact covers_nil
  | some p =>
    refine covers_singleton (facts_newFact h hab ?_ _)
    obtain ⟨v, -, hv⟩ := Option.bind_eq_some_iff.mp hpath
    obtain ⟨field, hfield⟩ := AccessPath.exists_fields_ofValue? hv
    rw [hfield]
    exact Option.length_toList_le

theorem finds_callLeaks (invocation : Invocation) :
    K.Finds (callLeaks x a invocation f) (callLeaks y b invocation g) := by
  have halike := hfg.alike h.lawful
  unfold callLeaks
  rw [hfg.isActive, hfg.isZero h.lawful, h.isSink ha hab, halike.isRootedAt, halike.startsAt]
  have hfinds := finds_findingAt hfg hab.id invocation.toValue invocation.toValue
  exact finds_ite ((finds_ite hfinds).append (finds_ite hfinds))

omit ha hab in
theorem bypass_mirrors (hs : K.stmt s s') (hfits : x.Fits K y .forward s f.path g.path) :
    K.Mirrors (y.program.predsOf s') (bypass x s f) (bypass y s' g) := by
  unfold bypass
  refine h.withStmt hs fun a b ha hab hid => ?_
  subst hid
  rw [hab.call?]
  split
  · exact mirrors_pass (covers_singleton hfg)
  · next invocation hcalls =>
    have hact := hfg.activateAt h.lawful hs
    -- native code sees the facts after they have been activated
    have hnative : x.callsNative invocation = true →
        invocation.args.any (f.activateAt s).path.isRootedAt = true →
        K.Covers (x.native a (f.activateAt s) invocation.args)
          (y.native b (g.activateAt b.id) invocation.args) := by
      intro hdeclared hrooted
      rw [Fact.path_activateAt] at hrooted
      exact hfits.native rfl ⟨ha, hcalls⟩ hab hdeclared hrooted (Fact.path_activateAt f s) hact
    generalize f.activateAt s = f at hact hnative ⊢
    generalize g.activateAt b.id = g at hact hnative ⊢
    dsimp only
    rw [passesBy_twin h hact ha hab]
    refine (modelled_mirrors h hact ha hab invocation).append (mirrors_of_parts ?_ handsOver_nil
      (finds_callLeaks h hact ha hab invocation))
    exact ((covers_ite fun _ => covers_singleton hact).append
      (covers_throughNative h hact invocation hnative)).append (covers_created h ha hab invocation)

end Forward

/-! ## The backward analysis -/

namespace Backward

variable {K : Correspondence} {x y : Setup} (h : x.Twin K y) {f g : Fact} (hfg : K.Facts f g)
  {s s' : StmtId}

include h hfg

theorem assign_mirrors {a : Stmt} (b : Stmt) {target source : Value}
    (haction : a.action = .assign target source)
    (hfits : a.action.shortens f.path .backward = true → ∀ root,
      K.path (.truncated root f.path.fields.tail x.most)
        (.truncated root g.path.fields.tail y.most)) :
    K.Mirrors (y.program.succsOf b.id) (assign x a target source f)
      (assign y b target source g) := by
  have halike := hfg.alike h.lawful
  rw [haction] at hfits
  unfold assign
  rw [halike.passesThrough]
  extract_lets operand
  -- backwards a cast is seen through, and `shortens` says so of the uncast source
  have hoperand : operand = source.uncast := by
    cases source <;> rfl
  clear_value operand
  subst hoperand
  -- behind the target: a field that is written here is cut off, and the source takes its place
  split
  · next htarget =>
    have hcut : target.isFieldOrElement = true → f.path.isStatic = false →
        source.uncast.isField = false → ∀ root,
        K.path (.truncated root f.path.fields.tail x.most)
          (.truncated root g.path.fields.tail y.most) := by
      intro hcut hlocal hplain
      have hfield := AccessPath.isField_of_passesThrough hlocal hcut htarget
      exact hfits (by simp [Action.shortens, hfield, htarget, hplain])
    rcases hfg.moveToValue? h.lawful source.uncast target.isFieldOrElement hcut with
      ⟨hf, hg⟩ | ⟨f', g', hf, hg, hmoved⟩
    · rw [hf, hg]
      exact mirrors_empty
    · rw [hf, hg]
      exact mirrors_of_parts (covers_singleton hmoved) (handsOver_map hmoved) finds_nil
  · split
    -- behind the source: a field that is read here is cut off for the copy
    · next hsource =>
      have hcut : source.uncast.isFieldOrElement = true → f.path.isStatic = false →
          target.isField = false → ∀ root,
          K.path (.truncated root f.path.fields.tail x.most)
            (.truncated root g.path.fields.tail y.most) := by
        intro hcut hlocal hplain
        have hfield := AccessPath.isField_of_passesThrough hlocal hcut hsource
        exact hfits (by simp [Action.shortens, hfield, hsource, hplain])
      rcases hfg.moveToValue? h.lawful target source.uncast.isFieldOrElement hcut with
        ⟨hf, hg⟩ | ⟨f', g', hf, hg, hmoved⟩
      · rw [hf, hg]
        exact mirrors_pass (covers_singleton hfg)
      · rw [hf, hg]
        refine mirrors_of_parts (Covers.distinct ?_) (handsOver_map hmoved) finds_nil
        refine Covers.cons hfg ?_
        split
        · exact covers_singleton hmoved
        · exact covers_singleton hmoved
        · exact covers_nil
    · exact mirrors_pass (covers_singleton hfg)

theorem normal_mirrors (hs : K.stmt s s') (hfits : x.Fits K y .backward s f.path g.path) :
    K.Mirrors (y.program.succsOf s') (normal x s f) (normal y s' g) := by
  unfold normal
  refine h.withStmt hs fun a b ha hab hid => ?_
  subst hid
  rw [hab.action, hfg.isZero h.lawful]
  cases haction : a.action with
  | assign target source =>
    dsimp only
    split
    · exact mirrors_pass (covers_singleton hfg)
    · exact assign_mirrors h hfg b haction (hfits.shortened ha)
  | _ => exact mirrors_pass (covers_singleton hfg)

theorem covers_bindOperands {a b : Stmt} (hab : K.Stmts a b) (invocation : Invocation)
    (callee : MethodId) {m m' : Method} (hm : m.Headed m') :
    K.Covers (bindOperands x a invocation callee m f)
      (bindOperands y b invocation callee m' g) := by
  have halike := hfg.alike h.lawful
  unfold bindOperands
  simp only [hm.params, hm.thisLocal, hab.target?, halike.startsAt, halike.isStatic,
    halike.isRootedAt]
  refine Covers.distinct (Covers.append (covers_map ?_ fun l _ => hfg.moveToLocal h.lawful l)
    (covers_ite fun _ => covers_singleton hfg))
  -- only what the callee returns is looked up in the program
  intro l hl
  rcases List.mem_append.mp hl with hl | hl
  · rcases List.mem_append.mp hl with hl | hl
    · refine List.mem_append_left _ (List.mem_append_left _ ?_)
      split at hl
      · next hresult =>
        rw [if_pos hresult]
        exact h.returned callee l hl
      · cases hl
    · exact List.mem_append_left _ (List.mem_append_right _ hl)
  · exact List.mem_append_right _ hl

theorem enter_mirrors {N : List StmtId} (hs : K.stmt s s') (callee : MethodId) :
    K.Mirrors N (enter x s callee f) (enter y s' callee g) := by
  unfold enter
  refine h.withMethod callee fun m m' hm => ?_
  rw [hm.isConcrete, hfg.isZero h.lawful]
  split
  · exact mirrors_empty
  · refine h.withStmt hs fun a b _ hab _ => ?_
    rw [hab.call?]
    split
    · exact mirrors_empty
    · exact mirrors_pass (covers_bindOperands h hfg hab _ callee hm)

theorem covers_unbindOperands (hs : K.stmt s s') (invocation : Invocation) {m m' : Method}
    (hm : m.Headed m') :
    K.Covers (unbindOperands x s invocation m f) (unbindOperands y s' invocation m' g) := by
  have halike := hfg.alike h.lawful
  unfold unbindOperands
  simp only [hm.params, hm.thisLocal, halike.startsAt, halike.isStatic]
  split
  · exact covers_singleton hfg
  · exact covers_map (fun _ hl => hl) fun l _ => (hfg.moveToLocal h.lawful l).atLevel hs

omit hfg in
/-- Reactions that mirror one another are carried out of a method alike. -/
theorem carryOut_mirrors {N : List StmtId} {r r' : Reaction} (hr : K.Mirrors N r r')
    (hs : K.stmt s s') (invocation : Invocation) {m m' : Method} (hm : m.Headed m') :
    K.Mirrors N
      { r with facts := Fact.distinct (r.facts.flatMap (unbindOperands x s invocation m)) }
      { r' with
        facts := Fact.distinct (r'.facts.flatMap (unbindOperands y s' invocation m')) } := by
  -- a reaction that has broken off carries nothing out, so only the other case is left
  intro hfault
  obtain ⟨hfacts, hhanded, hfindings, hfaults⟩ := hr hfault
  refine ⟨Covers.distinct ?_, hhanded, hfindings, hfaults⟩
  intro f hf
  obtain ⟨f₀, hf₀, hf⟩ := List.mem_flatMap.mp hf
  obtain ⟨g₀, hg₀, hfg₀⟩ := hfacts f₀ hf₀
  obtain ⟨g, hg, hfg⟩ := covers_unbindOperands h hfg₀ hs invocation hm f hf
  exact ⟨g, List.mem_flatMap.mpr ⟨g₀, hg₀, hg⟩, hfg⟩

theorem leave_mirrors {call call' : Option StmtId} (hcall : Option.Rel K.stmt call call')
    (callee : MethodId) {e e' : StmtId} (hexit : x.Exits K y .backward e e')
    (hfits : x.Fits K y .backward e f.path g.path) :
    K.Mirrors (y.program.succsOf e') (leave x call callee e f) (leave y call' callee e' g) := by
  unfold leave
  cases hcall with
  | none => exact mirrors_empty
  | some hs =>
    dsimp only
    rw [hfg.isZero h.lawful]
    split
    · exact mirrors_empty
    · refine h.withStmt hs fun a b _ hab _ => ?_
      rw [hab.call?]
      split
      · exact mirrors_empty
      · refine h.withMethod callee fun m m' hm => h.withExit hexit fun ea eb hea hid hquiet => ?_
        subst hid
        refine carryOut_mirrors h ?_ hs _ hm
        -- the first statement of the callee is applied before the fact leaves, so the two have to
        -- agree on it
        rcases hquiet with heab | ⟨hx, hy⟩
        · rw [heab.action]
          cases haction : ea.action with
          | assign target source =>
            exact assign_mirrors h hfg eb haction (hfits.shortened hea)
          | _ => exact mirrors_pass (covers_singleton hfg)
        · -- both statements let the fact pass
          split
          · next target source haction => exact absurd haction (hx target source)
          · split
            · next target source haction => exact absurd haction (hy target source)
            · exact mirrors_pass (covers_singleton hfg)

theorem bypass_mirrors {N : List StmtId} (hs : K.stmt s s') :
    K.Mirrors N (bypass x s f) (bypass y s' g) := by
  have halike := hfg.alike h.lawful
  unfold bypass goesThroughCallee
  rw [hfg.isZero h.lawful, halike.isStatic, halike.startsAt, halike.isRootedAt,
    h.entersCallee hs]
  split
  · exact mirrors_pass (covers_singleton hfg)
  · refine h.withStmt hs fun a b _ hab _ => ?_
    rw [hab.call?, hab.target?]
    split
    · exact mirrors_pass (covers_singleton hfg)
    · split
      · exact mirrors_empty
      · exact mirrors_pass (covers_singleton hfg)

end Backward

/-! ## Both directions -/

/-- The same edge in two programs. -/
inductive Setup.Edges (K : Correspondence) (x y : Setup) (d : Direction) :
    FlowEdge → FlowEdge → Prop
  | normal {s s'} : K.stmt s s' → Edges K x y d (.normal s) (.normal s')
  | enter {s s' callee} : K.stmt s s' → Edges K x y d (.enter s callee) (.enter s' callee)
  | leave {call call' callee e e'} : Option.Rel K.stmt call call' → x.Exits K y d e e' →
    Edges K x y d (.leave call callee e) (.leave call' callee e')
  | bypass {s s'} : K.stmt s s' → Edges K x y d (.bypass s) (.bypass s')

/-- Corresponding facts along corresponding edges make twins react alike. -/
theorem Setup.Twin.mirrors {K : Correspondence} {x y : Setup} (h : x.Twin K y) {d : Direction}
    {edge edge' : FlowEdge} (hedge : x.Edges K y d edge edge') {f g : Fact} (hfg : K.Facts f g)
    (hfits : x.Fits K y d edge.node f.path g.path) :
    K.Mirrors ((y.program.view d.opposite).succsOf (edge'.site d)) (x.react d false edge f)
      (y.react d false edge' g) := by
  -- the direction decides about the rules, the edge about the rule
  cases d with
  | forward =>
    cases hedge with
    | normal hs => exact Forward.normal_mirrors h hfg hs hfits
    | enter hs => exact Forward.enter_mirrors h hfg hs _
    | leave hcall hexit => exact Forward.leave_mirrors h hfg hcall _ hexit
    | bypass hs => exact Forward.bypass_mirrors h hfg hs hfits
  | backward =>
    cases hedge with
    | normal hs => exact Backward.normal_mirrors h hfg hs hfits
    | enter hs => exact Backward.enter_mirrors h hfg hs _
    | leave hcall hexit => exact Backward.leave_mirrors h hfg hcall _ hexit hfits
    | bypass hs => exact Backward.bypass_mirrors h hfg hs

end TaintFlow
