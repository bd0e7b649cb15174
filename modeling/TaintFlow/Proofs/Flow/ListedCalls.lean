import TaintFlow.Proofs.Flow.StrongUpdate

/-!
# Calls of listed methods

A list of methods says in one rule what its methods do with taint (`Invocation.Spreads`): what was
tainted stays tainted, a tainted argument taints the receiver, or the result if there is none, and a
tainted receiver taints the result. The analysis leaves such calls to the list alone. It does not
enter their callees, and a fact about an operand does not pass by the call, so it is up to the rule
that it is not lost. `Forward.listed_call_spreads` says that nothing is: what the list derives all
comes out of the call, and the facts about other places pass by.
-/

namespace TaintFlow

/-- The places that are tainted after the call of a listed method, if `path` with root `l` was
tainted before it. -/
inductive Invocation.Spreads (invocation : Invocation) (target : Option Value) (path : AccessPath)
    (l : Local) : AccessPath → Prop
  | stays : .local l ∈ invocation.args ∨ invocation.receiver = some l →
    Spreads invocation target path l path
  | receiver {r} : .local l ∈ invocation.args → invocation.receiver = some r → r ≠ l →
    Spreads invocation target path l (.ofLocal r)
  | result {v q} : invocation.receiver = some l ∨
      invocation.receiver = none ∧ .local l ∈ invocation.args →
    target = some v → v.Names q → Spreads invocation target path l q

theorem Value.names_iff {v : Value} {p : AccessPath} :
    v.Names p ↔ AccessPath.ofValue? v = some p := by
  constructor
  · exact Names.ofValue?
  · intro h
    cases v <;> cases h <;> constructor

section

variable {w : ListedMethods} {stmt : Stmt} {invocation : Invocation} {path q : AccessPath}
  {l : Local}

theorem AccessPath.startsAt_iff_of_root (hroot : path.root = .local l) {r : Local} :
    path.startsAt r = true ↔ l = r := by
  rw [startsAt_eq_true, hroot, Root.local.injEq]

theorem AccessPath.any_isRootedAt_iff (hroot : path.root = .local l) (args : List Value) :
    args.any path.isRootedAt = true ↔ Value.local l ∈ args := by
  rw [List.any_eq_true]
  constructor
  · rintro ⟨v, hv, hrooted⟩
    obtain ⟨l', rfl, hroot'⟩ := isRootedAt_eq_true.mp hrooted
    rw [hroot, Root.local.injEq] at hroot'
    exact hroot' ▸ hv
  · intro h
    exact ⟨_, h, isRootedAt_eq_true.mpr ⟨l, rfl, hroot⟩⟩

/-- The list derives the places of the rule and no others. -/
theorem ListedMethods.mem_derived_iff (hcall : stmt.call? = some invocation)
    (hlisted : w.supports invocation.method = true) (hroot : path.root = .local l) :
    q ∈ w.derived stmt path ↔ invocation.Spreads stmt.target? path l q := by
  have hstatic : path.isStatic = false := by simp [AccessPath.isStatic, hroot]
  have hargs := AccessPath.any_isRootedAt_iff hroot invocation.args
  have hresult : q ∈ (stmt.target?.bind AccessPath.ofValue?).toList ↔
      ∃ v, stmt.target? = some v ∧ v.Names q := by
    simp only [Option.mem_toList, Option.bind_eq_some_iff, Value.names_iff]
  unfold derived
  rw [hcall]
  dsimp only
  rw [hstatic, hlisted]
  simp only [Bool.not_true, Bool.or_self, Bool.false_eq_true, if_false, hargs, List.mem_eraseDups,
    List.mem_append]
  -- the list looks at the receiver first; the rule says which of its branches gives a place
  constructor
  · rintro (hkept | hnew)
    · split at hkept
      · next harg =>
        rw [List.mem_singleton.mp hkept]
        exact .stays (Or.inl harg)
      · cases hkept
    · split at hnew
      · next r hreceiver =>
        split at hnew
        · next hstarts =>
          rw [AccessPath.startsAt_iff_of_root hroot] at hstarts
          subst hstarts
          rcases List.mem_cons.mp hnew with rfl | hnew
          · exact .stays (Or.inr hreceiver)
          · obtain ⟨v, htarget, hnames⟩ := hresult.mp hnew
            exact .result (Or.inl hreceiver) htarget hnames
        · next hstarts =>
          rw [AccessPath.startsAt_iff_of_root hroot] at hstarts
          split at hnew
          · next harg =>
            rw [List.mem_singleton.mp hnew]
            exact .receiver harg hreceiver (Ne.symm hstarts)
          · cases hnew
      · next hreceiver =>
        split at hnew
        · next harg =>
          obtain ⟨v, htarget, hnames⟩ := hresult.mp hnew
          exact .result (Or.inr ⟨hreceiver, harg⟩) htarget hnames
        · cases hnew
  · intro h
    cases h with
    | stays hoperand =>
      rcases hoperand with harg | hreceiver
      · rw [if_pos harg]
        exact Or.inl (List.mem_singleton_self _)
      · rw [hreceiver]
        dsimp only
        rw [if_pos ((AccessPath.startsAt_iff_of_root hroot).mpr rfl)]
        exact Or.inr (List.mem_cons_self ..)
    | @receiver r harg hreceiver hne =>
      rw [hreceiver]
      simp only [if_neg (mt (AccessPath.startsAt_iff_of_root hroot).mp hne.symm), if_pos harg]
      exact Or.inr (List.mem_singleton_self _)
    | @result v q hoperand htarget hnames =>
      have hmem := hresult.mpr ⟨v, htarget, hnames⟩
      rcases hoperand with hreceiver | ⟨hreceiver, harg⟩
      · rw [hreceiver]
        dsimp only
        rw [if_pos ((AccessPath.startsAt_iff_of_root hroot).mpr rfl)]
        exact Or.inr (List.mem_cons_of_mem _ hmem)
      · rw [hreceiver]
        simp only [if_pos harg]
        exact Or.inr hmem

end

namespace Forward

open Reaction

variable {x : Setup} {w : ListedMethods} {call : StmtId} {stmt : Stmt} {invocation : Invocation}
  {f : Fact} {l : Local} {q : AccessPath}

/-- The places of the rule are all mentioned by the call. -/
theorem isOperand_of_spreads (hroot : f.path.root = .local l)
    (h : invocation.Spreads stmt.target? f.path l q) : isOperand stmt invocation q = true := by
  unfold isOperand
  simp only [Bool.or_eq_true]
  -- an operand or the target of the call, and static fields are always allowed
  cases h with
  | stays hoperand =>
    rcases hoperand with harg | hreceiver
    · exact Or.inl (Or.inr ((AccessPath.any_isRootedAt_iff hroot _).mpr harg))
    · refine Or.inl (Or.inl (Or.inr ?_))
      rw [hreceiver]
      exact AccessPath.startsAt_eq_true.mpr hroot
  | receiver _ hreceiver _ =>
    refine Or.inl (Or.inl (Or.inr ?_))
    rw [hreceiver]
    exact AccessPath.startsAt_eq_true.mpr rfl
  | result _ htarget hnames =>
    rw [htarget]
    cases hnames with
    | static g => exact Or.inl (Or.inl (Or.inl rfl))
    | «local» l' | field l' _ | element l' _ =>
      exact Or.inr (AccessPath.startsAt_eq_true.mpr rfl)

/-- A place of the rule calls for an operand that is tainted, so the model is asked about the
fact. -/
theorem concerned_of_spreads (hroot : f.path.root = .local l)
    (h : invocation.Spreads stmt.target? f.path l q) :
    (invocation.receiver.all fun receiver =>
      f.path.startsAt receiver || invocation.args.any f.path.isRootedAt) = true := by
  have hoperand : .local l ∈ invocation.args ∨ invocation.receiver = some l := by
    cases h with
    | stays hoperand => exact hoperand
    | receiver harg _ _ => exact Or.inl harg
    | result hoperand _ _ => exact hoperand.symm.imp And.right id
  rcases hoperand with harg | hreceiver
  · rw [(AccessPath.any_isRootedAt_iff hroot _).mpr harg]
    cases invocation.receiver <;> simp
  · rw [hreceiver]
    simp [AccessPath.startsAt_eq_true.mpr hroot]

/-- Every place of the rule comes out of the call, with the source and in the phase of the fact. -/
theorem mem_taints_modelled (hlibrary : x.library = some w.model)
    (hcalls : stmt.call? = some invocation) (hlisted : w.supports invocation.method = true)
    (hzero : f.isZero = false) (hthrown : f.taint.thrown = false) (hroot : f.path.root = .local l)
    (h : invocation.Spreads stmt.target? f.path l q) :
    { f.taint with path := q } ∈ (modelled x stmt invocation f).taints := by
  have hmoved : (f.moveTo q).taint = { f.taint with path := q } := by
    unfold Fact.moveTo
    rw [← hthrown]
  have hderived : q ∈ (w.model.derived stmt f.path).filter (isOperand stmt invocation) :=
    List.mem_filter.mpr
      ⟨(ListedMethods.mem_derived_iff hcalls hlisted hroot).mpr h, isOperand_of_spreads hroot h⟩
  unfold modelled
  rw [hlibrary]
  dsimp only
  rw [hzero, concerned_of_spreads hroot h]
  simp only [Bool.or_true, Bool.not_true, Bool.or_self, Bool.false_eq_true, if_false]
  refine (sequence_spec ?_).2 _ (List.mem_map.mpr ⟨q, hderived, rfl⟩) _ ?_
  · intro r hr
    obtain ⟨path, -, rfl⟩ := List.mem_map.mp hr
    rfl
  · rw [← hmoved]
    exact List.mem_singleton.mpr rfl

/-- The callees of a listed method are not entered. -/
theorem enter_of_listed {callee : MethodId} {method : Method} (hlibrary : x.library = some w.model)
    (hcall : x.CallAt call stmt invocation) (hlisted : w.supports invocation.method = true)
    (hzero : f.isZero = false) (hmethod : x.program.method? callee = some method) :
    enter x call callee f = {} := by
  have hexclusive : x.isExclusive stmt f = true := by
    unfold Setup.isExclusive
    rw [hlibrary]
    simp [ListedMethods.model, ListedMethods.isExclusive, hcall.calls, hlisted]
  unfold enter Setup.withMethod Setup.withStmt
  rw [hmethod, hcall.known]
  dsimp only
  rw [hcall.calls, hzero, hexclusive]
  split <;> rfl

/-- Let a fact with taint, rooted at a local and not in flight, meet the call of a listed method. It
enters no callee. After the call it is there as it was, activated if the call is its unit, unless
the result of the call goes to the local that it is about and that local is no operand. And every
place that the rule spreads taint to is tainted from the same source and in the same phase. -/
theorem listed_call_spreads (site : StmtId) (world : World) (hlibrary : x.library = some w.model)
    (hcall : x.CallAt call stmt invocation) (hlisted : w.supports invocation.method = true)
    (hzero : f.isZero = false) (hthrown : f.taint.thrown = false) (hroot : f.path.root = .local l)
    (hhalted : x.isHalted world.findings = false) :
    (∀ callee method, x.program.method? callee = some method →
      ∃ v, ((x.problem .forward).enter call callee f).run world = .ok ([], v)) ∧
    ∃ out v, ((x.problem .forward).bypass call site f).run world = .ok (out, v) ∧
      ((stmt.target? = some (.local l) →
          .local l ∈ invocation.args ∨ invocation.receiver = some l) →
        (f.activateAt call).taint ∈ out.map Fact.taint) ∧
      ∀ q, invocation.Spreads stmt.target? f.path l q →
        { (f.activateAt call).taint with path := q } ∈ out.map Fact.taint := by
  obtain ⟨hfault, hmodelled, hpasses⟩ := mem_taints_bypass (f := f) hcall
  have hpath := f.path_activateAt call
  have hroot' : (f.activateAt call).path.root = .local l := hpath ▸ hroot
  have hspreads : ∀ q, invocation.Spreads stmt.target? f.path l q →
      { (f.activateAt call).taint with path := q } ∈ (bypass x call f).taints := by
    intro q h
    refine hmodelled (mem_taints_modelled hlibrary hcall.calls hlisted ?_ ?_ hroot' ?_)
    · exact (f.isZero_activateAt call).trans hzero
    · exact (f.thrown_activateAt call).trans hthrown
    · rwa [hpath]
  obtain ⟨out, hrun, hout⟩ := Setup.exists_run_eq_ok (d := .forward) hhalted (.bypass call) f hfault
  have hmem : ∀ t, t ∈ out.map Fact.taint ↔ t ∈ (bypass x call f).taints :=
    fun _ => (hout.map Fact.taint).mem_iff
  refine ⟨?_, out, _, hrun, ?_, fun q hq => (hmem _).mpr (hspreads q hq)⟩
  · intro callee method hmethod
    have hempty : x.react .forward false (.enter call callee) f = {} :=
      enter_of_listed hlibrary hcall hlisted hzero hmethod
    obtain ⟨none, hnone, hperm⟩ :=
      Setup.exists_run_eq_ok (d := .forward) hhalted (.enter call callee) f (by rw [hempty])
    rw [hempty] at hnone hperm
    cases hperm.eq_nil
    exact ⟨_, hnone⟩
  · intro htarget
    rw [hmem]
    by_cases hoperand : .local l ∈ invocation.args ∨ invocation.receiver = some l
    · have hstays := hspreads f.path (.stays hoperand)
      rwa [← hpath] at hstays
    · apply hpasses
      -- a local that is no operand is apart from the call, and only the target can overwrite it
      have hapart : invocation.Apart (f.activateAt call).path := by
        intro l' hl'
        rw [hroot', Root.local.injEq] at hl'
        exact hl' ▸ not_or.mp hoperand
      rw [passesBy_of_apart hapart, Bool.not_eq_true', Option.any_eq_false]
      intro v hv
      rw [← Bool.not_eq_true, AccessPath.isRootedAt_eq_true]
      rintro ⟨l', rfl, hl'⟩
      rw [hroot', Root.local.injEq] at hl'
      exact hoperand (htarget (hl' ▸ hv))

/-! Appending to a buffer, which gives the buffer back. -/

def bufferNamed (name : String) : Local := ⟨⟨0⟩, name, .object "Buffer"⟩

def appendMethod : Signature := ⟨"Buffer", "Buffer", "append", ["Buffer"]⟩

def appendTo (buffer added : Local) : Action :=
  .assign (.local buffer) (.invoke (some buffer) appendMethod [.local added])

def appending : Setup :=
  { Setup.ofMain [appendTo (bufferNamed "a") (bufferNamed "b"),
      appendTo (bufferNamed "a") (bufferNamed "a"), .return none] [] with
    library := some (ListedMethods.model ⟨[("Buffer", "Buffer append(Buffer)")]⟩) }

/-- In `a = a.append(b)` an alias candidate at `b` that waits for the call stays and taints the
buffer, both as taint that has happened. In `a = a.append(a)` one local is receiver, argument and
target, and what is behind it stays. -/
theorem listed_call_spreads_append :
    (∃ out v, ((appending.problem .forward).bypass ⟨0⟩ ⟨1⟩
        ((secretAt (.ofLocal (bufferNamed "b"))).deactivate ⟨0⟩)).run {} = .ok (out, v) ∧
      (secretAt (.ofLocal (bufferNamed "b"))).taint ∈ out.map Fact.taint ∧
      (secretAt (.ofLocal (bufferNamed "a"))).taint ∈ out.map Fact.taint) ∧
    (∃ v, ((appending.problem .forward).enter ⟨1⟩ ⟨0⟩
      (secretAt ⟨.local (bufferNamed "a"), [boxField "secret"]⟩)).run {} = .ok ([], v)) ∧
    ∃ out v, ((appending.problem .forward).bypass ⟨1⟩ ⟨2⟩
        (secretAt ⟨.local (bufferNamed "a"), [boxField "secret"]⟩)).run {} = .ok (out, v) ∧
      (secretAt ⟨.local (bufferNamed "a"), [boxField "secret"]⟩).taint ∈ out.map Fact.taint ∧
      (secretAt (.ofLocal (bufferNamed "a"))).taint ∈ out.map Fact.taint := by
  have hlisted : ListedMethods.supports ⟨[("Buffer", "Buffer append(Buffer)")]⟩
      appendMethod = true := by
    decide +kernel
  have hfirst : appending.CallAt ⟨0⟩ ⟨⟨0⟩, ⟨0⟩, appendTo (bufferNamed "a") (bufferNamed "b")⟩
      ⟨some (bufferNamed "a"), appendMethod, [.local (bufferNamed "b")]⟩ := ⟨rfl, rfl⟩
  have hsecond : appending.CallAt ⟨1⟩ ⟨⟨1⟩, ⟨0⟩, appendTo (bufferNamed "a") (bufferNamed "a")⟩
      ⟨some (bufferNamed "a"), appendMethod, [.local (bufferNamed "a")]⟩ := ⟨rfl, rfl⟩
  obtain ⟨-, out, v, hrun, hkept, hspreads⟩ := listed_call_spreads ⟨1⟩ {} rfl hfirst hlisted
    (f := (secretAt (.ofLocal (bufferNamed "b"))).deactivate ⟨0⟩) rfl rfl rfl rfl
  obtain ⟨henter, out', v', hrun', hkept', hspreads'⟩ :=
    listed_call_spreads ⟨2⟩ {} rfl hsecond hlisted
    (f := secretAt ⟨.local (bufferNamed "a"), [boxField "secret"]⟩) rfl rfl rfl rfl
  refine ⟨⟨out, v, hrun, ?_, ?_⟩, henter ⟨0⟩ _ rfl, out', v', hrun', ?_, ?_⟩
  · exact hkept fun _ => Or.inl (List.mem_singleton_self _)
  · exact hspreads _ (.receiver (List.mem_singleton_self _) rfl (by decide))
  · exact hkept' fun _ => Or.inr rfl
  · exact hspreads' _ (.result (Or.inl rfl) rfl (.local _))

end Forward

end TaintFlow
