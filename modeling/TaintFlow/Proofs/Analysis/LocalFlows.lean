import TaintFlow.Proofs.Analysis.Callless
import TaintFlow.Proofs.Program.StraightLine

/-!
# Exactness on flows through locals

On programs that move data through locals alone the analysis is exact. Label the result of every
source call with the number of the call, and let every assignment give its target the labels of what
it reads. Then the analysis reports a source at a sink call if and only if some path of the
control-flow graph carries the label of the source into an argument of the call.

Both directions rest on one description of a step: the taints after a statement are those of the
locals that the statement carries the taint to, and the one that it creates (`mem_taints_label`,
`mem_taints_zero`). A run keeps to the labels by the bounds on coupled runs, and it finds all of
them because it ends in a fixed point.

The size of a new array is no part of the array, and locals of the synthetic method never carry
taint: where labels follow either, reports are missed.
-/

namespace TaintFlow

open Tabulation

/-! ## The fragment -/

namespace Value

/-- A local or a constant. -/
def isAtom (v : Value) : Bool := v.asLocal?.isSome || v.isConstant

/-- A local, a constant, one operation on locals and constants, or something new. -/
def isSimple : Value → Bool
  | .binop _ left right => left.isAtom && right.isAtom
  | .cast _ operand | .length operand | .newArray _ operand => operand.isAtom
  | .new _ => true
  | v => v.isAtom

/-- The locals whose contents make up the value. The size of a new array is not in it. -/
def ingredients : Value → List Local
  | .newArray _ _ => []
  | v => v.locals

end Value

/-- Assignments between locals, source calls into a local, sink calls, and control flow. -/
def Action.isLocalFlow (lists : MethodLists) : Action → Bool
  | .assign (.local _) (.invoke receiver method args) =>
    receiver.isNone && args.isEmpty && lists.sources.contains method
  | .assign (.local _) source => source.isSimple
  | .invoke call =>
    call.receiver.isNone && call.args.all Value.isAtom && lists.sinks.contains call.method
  | .return _ | .branch _ | .goto | .nop => true
  | _ => false

/-- All statements are in the fragment, and sources and sinks go by signature. -/
structure Setup.LocalFlow (x : Setup) (lists : MethodLists) : Prop where
  classifier : x.classifier = lists.classifier
  fragment : ∀ stmt ∈ x.program.stmts, stmt.action.isLocalFlow lists = true

/-! ## Labels -/

/-- For every local the sources that its contents come from. -/
abbrev Labels := Local → Set StmtId

/-- Statement number `s` labels the result of a call with `s`. The target of any other assignment
gets the labels of the locals that `reads` finds in the source. -/
def Action.relabel (reads : Value → List Local) (s : StmtId) (labels : Labels) : Action → Labels
  | .assign (.local y) source => Function.update labels y
    (if (Invocation.ofValue? source).isSome then {s}
      else {label | ∃ l ∈ reads source, label ∈ labels l})
  | _ => labels

namespace Program

variable (p : Program) (reads : Value → List Local) (start : StmtId)

/-- Some path from `start` arrives at a statement with these labels. -/
inductive Arrives : StmtId → Labels → Prop
  | start : Arrives start fun _ => ∅
  | step {s t : StmtId} {stmt : Stmt} {labels : Labels} : Arrives s labels →
    p.stmt? s = some stmt → t ∈ p.succsOf s → Arrives t (stmt.action.relabel reads s labels)

/-- Some path from `start` carries the label of `source` into an argument of the call `sink`. -/
def Carries (sink source : StmtId) : Prop :=
  ∃ labels stmt invocation l, p.Arrives reads start sink labels ∧ p.stmt? sink = some stmt ∧
    stmt.call? = some invocation ∧ Value.local l ∈ invocation.args ∧ source ∈ labels l

end Program

/-- From some number of rounds on the analysis of `m` runs to its end, and its findings at every
call with a successor are the labels carried there. -/
def Setup.FindsExactly (x : Setup) (reads : Value → List Local) (m : MethodId) (start : StmtId) :
    Prop :=
  ∃ rounds, ∀ fuel ≥ rounds, ∃ out, x.analyze [m] fuel = .ok out ∧ out.completed = true ∧
    ∀ sink source, x.program.isCall sink = true → x.program.succsOf sink ≠ [] →
      (out.final.findings.containsFlow sink source = true ↔
        x.program.Carries reads start sink source)

/-! ## One step -/

/-- The labels of `l'` after the statement contain those of `l` before it. -/
def Action.carries (a : Action) (l l' : Local) : Prop :=
  match a with
  | .assign (.local y) source => if l' = y then l ∈ source.ingredients else l' = l
  | _ => l' = l

/-- The statement makes a call whose result goes to `l`. -/
def Action.callsInto (a : Action) (invocation : Invocation) (l : Local) : Prop :=
  a.call? = some invocation ∧ a.target? = some (.local l)

namespace Action

variable {lists : MethodLists} {a : Action} {labels : Labels} {s source : StmtId} {l : Local}

/-- The kinds of statements in the fragment. -/
theorem localFlow_cases (h : a.isLocalFlow lists = true) :
    (∃ y method, a = .assign (.local y) (.invoke none method []) ∧
      lists.sources.contains method = true) ∨
    (∃ y e, a = .assign (.local y) e ∧ e.isSimple = true) ∨
    (∃ method args, a = .invoke ⟨none, method, args⟩ ∧ lists.sinks.contains method = true) ∨
    (∃ result, a = .return result) ∨ (∃ condition, a = .branch condition) ∨ a = .goto ∨
    a = .nop := by
  unfold isLocalFlow at h
  split at h
  · next y receiver method args =>
    simp only [Bool.and_eq_true, Option.isNone_iff_eq_none, List.isEmpty_iff] at h
    obtain ⟨⟨rfl, rfl⟩, hsource⟩ := h
    exact Or.inl ⟨y, method, rfl, hsource⟩
  · next y e _ => exact Or.inr (Or.inl ⟨y, e, rfl, h⟩)
  · next call =>
    obtain ⟨receiver, method, args⟩ := call
    simp only [Bool.and_eq_true, Option.isNone_iff_eq_none] at h
    obtain ⟨⟨rfl, -⟩, hsink⟩ := h
    exact Or.inr (Or.inr (Or.inl ⟨method, args, rfl, hsink⟩))
  · next result => exact Or.inr (Or.inr (Or.inr (Or.inl ⟨result, rfl⟩)))
  · next condition => exact Or.inr (Or.inr (Or.inr (Or.inr (Or.inl ⟨condition, rfl⟩))))
  · simp
  · simp
  · cases h

theorem ofValue?_of_isSimple {e : Value} (h : e.isSimple = true) :
    Invocation.ofValue? e = none := by
  cases e <;> first | rfl | cases h

theorem not_callsInto {invocation : Invocation} (h : a.call? = none) :
    ¬ a.callsInto invocation l := by
  rintro ⟨hcall, -⟩
  rw [h] at hcall
  cases hcall

/-- A label after a statement was carried there or is new. -/
theorem mem_relabel (h : a.isLocalFlow lists = true) :
    source ∈ a.relabel Value.ingredients s labels l ↔
      (∃ l₀, a.carries l₀ l ∧ source ∈ labels l₀) ∨
      (∃ invocation, a.callsInto invocation l) ∧ source = s := by
  rcases localFlow_cases h with ⟨y, method, rfl, -⟩ | ⟨y, e, rfl, he⟩ | ⟨method, args, rfl, -⟩ |
    ⟨result, rfl⟩ | ⟨condition, rfl⟩ | rfl | rfl
  -- a source call has no ingredients, so nothing of its target is carried over
  · by_cases hl : l = y
    · subst hl
      simp [relabel, carries, callsInto, call?, target?, Invocation.ofValue?, Value.ingredients,
        Value.locals, Value.localsOfAll]
    · simp [relabel, carries, callsInto, target?, hl, Ne.symm hl]
  · have hcall := ofValue?_of_isSimple he
    by_cases hl : l = y
    · subst hl
      simp [relabel, carries, callsInto, call?, hcall]
    · simp [relabel, carries, callsInto, call?, hcall, hl]
  all_goals simp [relabel, carries, callsInto, target?]

end Action

/-- The taint of local `l` that source `s` created. -/
def Taint.label (l : Local) (s : StmtId) (origin : Value) : Taint :=
  { path := .ofLocal l, source := s, origin }

theorem Taint.isZero_label {l : Local} (h : l.method ≠ .synthetic) (s : StmtId) (origin : Value) :
    (Taint.label l s origin).isZero = false := by
  simpa [label, isZero, AccessPath.ofLocal, AccessPath.local?] using h

theorem Fact.activateAt_of_active {f : Fact} (h : f.taint.active = true) (s : StmtId) :
    f.activateAt s = f := by
  simp [activateAt, Taint.activatedBy, h]

namespace Fact

variable {f : Fact} {l : Local} {source : StmtId} {origin : Value}

theorem path_of_label (hf : f.taint = .label l source origin) : f.path = .ofLocal l :=
  congrArg Taint.path hf

theorem isActive_of_label (hf : f.taint = .label l source origin) : f.isActive = true :=
  congrArg Taint.active hf

theorem activateAt_of_label (hf : f.taint = .label l source origin) (s : StmtId) :
    f.activateAt s = f :=
  activateAt_of_active (isActive_of_label hf) s

theorem isZero_of_label (hl : l.method ≠ .synthetic) (hf : f.taint = .label l source origin) :
    f.isZero = false :=
  (congrArg Taint.isZero hf).trans (Taint.isZero_label hl _ _)

theorem isZero_of_zero (hf : f.taint = .zero) : f.isZero = true :=
  congrArg Taint.isZero hf

end Fact

/-- A simple value reads a local if it is made up of it. -/
theorem Value.any_isReadBy {e : Value} (h : e.isSimple = true) (l : Local) :
    e.operands.any (AccessPath.ofLocal l).isReadBy = true ↔ l ∈ e.ingredients := by
  -- the operands of a simple value are atoms, and an atom is read exactly if it is the local itself
  have hatom : ∀ v : Value, v.isAtom = true →
      ((AccessPath.ofLocal l).isReadBy v = true ↔ l ∈ v.locals) := by
    intro v hv
    cases v with
    | «local» l' =>
      simp [AccessPath.isReadBy, AccessPath.passesThrough, AccessPath.startsAt,
        AccessPath.ofLocal, AccessPath.local?, locals]
    | int | string | null =>
      simp [AccessPath.isReadBy, AccessPath.passesThrough, locals]
    | _ => cases hv
  cases e with
  | binop op left right =>
    simp only [isSimple, Bool.and_eq_true] at h
    simp [operands, ingredients, locals, hatom _ h.1, hatom _ h.2]
  | cast type operand => simp [operands, ingredients, locals, hatom _ h]
  | length operand => simp [operands, ingredients, locals, hatom _ h]
  | «local» l' => simp [operands, ingredients, hatom _ h]
  | new | newArray | int | string | null => simp [operands, ingredients, locals]
  | _ => cases h

namespace Forward

variable {x : Setup} {lists : MethodLists} {n : StmtId} {stmt : Stmt} {f : Fact} {l : Local}
  {source : StmtId} {origin : Value} {t : Taint}

/-- An assignment of a simple value keeps what it reads or does not overwrite, and carries over what
it reads. -/
theorem mem_taints_assign_simple {y : Local} {e : Value} (he : e.isSimple = true)
    (hl : l.method ≠ .synthetic) (hf : f.taint = .label l source origin) :
    t ∈ (assign x stmt (.local y) e f).taints ↔
      ((l ∈ e.ingredients ∨ l ≠ y) ∧ t = .label l source origin) ∨
      (l ∈ e.ingredients ∧ t = .label y source origin) := by
  have hpath := Fact.path_of_label hf
  have hreaches : f.reaches (.local y) = true := by
    simp [Fact.reaches, Fact.isActive_of_label hf]
  have hmoved : ∀ cut, f.moveToValue? (.local y) cut x.most = some (f.moveTo (.ofLocal y)) := by
    -- a bare local has no fields to cut or to carry along
    intro cut
    cases cut <;> simp [Fact.moveToValue?, AccessPath.moveTo?, AccessPath.ofValue?, hpath,
      AccessPath.ofLocal, AccessPath.remainder, AccessPath.truncated]
  have hthrough : (AccessPath.ofLocal l).passesThrough (.local y) = true ↔ l = y := by
    simp [AccessPath.passesThrough, AccessPath.startsAt, AccessPath.ofLocal, AccessPath.local?]
  unfold assign
  rw [Fact.isZero_of_label hl hf, hpath]
  -- a label that is read stays and is copied; one that is not read goes if its local is overwritten
  by_cases hmem : l ∈ e.ingredients
  · have hread := (Value.any_isReadBy he l).mpr hmem
    simp only [Bool.false_eq_true, if_false, hread, if_true, hreaches, hmem, true_or, true_and]
    rw [Reaction.mem_taints_append rfl]
    unfold copyTo
    rw [hmoved]
    simp [Reaction.taints, hf, Taint.label]
  · have hread : ¬ e.operands.any (AccessPath.ofLocal l).isReadBy = true :=
      fun hread => hmem ((Value.any_isReadBy he l).mp hread)
    simp only [Bool.false_eq_true, if_false, hread, hmem, false_or, false_and, or_false, hthrough]
    by_cases hy : l = y
    · simp [hy, Reaction.taints]
    · simp [hy, Reaction.taints, Reaction.pass, hf]

theorem mem_taints_assign {y : Local} {e : Value} (he : e.isSimple = true)
    (hl : l.method ≠ .synthetic) (hf : f.taint = .label l source origin) :
    t ∈ (assign x stmt (.local y) e f).taints ↔
      ∃ l', (Action.assign (.local y) e).carries l l' ∧ t = .label l' source origin := by
  rw [mem_taints_assign_simple he hl hf]
  unfold Action.carries
  dsimp only
  constructor
  · rintro (⟨hkept, rfl⟩ | ⟨hmem, rfl⟩)
    · refine ⟨l, ?_, rfl⟩
      split
      · next hy => exact hkept.resolve_right fun hne => hne hy
      · rfl
    · exact ⟨y, by rwa [if_pos rfl], rfl⟩
  · rintro ⟨l', hcarries, rfl⟩
    split at hcarries
    · next hy => exact Or.inr ⟨hcarries, by rw [hy]⟩
    · next hne =>
      subst hcarries
      exact Or.inl ⟨Or.inr hne, rfl⟩

end Forward

section

variable {x : Setup} {lists : MethodLists} (hcalls : x.Callless) (hflow : x.LocalFlow lists)

namespace Setup.LocalFlow

variable {n site : StmtId} {stmt : Stmt} {f : Fact} {l : Local} {source : StmtId} {origin : Value}
  {t : Taint}

include hflow

theorem isSource_eq (stmt : Stmt) : x.isSource stmt = lists.isSource x.program stmt := by
  unfold Setup.isSource
  rw [hflow.classifier]
  rfl

theorem isSink_eq (stmt : Stmt) : x.isSink stmt = lists.isSink x.program stmt := by
  unfold Setup.isSink
  rw [hflow.classifier]
  rfl

/-- A call in the fragment is a source call into a local or a sink call. -/
theorem call_cases {invocation : Invocation} (hcall : x.CallAt n stmt invocation) :
    (∃ y, stmt.action = .assign (.local y) invocation.toValue ∧ invocation.receiver = none ∧
      invocation.args = [] ∧ x.isSource stmt = true) ∨
    stmt.action = .invoke invocation ∧ invocation.receiver = none ∧ x.isSink stmt = true := by
  have hcalled := hcall.calls
  unfold Stmt.call? at hcalled
  rcases Action.localFlow_cases (hflow.fragment stmt (Program.mem_stmts hcall.known)) with
    ⟨y, method, haction, hsource⟩ | ⟨y, e, haction, he⟩ | ⟨method, args, haction, hsink⟩ |
    ⟨result, haction⟩ | ⟨condition, haction⟩ | haction | haction
  -- of the assignments only those of a call can be calls
  · rw [haction] at hcalled
    cases hcalled
    refine Or.inl ⟨y, haction, rfl, rfl, ?_⟩
    rw [hflow.isSource_eq]
    simpa [MethodLists.isSource, haction] using hsource
  · rw [haction] at hcalled
    rw [show (Action.assign (.local y) e).call? = none from Action.ofValue?_of_isSimple he]
      at hcalled
    cases hcalled
  · rw [haction] at hcalled
    cases hcalled
    refine Or.inr ⟨haction, rfl, ?_⟩
    rw [hflow.isSink_eq]
    simpa [MethodLists.isSink, Stmt.call?, Action.call?, haction] using hsink
  all_goals
    rw [haction] at hcalled
    cases hcalled

/-- Any other statement assigns a simple value to a local, or lets every fact pass. -/
theorem normal_cases (hstmt : x.program.stmt? n = some stmt) (hcall : stmt.call? = none)
    (f : Fact) :
    (∃ y e, stmt.action = .assign (.local y) e ∧ e.isSimple = true ∧
      Forward.normal x n f = Forward.assign x stmt (.local y) e (f.activateAt n)) ∨
    (∀ l l', stmt.action.carries l l' ↔ l' = l) ∧
      (Forward.normal x n f).facts = [f.activateAt n] := by
  unfold Stmt.call? at hcall
  unfold Forward.normal Setup.withStmt
  rw [hstmt]
  dsimp only
  rcases Action.localFlow_cases (hflow.fragment stmt (Program.mem_stmts hstmt)) with
    ⟨y, method, haction, -⟩ | ⟨y, e, haction, he⟩ | ⟨method, args, haction, -⟩ |
    ⟨result, haction⟩ | ⟨condition, haction⟩ | haction | haction
  · rw [haction] at hcall
    cases hcall
  · rw [haction]
    exact Or.inl ⟨y, e, rfl, he, rfl⟩
  · rw [haction] at hcall
    cases hcall
  · rw [haction]
    refine Or.inr ⟨fun _ _ => Iff.rfl, ?_⟩
    cases result <;> rfl
  all_goals
    rw [haction]
    exact Or.inr ⟨fun _ _ => Iff.rfl, rfl⟩

include hcalls

theorem mem_taints_call {invocation : Invocation} (hp : x.program.Built)
    (hcall : x.CallAt n stmt invocation) :
    t ∈ (x.reply .forward (along x n site) f).taints ↔
      (t = (f.activateAt n).taint ∧
        stmt.target?.any (f.activateAt n).path.isRootedAt = false) ∨
      ∃ l invocation, stmt.action.callsInto invocation l ∧
        t = .label l n invocation.toValue := by
  rw [along_call hcall, Setup.reply_forward]
  change t ∈ (Forward.bypass x n f).taints ↔ _
  rw [hcalls.mem_taints_bypass hcall, hp.id_eq hcall.known]
  refine or_congr_right ?_
  constructor
  · rintro ⟨-, v, path, hv, hpath, rfl⟩
    -- a sink call of the fragment assigns nothing, so it creates nothing
    rcases hflow.call_cases hcall with ⟨y, haction, -, -, -⟩ | ⟨haction, -, -⟩
    · unfold Stmt.target? at hv
      rw [haction] at hv
      cases hv
      cases hpath
      exact ⟨y, invocation, ⟨hcall.calls, by rw [haction]; rfl⟩, rfl⟩
    · unfold Stmt.target? at hv
      rw [haction] at hv
      cases hv
  · rintro ⟨l, invocation', ⟨hcalls', htarget⟩, rfl⟩
    cases hcall.calls.symm.trans hcalls'
    rcases hflow.call_cases hcall with ⟨y, haction, -, -, hsource⟩ | ⟨haction, -, -⟩
    · exact ⟨hsource, .local l, .ofLocal l, htarget, rfl, rfl⟩
    · rw [haction] at htarget
      cases htarget

/-- What becomes of the taint of a local: it goes to the locals that the statement carries it to. -/
theorem mem_taints_label (hp : x.program.Built) (hstmt : x.program.stmt? n = some stmt)
    (hl : l.method ≠ .synthetic) (hf : f.taint = .label l source origin) :
    t ∈ (x.reply .forward (along x n site) f).taints ↔
      (∃ l', stmt.action.carries l l' ∧ t = .label l' source origin) ∨
      ∃ l' invocation, stmt.action.callsInto invocation l' ∧
        t = .label l' n invocation.toValue := by
  have hsame := Fact.activateAt_of_label hf n
  have hpath := Fact.path_of_label hf
  -- calls are asked along the edge past them, other statements along their normal edge
  cases hcall : stmt.call? with
  | some invocation =>
    rw [mem_taints_call hcalls hflow hp ⟨hstmt, hcall⟩, hsame, hf, hpath]
    refine or_congr_left ?_
    -- a source call overwrites its target and a sink call has none
    rcases hflow.call_cases ⟨hstmt, hcall⟩ with ⟨y, haction, hreceiver, hargs, -⟩ | ⟨haction, -, -⟩
    · have hnone : invocation.toValue.ingredients = [] := by
        simp [Invocation.toValue, hreceiver, hargs, Value.ingredients, Value.locals,
          Value.localsOfAll]
      have htarget : stmt.target? = some (.local y) := by
        unfold Stmt.target?
        rw [haction]
        rfl
      rw [haction, htarget]
      simp only [Action.carries, hnone, Option.any_some, AccessPath.isRootedAt,
        AccessPath.startsAt, AccessPath.ofLocal, AccessPath.local?, List.not_mem_nil]
      constructor
      · rintro ⟨rfl, hne⟩
        have hne : l ≠ y := by simpa using hne
        exact ⟨l, by rw [if_neg hne], rfl⟩
      · rintro ⟨l', hcarries, rfl⟩
        split at hcarries
        · exact hcarries.elim
        · next hne =>
          subst hcarries
          exact ⟨rfl, by simpa using hne⟩
    · have htarget : stmt.target? = none := by
        unfold Stmt.target?
        rw [haction]
        rfl
      rw [haction, htarget]
      simp [Action.carries]
  | none =>
    have hnew : ¬ ∃ l' invocation, stmt.action.callsInto invocation l' ∧
        t = .label l' n invocation.toValue := by
      rintro ⟨l', invocation, hinto, -⟩
      exact Action.not_callsInto hcall hinto
    rw [along_normal hstmt hcall, Setup.reply_forward, or_iff_left hnew]
    change t ∈ (Forward.normal x n f).taints ↔ _
    -- an assignment has been dealt with above, and any other statement keeps the label
    rcases hflow.normal_cases hstmt hcall f with ⟨y, e, haction, he, hnormal⟩ | ⟨hkeeps, hfacts⟩
    · rw [hnormal, hsame, haction, Forward.mem_taints_assign he hl hf]
    · unfold Reaction.taints
      rw [hfacts, hsame]
      simp [hkeeps, hf]

/-- Where nothing is tainted, statements only create taint. -/
theorem mem_taints_zero (hp : x.program.Built) (hstmt : x.program.stmt? n = some stmt)
    (hmentioned : ∀ l ∈ stmt.action.locals, l.method ≠ .synthetic) (hf : f.taint = .zero) :
    t ∈ (x.reply .forward (along x n site) f).taints ↔ t = .zero ∨
      ∃ l' invocation, stmt.action.callsInto invocation l' ∧
        t = .label l' n invocation.toValue := by
  have hsame : f.activateAt n = f := Fact.activateAt_of_active (by rw [hf]; rfl) n
  cases hcall : stmt.call? with
  | some invocation =>
    rw [mem_taints_call hcalls hflow hp ⟨hstmt, hcall⟩, hsame, hf]
    refine or_congr_left (and_iff_left ?_)
    rcases hflow.call_cases ⟨hstmt, hcall⟩ with ⟨y, haction, -, -, -⟩ | ⟨haction, -, -⟩
    · -- no statement assigns to the local that stands for "no taint"
      have hy : y.method ≠ .synthetic := by
        apply hmentioned
        rw [haction]
        simp [Action.locals, Action.values, Value.locals]
      have hne : (⟨.synthetic, "<zero>", .null⟩ : Local) ≠ y := by
        rintro rfl
        exact hy rfl
      simp [Stmt.target?, haction, Action.target?, Fact.path, hf, Taint.zero,
        AccessPath.isRootedAt, AccessPath.startsAt, AccessPath.ofLocal, AccessPath.local?, hne]
    · simp [Stmt.target?, haction, Action.target?]
  | none =>
    have hnew : ¬ ∃ l' invocation, stmt.action.callsInto invocation l' ∧
        t = .label l' n invocation.toValue := by
      rintro ⟨l', invocation, hinto, -⟩
      exact Action.not_callsInto hcall hinto
    rw [along_normal hstmt hcall, Setup.reply_forward, or_iff_left hnew]
    change t ∈ (Forward.normal x n f).taints ↔ _
    have hfacts : (Forward.normal x n f).facts = [f] := by
      rcases hflow.normal_cases hstmt hcall f with ⟨y, e, -, -, hnormal⟩ | ⟨-, hfacts⟩
      · rw [hnormal, hsame]
        unfold Forward.assign
        rw [if_pos (Fact.isZero_of_zero hf)]
        rfl
      · rw [hfacts, hsame]
    unfold Reaction.taints
    rw [hfacts]
    simp [hf]

end Setup.LocalFlow

/-! ## Runs keep to the labels -/

namespace Program

/-- Some path arrives at `n` with labels that say what the taint says. -/
def Explains (p : Program) (start n : StmtId) (t : Taint) : Prop :=
  ∃ labels, p.Arrives Value.ingredients start n labels ∧ (t = .zero ∨
    ∃ l source origin, l.method ≠ .synthetic ∧ source ∈ labels l ∧ t = .label l source origin)

/-- The taints that paths explain, no aliases, and at calls the pairs that paths carry there. -/
def labelled (p : Program) (start : StmtId) : Extent where
  edges d := {e | d = .forward ∧ p.Explains start e.node e.fact.taint}
  pairs := {k | p.isCall k.1 = true → p.Carries Value.ingredients start k.1 k.2}

theorem Explains.active {p : Program} {start n : StmtId} {t : Taint} (h : p.Explains start n t) :
    t.active = true ∧ t.unit = none := by
  obtain ⟨labels, -, rfl | ⟨l, source, origin, -, -, rfl⟩⟩ := h
  · exact ⟨rfl, rfl⟩
  · exact ⟨rfl, rfl⟩

theorem Arrives.has {p : Program} {reads : Value → List Local} {start n : StmtId} {labels : Labels}
    (h : p.Arrives reads start n labels) (hp : p.Built) (hstart : p.Has start) : p.Has n := by
  cases h with
  | start => exact hstart
  | step _ _ hsucc => exact hp.has_of_mem_succsOf (d := .forward) hsucc

end Program

/-- A statement carries a label to where it was or to a local that it mentions. -/
theorem Action.mem_locals_of_carries {a : Action} {l l' : Local} (h : a.carries l l') :
    l' = l ∨ l' ∈ a.locals := by
  unfold carries at h
  split at h
  · next y e =>
    split at h
    · next hy =>
      subst hy
      exact Or.inr (by simp [locals, values, Value.locals])
    · exact Or.inl h
  · exact Or.inl h

theorem Action.mem_locals_of_target {a : Action} {l : Local} (h : a.target? = some (.local l)) :
    l ∈ a.locals := by
  cases a with
  | assign target source =>
    cases h
    simp [locals, values, Value.locals]
  | _ => cases h

variable {start n site : StmtId} {f : Fact} {t : Taint}

/-- The taint of a bare local has no aliases, so nothing is handed over. -/
theorem Program.Explains.not_handed (hflow : x.LocalFlow lists)
    (h : x.program.Explains start n f.taint) (p : StmtId × Fact) :
    ¬ Forward.Hands x (.normal n) f p := by
  intro hhands
  obtain ⟨hactive, -⟩ := h.active
  obtain ⟨labels, -, hlabel⟩ := h
  cases hhands with
  | @assigned _ _ stmt target source cut moved p hstmt haction hzero _ halias _ _ =>
    rw [Fact.activateAt_of_active hactive] at hzero halias
    -- the zero fact moves nowhere, and the label of a bare local may alias only behind a field
    rcases hlabel with hf | ⟨l, source, origin, -, -, hf⟩
    · rw [Fact.isZero_of_zero hf] at hzero
      cases hzero
    · have htarget : ∃ y, target = .local y := by
        have hfragment := hflow.fragment stmt (Program.mem_stmts hstmt)
        rw [haction] at hfragment
        unfold Action.isLocalFlow at hfragment
        split at hfragment <;> simp_all
      obtain ⟨y, rfl⟩ := htarget
      simp [Fact.mayAlias, Value.isConstant, Value.isFieldOrElement, Fact.path, hf, Taint.label,
        AccessPath.ofLocal, AccessPath.isLocal] at halias

/-- A finding at a call is a label that some path carries into an argument. -/
theorem Program.Explains.carries (hflow : x.LocalFlow lists) (hp : x.program.Built)
    (h : x.program.Explains start n f.taint) {r : Finding}
    (hr : Forward.Finds x (.bypass n) f r) :
    x.program.Carries Value.ingredients start r.sink r.source := by
  obtain ⟨hactive, -⟩ := h.active
  obtain ⟨labels, harrives, hlabel⟩ := h
  cases hr with
  | @called _ _ stmt invocation hcall _ hzero _ hrooted =>
    rw [Fact.activateAt_of_active hactive] at hzero hrooted ⊢
    have hreceiver : invocation.receiver = none := by
      rcases hflow.call_cases hcall with ⟨y, -, hreceiver, -, -⟩ | ⟨-, hreceiver, -⟩ <;>
        exact hreceiver
    -- the zero fact is never reported, so the finding is about a label
    rcases hlabel with hf | ⟨l, source, origin, -, hsource, hf⟩
    · rw [Fact.isZero_of_zero hf] at hzero
      cases hzero
    · rw [hreceiver, Fact.path_of_label hf, Option.any_none, or_iff_left Bool.false_ne_true,
        List.any_eq_true] at hrooted
      obtain ⟨arg, harg, hrooted⟩ := hrooted
      have hlocal : arg = .local l := by
        unfold AccessPath.isRootedAt at hrooted
        split at hrooted
        · next l' =>
          have heq : l = l' := by
            simpa [AccessPath.startsAt, AccessPath.ofLocal, AccessPath.local?] using hrooted
          rw [heq]
        · cases hrooted
      refine ⟨labels, stmt, invocation, l, ?_, ?_, hcall.calls, hlocal ▸ harg, ?_⟩
      · exact hp.id_eq hcall.known ▸ harrives
      · exact hp.id_eq hcall.known ▸ hcall.known
      · change f.taint.source ∈ labels l
        rw [hf]
        exact hsource

section

variable (hp : x.program.Built)
  (hgenuine : ∀ l, x.program.MentionsLocal l → l.method ≠ .synthetic)
  (hstart : x.program.Has start)

include hcalls hflow hp hgenuine hstart

/-- One step: what a statement makes of an explained taint is explained behind it. -/
theorem Program.Explains.step (h : x.program.Explains start n f.taint)
    (hsite : site ∈ x.program.succsOf n)
    (ht : t ∈ (x.reply .forward (along x n site) f).taints) : x.program.Explains start site t := by
  obtain ⟨labels, harrives, hlabel⟩ := h
  obtain ⟨stmt, hstmt⟩ := Program.exists_stmt_of_has (harrives.has hp hstart)
  have hmem := Program.mem_stmts hstmt
  have hmentioned : ∀ l ∈ stmt.action.locals, l.method ≠ .synthetic :=
    fun l hl => hgenuine l ⟨stmt, hmem, hl⟩
  have hrelabel : ∀ source l, source ∈ stmt.action.relabel Value.ingredients n labels l ↔
      (∃ l₀, stmt.action.carries l₀ l ∧ source ∈ labels l₀) ∨
      (∃ invocation, stmt.action.callsInto invocation l) ∧ source = n :=
    fun _ _ => Action.mem_relabel (hflow.fragment stmt hmem)
  refine ⟨_, harrives.step hstmt hsite, ?_⟩
  have hnew : ∀ l invocation, stmt.action.callsInto invocation l →
      t = .label l n invocation.toValue →
      t = .zero ∨ ∃ l source origin, l.method ≠ .synthetic ∧
        source ∈ stmt.action.relabel Value.ingredients n labels l ∧ t = .label l source origin := by
    intro l invocation hinto ht
    exact Or.inr ⟨l, n, _, hmentioned l (Action.mem_locals_of_target hinto.2),
      (hrelabel _ _).mpr (Or.inr ⟨⟨invocation, hinto⟩, rfl⟩), ht⟩
  -- the zero fact stays and a label is carried on; either may come with a label that is new
  rcases hlabel with hzero | ⟨l, source, origin, hl, hsource, hf⟩
  · rcases (Setup.LocalFlow.mem_taints_zero hcalls hflow hp hstmt hmentioned hzero).mp ht with
      rfl | ⟨l, invocation, hinto, ht⟩
    · exact Or.inl rfl
    · exact hnew l invocation hinto ht
  · rcases (Setup.LocalFlow.mem_taints_label hcalls hflow hp hstmt hl hf).mp ht with
      ⟨l', hcarries, rfl⟩ | ⟨l', invocation, hinto, ht⟩
    · refine Or.inr ⟨l', source, origin, ?_,
        (hrelabel _ _).mpr (Or.inl ⟨l, hcarries, hsource⟩), rfl⟩
      rcases Action.mem_locals_of_carries hcarries with rfl | hmentions
      · exact hl
      · exact hmentioned l' hmentions
    · exact hnew l' invocation hinto ht

theorem Program.labelled_bounds : (x.program.labelled start).Bounds x fun _ => False where
  facts := by
    intro d q f l howes g hg e he
    -- without callees an edge is owed along a successor, or out of the method
    rcases hcalls.owes hp howes with ⟨e₀, ⟨rfl, hexplains⟩, site, hsite, rfl, rfl, rfl⟩ |
      ⟨e₀, -, rfl, -, -⟩
    · cases he
      refine ⟨rfl, hexplains.step hcalls hflow hp hgenuine hstart hsite ?_⟩
      rw [Coupled.answer_along] at hg
      exact Reaction.mem_taints.mpr ⟨g, hg, rfl⟩
    · cases hg
  handed := by
    intro d q f l howes p hh
    exfalso
    rcases hcalls.owes hp howes with ⟨e₀, ⟨rfl, hexplains⟩, site, hsite, rfl, rfl, rfl⟩ |
      ⟨e₀, ⟨rfl, -⟩, rfl, -, -⟩
    · rw [Setup.reply_forward] at hh
      have hhands := (Forward.within_react _).handed p hh
      unfold along at hhands
      split at hhands
      -- at a call only the library model hands over, and there is none
      · cases hhands with
        | modelled _ hlibrary =>
          rw [hcalls.library] at hlibrary
          cases hlibrary
      · exact Program.Explains.not_handed hflow hexplains p hhands
    · rw [Setup.reply_forward] at hh
      cases (Forward.within_react _).handed p hh
  findings := by
    intro d q f l howes r hr hcall
    rcases hcalls.owes hp howes with ⟨e₀, ⟨rfl, hexplains⟩, site, hsite, rfl, rfl, rfl⟩ |
      ⟨e₀, ⟨rfl, -⟩, rfl, -, -⟩
    · rw [Setup.reply_forward] at hr
      have hfinds := (Forward.within_react _).findings r hr
      unfold along at hfinds
      split at hfinds
      · exact Program.Explains.carries hflow hp hexplains hfinds
      · next hnocall =>
        -- the statement would have to be a call
        exfalso
        cases hfinds with
        | assigned hstmt => exact hnocall (hp.id_eq hstmt ▸ hcall)
        | returned hstmt => exact hnocall (hp.id_eq hstmt ▸ hcall)
    · rw [Setup.reply_forward] at hr
      exfalso
      have hfinds := (Forward.within_react _).findings r hr
      cases hfinds with
      | @left _ _ _ _ stmt result hstmt haction =>
        change x.program.isCall stmt.id = true at hcall
        rw [hp.id_eq hstmt] at hcall
        simp [Program.isCall, hstmt, haction, Action.isCall, Action.call?] at hcall
  fault := by
    intro d q f l howes e he
    -- nothing is looked up but statements of the program, and no fact has a unit to look up
    have hfault := hcalls.fault hp howes (fun e he => ?_) ?_
    · rw [hfault] at he
      cases he
    · obtain ⟨-, labels, harrives, -⟩ := he
      exact harrives.has hp hstart
    · intro s hs
      rcases hcalls.owes hp howes with ⟨e₀, ⟨-, hexplains⟩, -, -, -, rfl, -⟩ |
        ⟨e₀, ⟨-, hexplains⟩, -, rfl, -⟩
      · rw [hexplains.active.2] at hs
        cases hs
      · rw [hexplains.active.2] at hs
        cases hs
  ranged := by
    rintro d e ⟨-, labels, harrives, -⟩
    exact Or.inl (harrives.has hp hstart)

/-! ## Runs find every label -/

omit hstart in
/-- The run: by induction on the path, the table holds whatever its labels say. -/
theorem Coupled.IsFixedPoint.holds_of_arrives {c : Coupled} (h : Coupled.IsFixedPoint x c)
    (hzero : c.forward.holds .zero start .zero = true) {labels : Labels}
    (harrives : x.program.Arrives Value.ingredients start n labels) :
    c.forward.holds .zero n .zero = true ∧
    ∀ l source, source ∈ labels l → l.method ≠ .synthetic ∧
      ∃ origin, c.forward.holds .zero n (.label l source origin) = true := by
  -- over the path: the zero fact comes along it, and every label with it
  induction harrives with
  | start => exact ⟨hzero, fun _ _ hempty => hempty.elim⟩
  | @step n site stmt labels _ hstmt hsite ih =>
    obtain ⟨ihzero, ihlabel⟩ := ih
    have hmem := Program.mem_stmts hstmt
    have hmentioned : ∀ l ∈ stmt.action.locals, l.method ≠ .synthetic :=
      fun l hl => hgenuine l ⟨stmt, hmem, hl⟩
    obtain ⟨f, hf, habsorbs⟩ := h.exists_absorbs (d := .forward) ihzero hsite
    have hfrom : ∀ t, t ∈ (x.reply .forward (along x n site) f).taints ↔ t = .zero ∨
        ∃ l invocation, stmt.action.callsInto invocation l ∧ t = .label l n invocation.toValue :=
      fun _ => Setup.LocalFlow.mem_taints_zero hcalls hflow hp hstmt hmentioned hf
    refine ⟨habsorbs.holds ((hfrom _).mpr (Or.inl rfl)), ?_⟩
    intro l source hsource
    rcases (Action.mem_relabel (hflow.fragment stmt hmem)).mp hsource with
      ⟨l₀, hcarries, hold⟩ | ⟨⟨invocation, hinto⟩, rfl⟩
    · -- carried over from a local that had the label before
      obtain ⟨hl₀, origin, hholds⟩ := ihlabel l₀ source hold
      obtain ⟨g, hg, habsorbs⟩ := h.exists_absorbs (d := .forward) hholds hsite
      refine ⟨?_, origin, habsorbs.holds ?_⟩
      · rcases Action.mem_locals_of_carries hcarries with rfl | hmentions
        · exact hl₀
        · exact hmentioned l hmentions
      · exact (Setup.LocalFlow.mem_taints_label hcalls hflow hp hstmt hl₀ hg).mpr
          (Or.inl ⟨l, hcarries, rfl⟩)
    · -- new at this statement
      exact ⟨hmentioned l (Action.mem_locals_of_target hinto.2), _,
        habsorbs.holds ((hfrom _).mpr (Or.inr ⟨l, invocation, hinto, rfl⟩))⟩

end

end

/-- A fact at a call makes its finding known if it is passed to a sink. -/
theorem Setup.LocalFlow.mem_findings {x : Setup} {lists : MethodLists} (hcalls : x.Callless)
    (hflow : x.LocalFlow lists) {n site : StmtId} {stmt : Stmt} {invocation : Invocation} {f : Fact}
    {l : Local} {source : StmtId} {origin : Value} (hcall : x.CallAt n stmt invocation)
    (hl : l.method ≠ .synthetic) (hf : f.taint = .label l source origin)
    (harg : Value.local l ∈ invocation.args) :
    f.findingAt stmt.id invocation.toValue ∈ (x.reply .forward (along x n site) f).findings := by
  have hzero := Fact.isZero_of_label hl hf
  have hactive := Fact.isActive_of_label hf
  have hrooted : invocation.args.any f.path.isRootedAt = true := by
    rw [List.any_eq_true]
    refine ⟨.local l, harg, ?_⟩
    simp [AccessPath.isRootedAt, AccessPath.startsAt, Fact.path, hf, Taint.label,
      AccessPath.ofLocal, AccessPath.local?]
  have hsink : x.isSink stmt = true := by
    rcases hflow.call_cases hcall with ⟨y, -, -, hargs, -⟩ | ⟨-, -, hsink⟩
    · -- a source call passes nothing
      rw [hargs] at harg
      cases harg
    · exact hsink
  rw [along_call hcall, Setup.reply_forward]
  change _ ∈ (Forward.bypass x n f).findings
  rw [hcalls.bypass hcall, Fact.activateAt_of_active hactive]
  simp [Forward.callLeaks, hactive, hzero, hsink, hrooted]

/-- On flows through locals the analysis finds exactly what paths carry. -/
theorem findsExactly_of_localFlow {x : Setup} {lists : MethodLists} (hp : x.program.Built)
    (hcalls : x.Callless) (hflow : x.LocalFlow lists)
    (hgenuine : ∀ l, x.program.MentionsLocal l → l.method ≠ .synthetic)
    (hvalid : x.settings.validate = .ok ()) (hstop : x.settings.stopAfterFirstFlow = false)
    (hmax : x.settings.maxPropagations = 0) {m : MethodId} {start : StmtId}
    (hstarts : x.program.startsOf m = [start]) :
    x.FindsExactly Value.ingredients m start := by
  have hstart : x.program.Has start := by
    apply hp.has_of_mem_startsOf (d := .forward) (m := m)
    change start ∈ x.program.startsOf m
    rw [hstarts]
    exact List.mem_singleton.mpr rfl
  obtain ⟨rounds, hrounds⟩ := hcalls.exists_analyze hp hvalid hmax hstarts
  refine ⟨rounds, ?_⟩
  intro fuel hfuel
  obtain ⟨out, hanalyze, hcompleted, hsolve⟩ := hrounds fuel hfuel
  obtain ⟨hfixed, hseeded⟩ := Coupled.settled_of_solve hp hstop hsolve
  refine ⟨out, hanalyze, hcompleted, ?_⟩
  intro sink source hcall hsucc
  constructor
  -- what is found was explained all along, and the explanation is a path
  · intro hcontains
    have hbounds := Program.labelled_bounds hcalls hflow hp hgenuine hstart
    have hseed : ∀ s ∈ [start], (⟨.zero, s, .zero⟩ : Edge Fact Taint) ∈
        (x.program.labelled start).edges .forward := by
      intro s hs
      rw [List.mem_singleton.mp hs]
      exact ⟨rfl, _, .start, Or.inl rfl⟩
    have hconfines := Coupled.confines_of_reachable hbounds hp hseed
      (Coupled.Reachable.start.solve hsolve)
    obtain ⟨r, hr, rfl, rfl⟩ := Coupled.exists_of_containsFlow hcontains
    exact hconfines.pairs r hr hcall
  -- what a path carries is in the table when the run is over, and was reported on the way
  · rintro ⟨labels, stmt, invocation, l, harrives, hstmt, hinvocation, harg, hsource⟩
    obtain ⟨site, hsite⟩ := List.exists_mem_of_ne_nil _ hsucc
    have hzero := hseeded start (List.mem_singleton.mpr rfl)
    obtain ⟨-, hlabels⟩ := hfixed.holds_of_arrives hcalls hflow hp hgenuine hzero harrives
    obtain ⟨hl, origin, hholds⟩ := hlabels l source hsource
    obtain ⟨f, hf, habsorbs⟩ := hfixed.exists_absorbs (d := .forward) hholds hsite
    have hfinding := habsorbs.findings _
      (Setup.LocalFlow.mem_findings hcalls hflow ⟨hstmt, hinvocation⟩ hl hf harg)
    rw [show (f.findingAt stmt.id invocation.toValue).sink = sink from hp.id_eq hstmt,
      show (f.findingAt stmt.id invocation.toValue).source = source from
        congrArg Taint.source hf] at hfinding
    exact hfinding

/-- A finished run is all it takes to tell which labels are carried. -/
theorem Setup.FindsExactly.containsFlow_iff {x : Setup} {reads : Value → List Local} {m : MethodId}
    {start sink source : StmtId} {fuel : Nat} {out : Outcome} (h : x.FindsExactly reads m start)
    (hrun : x.analyze [m] fuel = .ok out) (hcall : x.program.isCall sink = true)
    (hsucc : x.program.succsOf sink ≠ []) :
    out.final.findings.containsFlow sink source = true ↔
      x.program.Carries reads start sink source := by
  obtain ⟨rounds, hrounds⟩ := h
  obtain ⟨out', hrun', -, hiff⟩ := hrounds (max rounds fuel) (le_max_left ..)
  rw [Setup.analyze_of_le hrun (le_max_right ..)] at hrun'
  cases hrun'
  exact hiff sink source hcall hsucc

/-- One label that is carried and not found is enough. -/
theorem Setup.not_findsExactly {x : Setup} {reads : Value → List Local} {m : MethodId}
    {start sink source : StmtId} (fuel : Nat) (hcarries : x.program.Carries reads start sink source)
    (hmissed : (x.analyze [m] fuel).toOption.any (fun out =>
      !out.final.findings.containsFlow sink source) = true)
    (hcall : x.program.isCall sink = true) (hsucc : x.program.succsOf sink ≠ []) :
    ¬ x.FindsExactly reads m start := by
  intro hexact
  obtain ⟨out, hrun, hmissed⟩ := exists_of_any_toOption hmissed
  rw [← hexact.containsFlow_iff hrun hcall hsucc] at hcarries
  rw [hcarries] at hmissed
  cases hmissed

/-! Three programs of one method. In the first the secret reaches a sink in the second turn of a
loop: `b` is copied from `a` before `a` is computed from the secret. In the second the size of an
array is secret, and in the third the secret is kept in a local of the synthetic method. -/

def secretLists : MethodLists where
  sources := [⟨"Sec", "int", "get", []⟩]
  sinks := [⟨"Net", "void", "send", ["int"]⟩]

/-- A static method with this body and these jumps. -/
def mainMethod (body : List Action) (jumps : List (StmtId × StmtId)) : List Description :=
  Description.straightLine "<A: void main()>" body ++ jumps.map fun e => .edge e.1 e.2

def Setup.ofMain (body : List Action) (jumps : List (StmtId × StmtId)) : Setup where
  program := (Program.ofDescription (mainMethod body jumps)).toOption.getD
    ⟨#[], #[], #[], #[], #[], #[]⟩
  classifier := secretLists.classifier

theorem Setup.built_ofMain {body : List Action} {jumps : List (StmtId × StmtId)}
    (h : (Program.ofDescription (mainMethod body jumps)).toOption.isSome = true) :
    (Setup.ofMain body jumps).program.Built := by
  refine ⟨mainMethod body jumps, ?_⟩
  unfold ofMain
  cases hprogram : Program.ofDescription (mainMethod body jumps) with
  | error e =>
    rw [hprogram] at h
    cases h
  | ok p => rfl

def getInto (l : Local) : Action := .assign (.local l) (.invoke none ⟨"Sec", "int", "get", []⟩ [])

def sendOf (l : Local) : Action := .invoke ⟨none, ⟨"Net", "void", "send", ["int"]⟩, [.local l]⟩

def lateSecret : Setup :=
  let number (name : String) : Local := ⟨⟨0⟩, name, .primitive "int"⟩
  .ofMain [getInto (number "x"),
    .assign (.local (number "b")) (.local (number "a")),
    .assign (.local (number "a")) (.binop "+" (.local (number "x")) (.int 1)),
    sendOf (number "b"),
    .assign (.local (number "b")) (.int 0),
    sendOf (number "b"),
    .branch (.local (number "b")),
    .return none] [(⟨6⟩, ⟨1⟩)]

def secretSize : Setup :=
  let size : Local := ⟨⟨0⟩, "n", .primitive "int"⟩
  let array : Local := ⟨⟨0⟩, "a", .array (.primitive "int")⟩
  .ofMain [getInto size, .assign (.local array) (.newArray (.primitive "int") (.local size)),
    sendOf array, .return none] []

def syntheticOwner : Setup :=
  let owned : Local := ⟨.synthetic, "x", .primitive "int"⟩
  .ofMain [getInto owned, sendOf owned, .return none] []

theorem findsExactly_lateSecret :
    lateSecret.FindsExactly Value.ingredients ⟨0⟩ ⟨0⟩ ∧
    lateSecret.program.Carries Value.ingredients ⟨0⟩ ⟨3⟩ ⟨0⟩ ∧
    ¬ lateSecret.program.Carries Value.ingredients ⟨0⟩ ⟨5⟩ ⟨0⟩ := by
  have hcalls : lateSecret.Callless :=
    ⟨Program.calleesOf_eq_nil (by decide +kernel), by decide +kernel, rfl⟩
  have hflow : lateSecret.LocalFlow secretLists := ⟨rfl, by decide +kernel⟩
  have hgenuine : ∀ l, lateSecret.program.MentionsLocal l → l.method ≠ .synthetic :=
    Program.genuine_of_stmts (by decide +kernel)
  have hexact : lateSecret.FindsExactly Value.ingredients ⟨0⟩ ⟨0⟩ :=
    findsExactly_of_localFlow (Setup.built_ofMain (by decide +kernel)) hcalls hflow hgenuine
      rfl rfl rfl rfl
  have hrun : (lateSecret.analyze [⟨0⟩] 40).toOption.any (fun out =>
      out.final.findings.containsFlow ⟨3⟩ ⟨0⟩ &&
        !out.final.findings.containsFlow ⟨5⟩ ⟨0⟩) = true := by
    decide +kernel
  obtain ⟨out, hrun, hfound⟩ := exists_of_any_toOption hrun
  simp only [Bool.and_eq_true, Bool.not_eq_true'] at hfound
  refine ⟨hexact, ?_, ?_⟩
  · exact (hexact.containsFlow_iff hrun (by decide +kernel) (by decide +kernel)).mp hfound.1
  · rw [← hexact.containsFlow_iff hrun (by decide +kernel) (by decide +kernel), hfound.2]
    exact Bool.false_ne_true

/-- Both programs are in the fragment, and some path carries the secret into the sink if every local
that occurs counts; but the analysis finds nothing. -/
theorem misses_arraySize_and_synthetic :
    (secretSize.program.Built ∧ secretSize.Callless ∧ secretSize.LocalFlow secretLists ∧
      secretSize.settings = {} ∧ secretSize.program.startsOf ⟨0⟩ = [⟨0⟩] ∧
      ¬ secretSize.FindsExactly Value.locals ⟨0⟩ ⟨0⟩) ∧
    syntheticOwner.program.Built ∧ syntheticOwner.Callless ∧ syntheticOwner.LocalFlow secretLists ∧
      syntheticOwner.settings = {} ∧ syntheticOwner.program.startsOf ⟨0⟩ = [⟨0⟩] ∧
      ¬ syntheticOwner.FindsExactly Value.locals ⟨0⟩ ⟨0⟩ := by
  have hsize : secretSize.program.Carries Value.locals ⟨0⟩ ⟨2⟩ ⟨0⟩ := by
    let size : Local := ⟨⟨0⟩, "n", .primitive "int"⟩
    let array : Local := ⟨⟨0⟩, "a", .array (.primitive "int")⟩
    have hget : secretSize.program.stmt? ⟨0⟩ = some ⟨⟨0⟩, ⟨0⟩, getInto size⟩ := rfl
    have hnew : secretSize.program.stmt? ⟨1⟩ = some ⟨⟨1⟩, ⟨0⟩, .assign (.local array)
        (.newArray (.primitive "int") (.local size))⟩ := rfl
    have hsend : secretSize.program.stmt? ⟨2⟩ = some ⟨⟨2⟩, ⟨0⟩, sendOf array⟩ := rfl
    refine ⟨_, _, _, array, (Program.Arrives.start.step hget (t := ⟨1⟩) (by decide +kernel)).step
      hnew (by decide +kernel), hsend, rfl, List.mem_singleton.mpr rfl, ?_⟩
    simp [Action.relabel, getInto, Invocation.ofValue?, Value.locals, size, array]
  have howned : syntheticOwner.program.Carries Value.locals ⟨0⟩ ⟨1⟩ ⟨0⟩ := by
    let owned : Local := ⟨.synthetic, "x", .primitive "int"⟩
    have hget : syntheticOwner.program.stmt? ⟨0⟩ = some ⟨⟨0⟩, ⟨0⟩, getInto owned⟩ := rfl
    have hsend : syntheticOwner.program.stmt? ⟨1⟩ = some ⟨⟨1⟩, ⟨0⟩, sendOf owned⟩ := rfl
    refine ⟨_, _, _, owned, Program.Arrives.start.step hget (by decide +kernel), hsend, rfl,
      List.mem_singleton.mpr rfl, ?_⟩
    simp [Action.relabel, getInto, Invocation.ofValue?]
  have hcallless : secretSize.Callless ∧ syntheticOwner.Callless :=
    ⟨⟨Program.calleesOf_eq_nil (by decide +kernel), by decide +kernel, rfl⟩,
      Program.calleesOf_eq_nil (by decide +kernel), by decide +kernel, rfl⟩
  refine ⟨⟨Setup.built_ofMain (by decide +kernel), hcallless.1, ⟨rfl, by decide +kernel⟩,
      rfl, rfl, ?_⟩,
    Setup.built_ofMain (by decide +kernel), hcallless.2, ⟨rfl, by decide +kernel⟩, rfl, rfl, ?_⟩
  · exact Setup.not_findsExactly 40 hsize (by decide +kernel) (by decide +kernel)
      (by decide +kernel)
  · exact Setup.not_findsExactly 40 howned (by decide +kernel) (by decide +kernel)
      (by decide +kernel)

end TaintFlow
