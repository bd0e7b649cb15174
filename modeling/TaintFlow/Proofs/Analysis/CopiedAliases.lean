import TaintFlow.Proofs.Analysis.LocalFlows

/-!
# Aliases through copies are activated

A secret is stored in a field of an object, `o.f = x`. Up to that statement the method only copies
references, makes new objects and calls sources. Then every local that refers to the object at the
store carries the secret in its field `f` behind the store, and the analysis knows it.

The analysis finds `o.f` itself, and hands the candidate `o.f` to the backward side. The invariant
that carries the argument relates both sides to the execution of the method: where the backward side
looks for the object behind one local, the forward side knows it behind every other local that
refers to it (`Trace.knows_of_seeks`). So at the store the forward side knows all candidates, and
the store activates them.
-/

namespace TaintFlow

open Tabulation

/-! ## Executing copies -/

/-- What a local holds: an object, named by the statement that made it, or the secret that a source
call has produced. -/
inductive Content where
  | object (site : StmtId)
  | secret (source : StmtId)
deriving DecidableEq, Repr

abbrev Store := Local → Option Content

namespace Action

/-- Copies between locals, new objects, source calls, and statements that do nothing. -/
def isCopying : Action → Bool
  | .assign (.local _) (.local _) | .assign (.local _) (.new _) => true
  | .assign (.local _) (.invoke none _ []) => true
  | .nop => true
  | _ => false

/-- Execute statement number `s`. -/
def exec (s : StmtId) (store : Store) : Action → Store
  | .assign (.local y) (.local r) => Function.update store y (store r)
  | .assign (.local y) (.new _) => Function.update store y (some (.object s))
  | .assign (.local y) (.invoke _ _ _) => Function.update store y (some (.secret s))
  | _ => store

theorem copying_cases {a : Action} (h : a.isCopying = true) :
    (∃ y r, a = .assign (.local y) (.local r)) ∨ (∃ y c, a = .assign (.local y) (.new c)) ∨
    (∃ y m, a = .assign (.local y) (.invoke none m [])) ∨ a = .nop := by
  unfold isCopying at h
  split at h
  · next y r => exact Or.inl ⟨y, r, rfl⟩
  · next y c => exact Or.inr (Or.inl ⟨y, c, rfl⟩)
  · next y m => exact Or.inr (Or.inr (Or.inl ⟨y, m, rfl⟩))
  · exact Or.inr (Or.inr (Or.inr rfl))
  · cases h

/-- A statement changes no local but its target. -/
theorem exec_of_target_ne {a : Action} {s : StmtId} {store : Store} {l : Local}
    (h : a.target? ≠ some (.local l)) : a.exec s store l = store l := by
  have hother : ∀ y e content, a = .assign (.local y) e →
      Function.update store y content l = store l := by
    rintro y e content rfl
    apply Function.update_of_ne
    rintro rfl
    exact h rfl
  unfold exec
  split
  · exact hother _ _ _ rfl
  · exact hother _ _ _ rfl
  · exact hother _ _ _ rfl
  · rfl

/-- Where `l` keeps what it holds another local is assigned to, or nothing happens. -/
theorem kept_cases {a : Action} {l : Local} (h : a.isCopying = true)
    (htarget : a.target? ≠ some (.local l)) :
    (∃ y e, a = .assign (.local y) e ∧ l ≠ y ∧ Invocation.ofValue? e = none) ∨
    (∃ y m, a = .assign (.local y) (.invoke none m []) ∧ l ≠ y) ∨ a = .nop := by
  have hne : ∀ y e, a = .assign (.local y) e → l ≠ y := by
    rintro y e rfl rfl
    exact htarget rfl
  rcases copying_cases h with ⟨y, r, ha⟩ | ⟨y, c, ha⟩ | ⟨y, m, ha⟩ | ha
  · exact Or.inl ⟨y, _, ha, hne y _ ha, rfl⟩
  · exact Or.inl ⟨y, _, ha, hne y _ ha, rfl⟩
  · exact Or.inr (Or.inl ⟨y, m, ha, hne y _ ha⟩)
  · exact Or.inr (Or.inr ha)

theorem fallsThrough_of_isCopying {a : Action} (h : a.isCopying = true) :
    a.fallsThrough = true := by
  rcases copying_cases h with ⟨y, r, rfl⟩ | ⟨y, c, rfl⟩ | ⟨y, m, rfl⟩ | rfl <;> rfl

end Action

/-- The store before statement number `k`. -/
def storeBefore (front : List Action) : Nat → Store
  | 0 => fun _ => none
  | k + 1 => ((front[k]?).map (Action.exec ⟨k⟩ (storeBefore front k))).getD (storeBefore front k)

section

variable {front : List Action} {k : Nat} {a : Action} {l : Local} {site : StmtId}

theorem storeBefore_succ (h : front[k]? = some a) :
    storeBefore front (k + 1) = a.exec ⟨k⟩ (storeBefore front k) := by
  simp [storeBefore, h]

/-- What a local holds after a statement it has held before, or it was copied, or it is new. -/
theorem content_cases (hfront : ∀ a ∈ front, a.isCopying = true) (ha : front[k]? = some a)
    {content : Content} (h : storeBefore front (k + 1) l = some content) :
    (a.target? ≠ some (.local l) ∧ storeBefore front k l = some content) ∨
    (∃ r, a = .assign (.local l) (.local r) ∧ storeBefore front k r = some content) ∨
    (∃ c, a = .assign (.local l) (.new c) ∧ content = .object ⟨k⟩) ∨
    (∃ m, a = .assign (.local l) (.invoke none m []) ∧ content = .secret ⟨k⟩) := by
  rw [storeBefore_succ ha] at h
  -- a statement that assigns to `l` says what `l` holds, any other leaves it as it was
  by_cases htarget : a.target? = some (.local l)
  · right
    rcases Action.copying_cases (hfront a (List.mem_of_getElem? ha)) with
      ⟨y, r, rfl⟩ | ⟨y, c, rfl⟩ | ⟨y, m, rfl⟩ | rfl
    · cases htarget
      rw [Action.exec, Function.update_self] at h
      exact Or.inl ⟨r, rfl, h⟩
    · cases htarget
      rw [Action.exec, Function.update_self] at h
      exact Or.inr (Or.inl ⟨c, rfl, (Option.some.inj h).symm⟩)
    · cases htarget
      rw [Action.exec, Function.update_self] at h
      exact Or.inr (Or.inr ⟨m, rfl, (Option.some.inj h).symm⟩)
    · cases htarget
  · rw [Action.exec_of_target_ne htarget] at h
    exact Or.inl ⟨htarget, h⟩

/-- Only what some statement assigns to holds anything. -/
theorem exists_target_of_content (hfront : ∀ a ∈ front, a.isCopying = true)
    (hk : k ≤ front.length) {content : Content} (h : storeBefore front k l = some content) :
    ∃ a ∈ front, a.target? = some (.local l) := by
  induction k generalizing l with
  | zero => cases h
  | succ k ih =>
    have ha : front[k]? = some front[k] := List.getElem?_eq_getElem hk
    rcases content_cases hfront ha h with
      ⟨-, hold⟩ | ⟨r, haction, -⟩ | ⟨c, haction, -⟩ | ⟨m, haction, -⟩
    · exact ih (by omega) hold
    all_goals exact ⟨_, List.getElem_mem hk, congrArg Action.target? haction⟩

/-- Locals refer to objects under their types if all targets do that do not hold a secret. -/
theorem typed_of_targets (hfront : ∀ a ∈ front, a.isCopying = true) {className : String}
    {source : StmtId} (h : ∀ k < front.length + 1, ∀ a ∈ front, ∀ l ∈ a.target?.bind Value.asLocal?,
      l.type = .object className ∨ storeBefore front k l ∈ [none, some (.secret source)]) :
    ∀ k ≤ front.length, ∀ l site, storeBefore front k l = some (.object site) →
      ∃ className, l.type = .object className := by
  intro k hk l site hl
  obtain ⟨a, ha, htarget⟩ := exists_target_of_content hfront hk hl
  have hlocal : l ∈ a.target?.bind Value.asLocal? := by
    rw [htarget]
    rfl
  rcases h k (Nat.lt_succ_of_le hk) a ha l hlocal with htype | hother
  · exact ⟨_, htype⟩
  · rw [hl] at hother
    simp at hother

/-- Objects are named by statements that have been executed. -/
theorem index_lt_of_object (hfront : ∀ a ∈ front, a.isCopying = true) (hk : k ≤ front.length)
    (h : storeBefore front k l = some (.object site)) : site.index < k := by
  induction k generalizing l with
  | zero => cases h
  | succ k ih =>
    have ha : front[k]? = some front[k] := List.getElem?_eq_getElem hk
    rcases content_cases hfront ha h with ⟨-, hold⟩ | ⟨r, -, hold⟩ | ⟨c, -, hnew⟩ | ⟨m, -, hnew⟩
    · have hlt := ih (by omega) hold
      omega
    · have hlt := ih (by omega) hold
      omega
    · cases hnew
      exact Nat.lt_succ_self k
    · cases hnew

end

/-! ## What copies do to facts -/

theorem Taint.movedTo_label (l y : Local) (source : StmtId) (origin : Value) (most : Nat) :
    (Taint.label l source origin).movedTo y most = .label y source origin := by
  simp [label, movedTo, AccessPath.moveToLocal, AccessPath.truncated, AccessPath.ofLocal]

section

variable {x : Setup} {n succ : StmtId} {stmt : Stmt} {f : Fact} {l y : Local} (site : StmtId)

namespace Forward

theorem normal_eq_assign {target source : Value} (hstmt : x.program.stmt? n = some stmt)
    (haction : stmt.action = .assign target source) :
    normal x n f = assign x stmt target source (f.activateAt n) := by
  unfold normal Setup.withStmt
  rw [hstmt]
  dsimp only
  rw [haction]

theorem reply_assign {target source : Value} (hstmt : x.program.stmt? n = some stmt)
    (haction : stmt.action = .assign target source) (hsource : Invocation.ofValue? source = none) :
    x.reply .forward (along x n site) f = assign x stmt target source (f.activateAt n) := by
  have hcall : stmt.call? = none := (congrArg Action.call? haction).trans hsource
  rw [along_normal hstmt hcall, Setup.reply_forward]
  exact normal_eq_assign hstmt haction

/-- An assignment keeps whatever it does not overwrite. -/
theorem mem_taints_assign_kept {target source : Value}
    (h : ¬ f.path.passesThrough target = true) :
    f.taint ∈ (assign x stmt target source f).taints := by
  have hself : ∀ findings, f.taint ∈ Reaction.taints { facts := [f], findings } := by
    intro findings
    exact List.mem_singleton.mpr rfl
  -- whichever branch the assignment takes, the fact itself is among what comes out
  unfold assign
  split
  · exact hself []
  · split
    · dsimp only
      split
      · rw [Reaction.mem_taints_append rfl]
        exact Or.inl (hself _)
      · exact hself _
    · exact hself []

theorem mem_taints_kept (hcalls : x.Callless) (hstmt : x.program.stmt? n = some stmt)
    (hcopying : stmt.action.isCopying = true) (hroot : f.path.root = .local l)
    (htarget : stmt.action.target? ≠ some (.local l)) :
    (f.activateAt n).taint ∈ (x.reply .forward (along x n site) f).taints := by
  have hpath : (f.activateAt n).path.root = .local l := by rw [f.path_activateAt, hroot]
  -- a call is asked along the edge past it, so it is kept apart from the other assignments
  rcases Action.kept_cases hcopying htarget with
    ⟨y, e, haction, hne, hcall⟩ | ⟨y, m, haction, hne⟩ | haction
  · rw [reply_assign _ hstmt haction hcall]
    apply mem_taints_assign_kept
    rw [AccessPath.passesThrough_local hpath]
    exact hne
  · have hcall : x.CallAt n stmt ⟨none, m, []⟩ := ⟨hstmt, congrArg Action.call? haction⟩
    have hassigned : stmt.target? = some (.local y) := congrArg Action.target? haction
    rw [along_call hcall, Setup.reply_forward]
    change _ ∈ (bypass x n f).taints
    rw [hcalls.mem_taints_bypass hcall, hassigned]
    refine Or.inl ⟨rfl, ?_⟩
    simpa [AccessPath.isRootedAt, AccessPath.startsAt, AccessPath.local?, hpath] using hne
  · have hcall : stmt.call? = none := congrArg Action.call? haction
    rw [along_normal hstmt hcall, Setup.reply_forward]
    change _ ∈ (normal x n f).taints
    unfold normal Setup.withStmt
    rw [hstmt]
    dsimp only
    rw [haction]
    exact List.mem_singleton.mpr rfl

/-- A copy carries a fact over to its target. -/
theorem mem_taints_copied (hstmt : x.program.stmt? n = some stmt)
    (haction : stmt.action = .assign (.local y) (.local l)) (hroot : f.path.root = .local l)
    (hzero : f.isZero = false) (hreaches : (f.activateAt n).reaches (.local y) = true) :
    (f.activateAt n).taint.movedTo y x.most ∈ (x.reply .forward (along x n site) f).taints := by
  have hpath : (f.activateAt n).path.root = .local l := by rw [f.path_activateAt, hroot]
  have hzero' : (f.activateAt n).isZero = false := (f.isZero_activateAt n).trans hzero
  have hread : (Value.local l).operands.any (f.activateAt n).path.isReadBy = true := by
    simp [Value.operands, AccessPath.isReadBy, AccessPath.passesThrough_local hpath]
  -- a local is not cut off a path, so the chain goes along whole
  have hcut : ((Value.local l).operands.any fun v =>
      v.isFieldOrElement && (f.activateAt n).path.passesThrough v) = false := rfl
  rw [reply_assign _ hstmt haction rfl]
  unfold assign
  rw [hzero', hcut]
  simp only [Bool.false_eq_true, if_false, hread, if_true, hreaches]
  rw [Reaction.mem_taints_append rfl]
  right
  unfold copyTo
  rw [Fact.moveToValue?_local]
  exact List.mem_singleton.mpr rfl

end Forward

namespace Backward

theorem reply_assign {target source : Value} (hstmt : x.program.stmt? n = some stmt)
    (haction : stmt.action = .assign target source) (hsource : Invocation.ofValue? source = none)
    (hzero : f.isZero = false) :
    x.reply .backward (along x n site) f = assign x stmt target source f := by
  have hcall : stmt.call? = none := (congrArg Action.call? haction).trans hsource
  rw [along_normal hstmt hcall, Setup.reply_backward]
  change normal x n f = _
  unfold normal Setup.withStmt
  rw [hstmt]
  dsimp only
  rw [haction]
  dsimp only
  rw [hzero]
  rfl

theorem mem_taints_assign_kept {target source : Value}
    (h : ¬ f.path.passesThrough target = true) :
    f.taint ∈ (assign x stmt target source f).taints := by
  unfold assign
  extract_lets read
  rw [if_neg h]
  split
  · split
    · exact List.mem_cons_self ..
    · exact List.mem_singleton.mpr rfl
  · exact List.mem_singleton.mpr rfl

theorem mem_taints_kept (hcalls : x.Callless) (hstmt : x.program.stmt? n = some stmt)
    (hcopying : stmt.action.isCopying = true) (hroot : f.path.root = .local l)
    (hzero : f.isZero = false) (htarget : stmt.action.target? ≠ some (.local l)) :
    f.taint ∈ (x.reply .backward (along x n site) f).taints := by
  rcases Action.kept_cases hcopying htarget with
    ⟨y, e, haction, hne, hcall⟩ | ⟨y, m, haction, hne⟩ | haction
  · rw [reply_assign _ hstmt haction hcall hzero]
    apply mem_taints_assign_kept
    rw [AccessPath.passesThrough_local hroot]
    exact hne
  · have hcall : x.CallAt n stmt ⟨none, m, []⟩ := ⟨hstmt, congrArg Action.call? haction⟩
    have hassigned : stmt.target? = some (.local y) := congrArg Action.target? haction
    have hunrooted : f.path.isRootedAt (.local y) = false := by
      simpa [AccessPath.isRootedAt, AccessPath.startsAt, AccessPath.local?, hroot] using hne
    rw [along_call hcall, Setup.reply_backward]
    change _ ∈ (bypass x n f).taints
    unfold bypass Setup.withStmt
    simp only [hzero, Bool.false_eq_true, if_false, hstmt, hcall.calls, hassigned,
      Option.any_some, hunrooted, goesThroughCallee, hcalls.entersCallee, Bool.false_and,
      Bool.or_false]
    exact List.mem_singleton.mpr rfl
  · have hcall : stmt.call? = none := congrArg Action.call? haction
    rw [along_normal hstmt hcall, Setup.reply_backward]
    change _ ∈ (normal x n f).taints
    unfold normal Setup.withStmt
    rw [hstmt]
    dsimp only
    rw [haction]
    exact List.mem_singleton.mpr rfl

/-- Before `l = r` the object behind `l` lies behind `r`, where it still lies behind the copy. -/
theorem mem_taints_source (hstmt : x.program.stmt? n = some stmt) {r : Local}
    (haction : stmt.action = .assign (.local l) (.local r)) (hroot : f.path.root = .local l)
    (hzero : f.isZero = false) (hsucc : succ ∈ x.program.succsOf stmt.id) :
    f.taint.movedTo r x.most ∈ (x.reply .backward (along x n site) f).taints ∧
    ∃ g, g.taint = f.taint.movedTo r x.most ∧
      (succ, g) ∈ (x.reply .backward (along x n site) f).handed := by
  have hthrough := (AccessPath.passesThrough_local (y := l) hroot).mpr rfl
  rw [reply_assign _ hstmt haction rfl hzero]
  unfold assign
  simp only [hthrough, if_true, Value.isFieldOrElement, Fact.moveToValue?_local]
  refine ⟨List.mem_singleton.mpr rfl, f.moveToLocal r x.most, rfl, ?_⟩
  exact List.mem_map.mpr ⟨succ, hsucc, rfl⟩

/-- Behind `y = l` the object behind `l` lies behind `y` as well. -/
theorem handed_target (hstmt : x.program.stmt? n = some stmt)
    (haction : stmt.action = .assign (.local y) (.local l)) (hroot : f.path.root = .local l)
    (hne : l ≠ y) (hzero : f.isZero = false) (hsucc : succ ∈ x.program.succsOf stmt.id) :
    ∃ g, g.taint = f.taint.movedTo y x.most ∧
      (succ, g) ∈ (x.reply .backward (along x n site) f).handed := by
  have htarget : ¬ f.path.passesThrough (.local y) = true := by
    rw [AccessPath.passesThrough_local hroot]
    exact hne
  have hthrough := (AccessPath.passesThrough_local (y := l) hroot).mpr rfl
  rw [reply_assign _ hstmt haction rfl hzero]
  unfold assign
  simp only [htarget, hthrough, if_true, Value.isFieldOrElement, Fact.moveToValue?_local]
  exact ⟨f.moveToLocal y x.most, rfl, List.mem_map.mpr ⟨succ, hsucc, rfl⟩⟩

end Backward

end

/-! ## Runs over copies -/

/-- The candidate `l.f` for a secret that statement `unit` is about to store. -/
def Taint.candidate (f : FieldRef) (source : StmtId) (origin : Value) (unit : StmtId) (l : Local) :
    Taint :=
  Taint.deactivate { path := ⟨.local l, [f]⟩, source, origin } unit

/-- A finished run over a program that executes `front` first. -/
structure Trace (x : Setup) (front : List Action) (c : Coupled) : Prop where
  fixed : Coupled.IsFixedPoint x c
  started : c.forward.holds .zero ⟨0⟩ .zero = true
  calls : x.Callless
  sources : ∀ stmt ∈ x.program.stmts, stmt.call?.isSome = true → x.isSource stmt = true
  most : 1 ≤ x.most
  copying : ∀ a ∈ front, a.isCopying = true
  stmts : ∀ (k : Nat) (a : Action), front[k]? = some a →
    x.program.stmt? ⟨k⟩ = some ⟨⟨k⟩, ⟨0⟩, a⟩
  succs : ∀ k < front.length, ⟨k + 1⟩ ∈ x.program.succsOf ⟨k⟩
  preds : ∀ k < front.length, ⟨k⟩ ∈ x.program.predsOf ⟨k + 1⟩
  genuine : ∀ l, x.program.MentionsLocal l → l.method ≠ .synthetic
  typed : ∀ k ≤ front.length, ∀ l site, storeBefore front k l = some (.object site) →
    l.type.isPrimitiveOrString = false

namespace Trace

variable {x : Setup} {front : List Action} {c : Coupled} {k : Nat} {a : Action} {l y : Local}

/-- Only locals that the program mentions hold anything. -/
theorem genuine_of_content (h : Trace x front c) (hk : k ≤ front.length) {content : Content}
    (hl : storeBefore front k l = some content) : l.method ≠ .synthetic := by
  obtain ⟨a, ha, htarget⟩ := exists_target_of_content h.copying hk hl
  obtain ⟨i, hi⟩ := List.getElem?_of_mem ha
  exact h.genuine l ⟨_, Program.mem_stmts (h.stmts i a hi), Action.mem_locals_of_target htarget⟩

/-! ### Secrets -/

/-- The forward side knows the secrets that locals hold. -/
theorem holds_label (h : Trace x front c) (hk : k ≤ front.length) :
    c.forward.holds .zero ⟨k⟩ .zero = true ∧
    ∀ l source, storeBefore front k l = some (.secret source) →
      ∃ origin, c.forward.holds .zero ⟨k⟩ (.label l source origin) = true := by
  -- over the statements of the line, with the zero fact carried along for the sources to come
  induction k with
  | zero => exact ⟨h.started, nofun⟩
  | succ k ih =>
    obtain ⟨ihzero, ihlabel⟩ := ih (by omega)
    have ha : front[k]? = some front[k] := List.getElem?_eq_getElem hk
    have hstmt := h.stmts k _ ha
    have hcopying := h.copying _ (List.mem_of_getElem? ha)
    have hsucc := h.succs k hk
    constructor
    · refine h.fixed.holds_next (d := .forward) ihzero hsucc ?_
      intro f hf
      have hroot : f.path.root = .local ⟨.synthetic, "<zero>", .null⟩ :=
        congrArg (fun t => t.path.root) hf
      -- no statement assigns to the local that stands for "no taint"
      have htarget : (front[k]).target? ≠ some (.local ⟨.synthetic, "<zero>", .null⟩) := by
        intro htarget
        exact h.genuine _ ⟨_, Program.mem_stmts hstmt, Action.mem_locals_of_target htarget⟩ rfl
      have hkept := Forward.mem_taints_kept ⟨k + 1⟩ h.calls hstmt hcopying hroot htarget
      rwa [Fact.activateAt_of_active (by rw [hf]; rfl), hf] at hkept
    · intro l source hl
      -- kept, copied, or new; an object that is new is no secret
      rcases content_cases h.copying ha hl with
        ⟨htarget, hold⟩ | ⟨r, haction, hold⟩ | ⟨_, -, hnew⟩ | ⟨m, haction, hnew⟩
      · obtain ⟨origin, hholds⟩ := ihlabel l source hold
        refine ⟨origin, h.fixed.holds_next (d := .forward) hholds hsucc ?_⟩
        intro f hf
        have hroot : f.path.root = .local l := by rw [Fact.path_of_label hf]; rfl
        have hkept := Forward.mem_taints_kept ⟨k + 1⟩ h.calls hstmt hcopying hroot htarget
        rwa [Fact.activateAt_of_label hf, hf] at hkept
      · obtain ⟨origin, hholds⟩ := ihlabel r source hold
        have hr := h.genuine_of_content (by omega) hold
        refine ⟨origin, h.fixed.holds_next (d := .forward) hholds hsucc ?_⟩
        intro f hf
        have hsame := Fact.activateAt_of_label hf ⟨k⟩
        have hroot : f.path.root = .local r := by rw [Fact.path_of_label hf]; rfl
        have hreaches : (f.activateAt ⟨k⟩).reaches (.local l) = true := by
          rw [hsame]
          simp [Fact.reaches, Fact.isActive_of_label hf]
        have hcopied := Forward.mem_taints_copied ⟨k + 1⟩ hstmt haction hroot
          (Fact.isZero_of_label hr hf) hreaches
        rwa [hsame, hf, Taint.movedTo_label] at hcopied
      · cases hnew
      · cases hnew
        refine ⟨(⟨none, m, []⟩ : Invocation).toValue,
          h.fixed.holds_next (d := .forward) ihzero hsucc ?_⟩
        intro f hf
        have hcall : x.CallAt ⟨k⟩ ⟨⟨k⟩, ⟨0⟩, front[k]⟩ ⟨none, m, []⟩ :=
          ⟨hstmt, congrArg Action.call? haction⟩
        have hsource := h.sources _ (Program.mem_stmts hstmt) (Option.isSome_of_eq_some hcall.calls)
        rw [along_call hcall, Setup.reply_forward]
        change _ ∈ (Forward.bypass x ⟨k⟩ f).taints
        rw [h.calls.mem_taints_bypass hcall]
        exact Or.inr ⟨hsource, .local l, .ofLocal l, congrArg Action.target? haction, rfl, rfl⟩

/-! ### Candidates -/

/-- The forward side knows the taint before statement number `k`. -/
def Knows (c : Coupled) (t : Taint) (k : Nat) : Prop :=
  ∃ context, c.forward.holds context ⟨k⟩ t = true

/-- The backward side looks for the taint between statement number `k` and the one before it. -/
def Seeks (c : Coupled) (t : Taint) (k : Nat) : Prop :=
  ∃ context, c.backward.holds context ⟨k - 1⟩ t = true

section

variable {f : FieldRef} {source : StmtId} {origin : Value} {unit : StmtId} {g : Fact}

/-- What there is to know about a candidate. -/
theorem candidate_spec (hg : g.taint = .candidate f source origin unit l) :
    g.path.root = .local l ∧ (l.method ≠ .synthetic → g.isZero = false) ∧
    ∀ s, s ≠ unit → g.activateAt s = g := by
  refine ⟨?_, ?_, ?_⟩
  · unfold Fact.path
    rw [hg]
    rfl
  · intro hl
    unfold Fact.isZero
    rw [hg]
    simpa [Taint.candidate, Taint.deactivate, Taint.isZero, AccessPath.local?] using hl
  · intro s hs
    simp [Fact.activateAt, Taint.activatedBy, hg, Taint.candidate, Taint.deactivate, Ne.symm hs]

theorem candidate_movedTo {most : Nat} (hmost : 1 ≤ most) :
    (Taint.candidate f source origin unit l).movedTo y most =
      .candidate f source origin unit y := by
  have htake : [f].take most = [f] := List.take_of_length_le hmost
  simp [Taint.candidate, Taint.deactivate, Taint.movedTo, AccessPath.moveToLocal,
    AccessPath.truncated, htake]

theorem pred (h : Trace x front c) (ha : front[k]? = some a) (hpos : 0 < k) :
    ⟨k - 1⟩ ∈ x.program.predsOf ⟨k⟩ := by
  have hk := (List.getElem?_eq_some_iff.mp ha).1
  have hpred := h.preds (k - 1) (by omega)
  rwa [Nat.sub_add_cancel hpos] at hpred

/-- A candidate stays behind a local that is not assigned to. -/
theorem knows_kept (h : Trace x front c) (ha : front[k]? = some a) (hunit : k < unit.index)
    (htarget : a.target? ≠ some (.local l))
    (hknows : Knows c (.candidate f source origin unit l) k) :
    Knows c (.candidate f source origin unit l) (k + 1) := by
  obtain ⟨context, hholds⟩ := hknows
  have hk := (List.getElem?_eq_some_iff.mp ha).1
  refine ⟨context, h.fixed.holds_next (d := .forward) hholds (h.succs k hk) ?_⟩
  intro g hg
  obtain ⟨hroot, -, hinactive⟩ := candidate_spec hg
  have hkept := Forward.mem_taints_kept ⟨k + 1⟩ h.calls (h.stmts k a ha)
    (h.copying a (List.mem_of_getElem? ha)) hroot htarget
  rwa [hinactive ⟨k⟩ (by rintro rfl; exact hunit.ne rfl), hg] at hkept

theorem knows_copied (h : Trace x front c) (ha : front[k]? = some (.assign (.local y) (.local l)))
    (hunit : k < unit.index) (hl : l.method ≠ .synthetic) (hy : y.type.isPrimitiveOrString = false)
    (hknows : Knows c (.candidate f source origin unit l) k) :
    Knows c (.candidate f source origin unit y) (k + 1) := by
  obtain ⟨context, hholds⟩ := hknows
  have hk := (List.getElem?_eq_some_iff.mp ha).1
  refine ⟨context, h.fixed.holds_next (d := .forward) hholds (h.succs k hk) ?_⟩
  intro g hg
  obtain ⟨hroot, hzero, hinactive⟩ := candidate_spec hg
  have hsame := hinactive ⟨k⟩ (by rintro rfl; exact hunit.ne rfl)
  have hreaches : (g.activateAt ⟨k⟩).reaches (.local y) = true := by
    rw [hsame]
    simp [Fact.reaches, Fact.mayAlias, Value.isConstant, Value.isFieldOrElement, hy, Fact.path, hg,
      Taint.candidate, Taint.deactivate, AccessPath.isLocal]
  have hcopied := Forward.mem_taints_copied ⟨k + 1⟩ (h.stmts k _ ha) rfl hroot
    (hzero hl) hreaches
  rwa [hsame, hg, candidate_movedTo h.most] at hcopied

theorem seeks_kept (h : Trace x front c) (ha : front[k]? = some a) (hpos : 0 < k)
    (hl : l.method ≠ .synthetic) (htarget : a.target? ≠ some (.local l))
    (hseeks : Seeks c (.candidate f source origin unit l) (k + 1)) :
    Seeks c (.candidate f source origin unit l) k := by
  obtain ⟨context, hholds⟩ := hseeks
  rw [Nat.add_sub_cancel] at hholds
  refine ⟨context, h.fixed.holds_next (d := .backward) hholds (h.pred ha hpos) ?_⟩
  intro g hg
  obtain ⟨hroot, hzero, -⟩ := candidate_spec hg
  have hkept := Backward.mem_taints_kept ⟨k - 1⟩ h.calls (h.stmts k a ha)
    (h.copying a (List.mem_of_getElem? ha)) hroot (hzero hl) htarget
  rwa [hg] at hkept

/-- At `l = r` the search goes on behind `r`, which refers to the object behind the copy, too. -/
theorem seeks_source (h : Trace x front c) {r : Local}
    (ha : front[k]? = some (.assign (.local l) (.local r))) (hpos : 0 < k)
    (hl : l.method ≠ .synthetic) (hseeks : Seeks c (.candidate f source origin unit l) (k + 1)) :
    Seeks c (.candidate f source origin unit r) k ∧
      Knows c (.candidate f source origin unit r) (k + 1) := by
  obtain ⟨context, hholds⟩ := hseeks
  rw [Nat.add_sub_cancel] at hholds
  have hsucc := h.succs k (List.getElem?_eq_some_iff.mp ha).1
  -- one reply serves both directions: the search goes on, and what it found is handed forward
  have hmoved : ∀ g : Fact, g.taint = .candidate f source origin unit l →
      Taint.candidate f source origin unit r ∈
        (x.reply .backward (along x ⟨k⟩ ⟨k - 1⟩) g).taints ∧
      ∃ g', g'.taint = .candidate f source origin unit r ∧
        (⟨k + 1⟩, g') ∈ (x.reply .backward (along x ⟨k⟩ ⟨k - 1⟩) g).handed := by
    intro g hg
    obtain ⟨hroot, hzero, -⟩ := candidate_spec hg
    have hboth := Backward.mem_taints_source ⟨k - 1⟩ (h.stmts k _ ha) rfl hroot (hzero hl) hsucc
    rwa [hg, candidate_movedTo h.most] at hboth
  constructor
  · exact ⟨context, h.fixed.holds_next (d := .backward) hholds (h.pred ha hpos)
      fun g hg => (hmoved g hg).1⟩
  · exact ⟨_, h.fixed.holds_handed (d := .backward) hholds (h.pred ha hpos)
      fun g hg => (hmoved g hg).2⟩

/-- At `y = l` the search behind `l` finds `y`. -/
theorem knows_target (h : Trace x front c) (ha : front[k]? = some (.assign (.local y) (.local l)))
    (hpos : 0 < k) (hl : l.method ≠ .synthetic) (hne : l ≠ y)
    (hseeks : Seeks c (.candidate f source origin unit l) (k + 1)) :
    Knows c (.candidate f source origin unit y) (k + 1) := by
  obtain ⟨context, hholds⟩ := hseeks
  rw [Nat.add_sub_cancel] at hholds
  have hsucc := h.succs k (List.getElem?_eq_some_iff.mp ha).1
  refine ⟨_, h.fixed.holds_handed (d := .backward) hholds (h.pred ha hpos) ?_⟩
  intro g hg
  obtain ⟨hroot, hzero, -⟩ := candidate_spec hg
  have hhanded := Backward.handed_target ⟨k - 1⟩ (h.stmts k _ ha) rfl hroot hne (hzero hl) hsucc
  rwa [hg, candidate_movedTo h.most] at hhanded

/-- Where the backward side looks for an object behind one local, the forward side knows it behind
every other local that refers to it. -/
theorem knows_of_seeks (h : Trace x front c) (hunit : front.length ≤ unit.index)
    (hk : k ≤ front.length) {site : StmtId} {l' : Local} (hne : l' ≠ l)
    (hl : storeBefore front k l = some (.object site))
    (hl' : storeBefore front k l' = some (.object site))
    (hseeks : Seeks c (.candidate f source origin unit l) k) :
    Knows c (.candidate f source origin unit l') k := by
  -- the cases go by how either local came to refer to the object: before, by a copy, or as a
  -- new one
  induction k generalizing l l' with
  | zero => cases hl
  | succ k ih =>
    have ha : front[k]? = some front[k] := List.getElem?_eq_getElem hk
    have hgenuine := h.genuine_of_content hk hl
    have hbefore : k < unit.index := by omega
    have hfresh : ∀ l₀, storeBefore front k l₀ ≠ some (.object ⟨k⟩) := by
      intro l₀ hobject
      have hlt := index_lt_of_object h.copying (by omega) hobject
      exact lt_irrefl k hlt
    have hpos : ∀ l₀, storeBefore front k l₀ = some (.object site) → 0 < k := by
      intro l₀ hobject
      have hlt := index_lt_of_object h.copying (by omega) hobject
      omega
    -- what assigns to `l` leaves `l'` alone
    have hleft : ∀ e, front[k] = .assign (.local l) e → (front[k]).target? ≠ some (.local l') ∧
        storeBefore front k l' = some (.object site) := by
      intro e haction
      have hother : (front[k]).target? ≠ some (.local l') := by
        rw [haction]
        simpa [Action.target?] using hne.symm
      rw [storeBefore_succ ha, Action.exec_of_target_ne hother] at hl'
      exact ⟨hother, hl'⟩
    rcases content_cases h.copying ha hl with
      ⟨htarget, hold⟩ | ⟨r, haction, hold⟩ | ⟨_, haction, hnew⟩ | ⟨_, -, hnew⟩
    · have hseeks' := h.seeks_kept ha (hpos l hold) hgenuine htarget hseeks
      -- `l` kept the object, so it is sought on; `l'` has kept it, copied it from `l`, or from
      -- another
      rcases content_cases h.copying ha hl' with
        ⟨htarget', hold'⟩ | ⟨r, haction, hold'⟩ | ⟨_, -, hnew⟩ | ⟨_, -, hnew⟩
      · exact h.knows_kept ha hbefore htarget' (ih (by omega) hne hold hold' hseeks')
      · rw [haction] at ha
        by_cases hr : r = l
        · subst hr
          exact h.knows_target ha (hpos r hold) hgenuine hne.symm hseeks
        · have hknows := ih (by omega) hr hold hold' hseeks'
          exact h.knows_copied ha hbefore (h.genuine_of_content (by omega) hold')
            (h.typed (k + 1) hk l' site hl') hknows
      · cases hnew
        exact absurd hold (hfresh l)
      · cases hnew
    -- `l` has just got it from `r`, behind which the search goes on
    · obtain ⟨hother, hold'⟩ := hleft _ haction
      rw [haction] at ha
      obtain ⟨hseeks', hknows⟩ := h.seeks_source ha (hpos r hold) hgenuine hseeks
      rw [← haction] at ha
      by_cases hr : l' = r
      · subst hr
        exact hknows
      · exact h.knows_kept ha hbefore hother (ih (by omega) hr hold hold' hseeks')
    -- `l` is new, so no other local can refer to the same object yet
    · cases hnew
      exact absurd (hleft _ haction).2 (hfresh l')
    · cases hnew

end

end Trace

/-! ## The store -/

section

variable {x : Setup} {n : StmtId} {stmt : Stmt} {g : Fact} {o l : Local} {f : FieldRef}
  {source : StmtId} {origin : Value} (site : StmtId)

/-- Storing a secret taints the field and starts the search for other names of the object. -/
theorem Forward.mem_taints_stored (hstmt : x.program.stmt? n = some stmt)
    (haction : stmt.action = .assign (.field o f) (.local l)) (hmost : 1 ≤ x.most)
    (hl : l.method ≠ .synthetic) (hg : g.taint = .label l source origin) {p : StmtId}
    (hpred : p ∈ x.program.predsOf stmt.id) :
    ({ path := ⟨.local o, [f]⟩, source, origin } : Taint) ∈
      (x.reply .forward (along x n site) g).taints ∧
    ∃ g', g'.taint = .candidate f source origin stmt.id o ∧
      (p, g') ∈ (x.reply .forward (along x n site) g).handed := by
  -- the label is active and has no fields, so the store puts it behind `o.f` as it is
  have hsame := Fact.activateAt_of_label hg n
  have hpath := Fact.path_of_label hg
  have hzero := Fact.isZero_of_label hl hg
  have hread : (Value.local l).operands.any g.path.isReadBy = true := by
    simp [hpath, Value.operands, AccessPath.isReadBy, AccessPath.passesThrough,
      AccessPath.startsAt, AccessPath.ofLocal, AccessPath.local?]
  have hactive := Fact.isActive_of_label hg
  have halias : g.mayAlias (.field o f) = true := rfl
  have hreaches : g.reaches (.field o f) = true := by
    unfold Fact.reaches
    rw [halias]
    rfl
  have hmoved : g.moveToValue? (.field o f) false x.most = some (g.moveTo ⟨.local o, [f]⟩) := by
    have htake : [f].take x.most = [f] := List.take_of_length_le hmost
    simp [Fact.moveToValue?, AccessPath.moveTo?, AccessPath.ofValue?, hpath, AccessPath.ofLocal,
      AccessPath.remainder, AccessPath.truncated, htake]
  have hcut : ((Value.local l).operands.any fun v =>
      v.isFieldOrElement && g.path.passesThrough v) = false := rfl
  rw [Forward.reply_assign _ hstmt haction rfl, hsame]
  unfold Forward.assign
  rw [hzero, hcut]
  simp only [Bool.false_eq_true, if_false, hread, if_true, hreaches]
  rw [Reaction.mem_taints_append rfl, Reaction.handed_append rfl]
  unfold Forward.copyTo
  rw [hmoved]
  constructor
  · right
    apply List.mem_singleton.mpr
    simp [hg, Taint.label]
  · refine ⟨((g.moveTo ⟨.local o, [f]⟩).visit stmt.id).deactivate stmt.id, ?_, ?_⟩
    · simp [hg, Taint.label, Taint.candidate, Taint.deactivate]
    · have hworth : ((g.moveTo ⟨.local o, [f]⟩).visit stmt.id).isWorthProbing (.field o f) =
          true := by
        simp [Fact.isWorthProbing, Fact.path, Fact.visit, Fact.moveTo, AccessPath.isLocal]
      simp only [halias, hactive, hworth, Bool.and_self, if_true]
      exact List.mem_append_right _ (List.mem_map.mpr ⟨p, hpred, rfl⟩)

/-- The store activates every candidate behind another local. -/
theorem Forward.mem_taints_activated (hstmt : x.program.stmt? n = some stmt) {v : Value}
    (haction : stmt.action = .assign (.field o f) v) (hv : Invocation.ofValue? v = none)
    (hne : l ≠ o) (hg : g.taint = .candidate f source origin n l) :
    ({ path := ⟨.local l, [f]⟩, source, origin } : Taint) ∈
      (x.reply .forward (along x n site) g).taints := by
  have hactivated : (g.activateAt n).taint = { path := ⟨.local l, [f]⟩, source, origin } := by
    simp [Fact.activateAt, Taint.activatedBy, hg, Taint.candidate, Taint.deactivate, Fact.activate,
      Taint.activate]
  have hthrough : ¬ (g.activateAt n).path.passesThrough (.field o f) = true := by
    unfold Fact.path
    rw [hactivated]
    simp [AccessPath.passesThrough, AccessPath.startsAt, AccessPath.local?, hne]
  rw [Forward.reply_assign _ hstmt haction hv, ← hactivated]
  exact Forward.mem_taints_assign_kept hthrough

end

/-- From some number of rounds on the analysis of the first method runs to its end, and then holds
an active taint from `source` at statement `s`, under the given path. -/
def Setup.Learns (x : Setup) (s : StmtId) (path : AccessPath) (source : StmtId) : Prop :=
  ∃ rounds, ∀ fuel ≥ rounds, ∃ out, x.analyze [⟨0⟩] fuel = .ok out ∧ out.completed = true ∧
    ∃ t ∈ out.final.forward.factsAt s, t.active = true ∧ t.path = path ∧ t.source = source

/-- The run over a straight line that begins with copies, once it is over. -/
theorem trace_of_solve {x : Setup} {text : String} {front rest : List Action} {c : Coupled}
    {fuel : Nat} (hline : Program.ofDescription (Description.straightLine text (front ++ rest)) =
      .ok x.program) (hrest : rest ≠ []) (hfront : ∀ a ∈ front, a.isCopying = true)
    (hcalls : x.Callless)
    (hsources : ∀ stmt ∈ x.program.stmts, stmt.call?.isSome = true → x.isSource stmt = true)
    (hgenuine : ∀ l, x.program.MentionsLocal l → l.method ≠ .synthetic)
    (htyped : ∀ k ≤ front.length, ∀ l site, storeBefore front k l = some (.object site) →
      ∃ className, l.type = .object className)
    (hvalid : x.settings.validate = .ok ()) (hstop : x.settings.stopAfterFirstFlow = false)
    (hsolve : Coupled.solve x fuel (.ofStarts [⟨0⟩]) = .ok (some (c, true))) : Trace x front c := by
  have hstraight := Program.isStraightLine_of_description hline
  obtain ⟨hfixed, hstarted⟩ := Coupled.settled_of_solve ⟨_, hline⟩ hstop hsolve
  have hfalls : ∀ k < front.length,
      ⟨k + 1⟩ ∈ x.program.succsOf ⟨k⟩ ∧ ⟨k⟩ ∈ x.program.predsOf ⟨k + 1⟩ := by
    intro k hk
    have ha : (front ++ rest)[k]? = some front[k] := by
      rw [List.getElem?_append_left hk]
      exact List.getElem?_eq_getElem hk
    refine hstraight.falls k _ ha ?_ ?_
    · exact Action.fallsThrough_of_isCopying (hfront _ (List.getElem_mem hk))
    · have hpos := List.length_pos_iff.mpr hrest
      rw [List.length_append]
      omega
  exact {
    fixed := hfixed
    started := hstarted ⟨0⟩ (List.mem_singleton.mpr rfl)
    calls := hcalls
    sources := hsources
    most := Setup.one_le_most hvalid
    copying := hfront
    stmts := by
      intro k a ha
      have hk := (List.getElem?_eq_some_iff.mp ha).1
      exact hstraight.stmts k a (by rw [List.getElem?_append_left hk]; exact ha)
    succs := fun k hk => (hfalls k hk).1
    preds := fun k hk => (hfalls k hk).2
    genuine := hgenuine
    typed := by
      intro k hk l site hl
      obtain ⟨className, htype⟩ := htyped k hk l site hl
      rw [htype]
      rfl }

/-- Behind `o.f = x₀` the secret that `x₀` held is known in the field `f` of every local that refers
to the object. -/
theorem copied_aliases_activated {x : Setup} {text : String} {front : List Action} {o x₀ q : Local}
    {f : FieldRef} {result : Option Value} {source site : StmtId}
    (hline : Program.ofDescription (Description.straightLine text
      (front ++ [.assign (.field o f) (.local x₀), .return result])) = .ok x.program)
    (hfront : ∀ a ∈ front, a.isCopying = true) (hcalls : x.Callless)
    (hsources : ∀ stmt ∈ x.program.stmts, stmt.call?.isSome = true → x.isSource stmt = true)
    (hgenuine : ∀ l, x.program.MentionsLocal l → l.method ≠ .synthetic)
    (htyped : ∀ k ≤ front.length, ∀ l site, storeBefore front k l = some (.object site) →
      ∃ className, l.type = .object className)
    (hvalid : x.settings.validate = .ok ()) (hstop : x.settings.stopAfterFirstFlow = false)
    (hmax : x.settings.maxPropagations = 0)
    (hx₀ : storeBefore front front.length x₀ = some (.secret source))
    (ho : storeBefore front front.length o = some (.object site))
    (hq : storeBefore front front.length q = some (.object site)) :
    x.Learns ⟨front.length + 1⟩ ⟨.local q, [f]⟩ source := by
  have hstraight := Program.isStraightLine_of_description hline
  have hstarts : x.program.startsOf ⟨0⟩ = [⟨0⟩] := hstraight.starts (by simp)
  obtain ⟨rounds, hrounds⟩ := hcalls.exists_analyze ⟨_, hline⟩ hvalid hmax hstarts
  refine ⟨rounds, ?_⟩
  intro fuel hfuel
  obtain ⟨out, hanalyze, hcompleted, hsolve⟩ := hrounds fuel hfuel
  have htrace := trace_of_solve hline (by simp) hfront hcalls hsources hgenuine htyped hvalid hstop
    hsolve
  refine ⟨out, hanalyze, hcompleted, ?_⟩
  -- the store is the first statement behind the copies
  have hindex : (front ++ [.assign (.field o f) (.local x₀), .return result])[front.length]? =
      some (.assign (.field o f) (.local x₀)) := by
    simp
  have hstmt := hstraight.stmts _ _ hindex
  have hsucc := (hstraight.falls _ _ hindex rfl (by simp)).1
  have hpred : ⟨front.length - 1⟩ ∈ x.program.predsOf ⟨front.length⟩ := by
    have hpos := index_lt_of_object hfront le_rfl ho
    have hpred := htrace.preds (front.length - 1) (by omega)
    rwa [Nat.sub_add_cancel (by omega)] at hpred
  obtain ⟨origin, hlabel⟩ := (htrace.holds_label le_rfl).2 x₀ source hx₀
  have hstored := fun (g : Fact) (hg : g.taint = .label x₀ source origin) =>
    Forward.mem_taints_stored ⟨front.length + 1⟩ hstmt rfl htrace.most
      (htrace.genuine_of_content le_rfl hx₀) hg hpred
  have hknown : ∃ context, out.final.forward.holds context ⟨front.length + 1⟩
      { path := ⟨.local q, [f]⟩, source, origin } = true := by
    by_cases hne : q = o
    · -- the store itself
      subst hne
      exact ⟨.zero, htrace.fixed.holds_next (d := .forward) hlabel hsucc
        fun g hg => (hstored g hg).1⟩
    · -- another name: sought from before the store, known at it, and activated by it
      have hseeks : Trace.Seeks out.final (.candidate f source origin ⟨front.length⟩ o)
          front.length :=
        ⟨_, htrace.fixed.holds_handed (d := .forward) hlabel hsucc fun g hg => (hstored g hg).2⟩
      obtain ⟨context, hholds⟩ := htrace.knows_of_seeks le_rfl le_rfl hne ho hq hseeks
      exact ⟨context, htrace.fixed.holds_next (d := .forward) hholds hsucc
        fun g hg => Forward.mem_taints_activated _ hstmt rfl rfl hne hg⟩
  exact ⟨_, State.mem_factsAt.mpr hknown, rfl, rfl, rfl⟩

/-! Two programs. In the first the names of the object part three statements before the store, and
one of them is given to another object. In the second the secret is held by a local of the synthetic
method, which never carries taint. -/

def secretBox (name : String) : Local := ⟨⟨0⟩, name, .object "Box"⟩

def partingNames : List Action :=
  let text (name : String) : Local := ⟨⟨0⟩, name, .string⟩
  [.assign (.local (secretBox "a")) (.new "Box"),
    .assign (.local (secretBox "b")) (.local (secretBox "a")),
    .assign (.local (secretBox "o")) (.local (secretBox "a")),
    .assign (.local (secretBox "a")) (.new "Box"),
    .assign (.local (text "x")) (.invoke none ⟨"Sec", "String", "get", []⟩ []),
    .nop,
    .assign (.local (secretBox "q")) (.local (secretBox "b")),
    .assign (.local (text "y")) (.local (text "x"))]

/-- The description of a method that begins with `front` and then stores `l` in the box `o`. -/
def storing (front : List Action) (l : Local) : List Description :=
  Description.straightLine "<A: void main()>"
    (front ++ [.assign (.field (secretBox "o") ⟨"Box", "secret"⟩) (.local l), .return none])

def partingNamesSetup : Setup where
  program := (Program.ofDescription (storing partingNames ⟨⟨0⟩, "y", .string⟩)).toOption.getD
    ⟨#[], #[], #[], #[], #[], #[]⟩
  classifier := .ofStatements [⟨4⟩] []

theorem copied_aliases_activated_partingNames :
    storeBefore partingNames 8 ⟨⟨0⟩, "y", .string⟩ = some (.secret ⟨4⟩) ∧
    storeBefore partingNames 8 (secretBox "o") = storeBefore partingNames 8 (secretBox "q") ∧
    storeBefore partingNames 8 (secretBox "o") ≠ storeBefore partingNames 8 (secretBox "a") ∧
    partingNamesSetup.Learns ⟨9⟩ ⟨.local (secretBox "q"), [⟨"Box", "secret"⟩]⟩ ⟨4⟩ := by
  have hcopying : ∀ a ∈ partingNames, a.isCopying = true := by decide
  have hcalls : partingNamesSetup.Callless :=
    ⟨Program.calleesOf_eq_nil (by decide +kernel), by decide +kernel, rfl⟩
  have hsources : ∀ stmt ∈ partingNamesSetup.program.stmts, stmt.call?.isSome = true →
      partingNamesSetup.isSource stmt = true := by
    decide +kernel
  have hgenuine : ∀ l, partingNamesSetup.program.MentionsLocal l → l.method ≠ .synthetic :=
    Program.genuine_of_stmts (by decide +kernel)
  have hobjects : ∀ k < partingNames.length + 1, ∀ a ∈ partingNames,
      ∀ l ∈ a.target?.bind Value.asLocal?, l.type = .object "Box" ∨
        storeBefore partingNames k l ∈ [none, some (.secret ⟨4⟩)] := by
    decide +kernel
  have hsecret : storeBefore partingNames partingNames.length ⟨⟨0⟩, "y", .string⟩ =
      some (.secret ⟨4⟩) := by decide
  have hobject : ∀ name ∈ ["o", "q"],
      storeBefore partingNames partingNames.length (secretBox name) =
        some (.object ⟨0⟩) := by decide
  have hline : Program.ofDescription (storing partingNames ⟨⟨0⟩, "y", .string⟩) =
      .ok partingNamesSetup.program := rfl
  refine ⟨hsecret, by decide, by decide, ?_⟩
  exact copied_aliases_activated hline hcopying hcalls hsources hgenuine
    (typed_of_targets hcopying hobjects) rfl rfl rfl hsecret
    (hobject "o" (by decide)) (hobject "q" (by decide))

def syntheticSecret : List Action :=
  [.assign (.local (secretBox "o")) (.new "Box"),
    .assign (.local ⟨.synthetic, "x", .string⟩) (.invoke none ⟨"Sec", "String", "get", []⟩ [])]

def syntheticSecretSetup : Setup where
  program := (Program.ofDescription
    (storing syntheticSecret ⟨.synthetic, "x", .string⟩)).toOption.getD
    ⟨#[], #[], #[], #[], #[], #[]⟩
  classifier := .ofStatements [⟨1⟩] []

/-- A secret that a local of the synthetic method holds is stored unnoticed, even under the name
that it is stored through. -/
theorem synthetic_secret_lost :
    Program.ofDescription (storing syntheticSecret ⟨.synthetic, "x", .string⟩) =
      .ok syntheticSecretSetup.program ∧
    (∀ a ∈ syntheticSecret, a.isCopying = true) ∧ syntheticSecretSetup.Callless ∧
    (∀ stmt ∈ syntheticSecretSetup.program.stmts, stmt.call?.isSome = true →
      syntheticSecretSetup.isSource stmt = true) ∧
    (∀ k ≤ 2, ∀ l site, storeBefore syntheticSecret k l = some (.object site) →
      ∃ className, l.type = .object className) ∧
    syntheticSecretSetup.settings = {} ∧
    storeBefore syntheticSecret 2 ⟨.synthetic, "x", .string⟩ = some (.secret ⟨1⟩) ∧
    storeBefore syntheticSecret 2 (secretBox "o") = some (.object ⟨0⟩) ∧
    ¬ syntheticSecretSetup.Learns ⟨3⟩ ⟨.local (secretBox "o"), [⟨"Box", "secret"⟩]⟩ ⟨1⟩ := by
  have hcopying : ∀ a ∈ syntheticSecret, a.isCopying = true := by decide
  have hobjects : ∀ k < syntheticSecret.length + 1, ∀ a ∈ syntheticSecret,
      ∀ l ∈ a.target?.bind Value.asLocal?, l.type = .object "Box" ∨
        storeBefore syntheticSecret k l ∈ [none, some (.secret ⟨1⟩)] := by
    decide +kernel
  refine ⟨rfl, hcopying, ?_, by decide +kernel, typed_of_targets hcopying hobjects, rfl, by decide,
    by decide, ?_⟩
  · exact ⟨Program.calleesOf_eq_nil (by decide +kernel), by decide +kernel, rfl⟩
  · rintro ⟨rounds, hrounds⟩
    have hrun : (syntheticSecretSetup.analyze [⟨0⟩] 40).toOption.any (fun out =>
        (out.final.forward.factsAt ⟨3⟩).all fun t =>
          t.path ≠ ⟨.local (secretBox "o"), [⟨"Box", "secret"⟩]⟩) = true := by
      decide +kernel
    obtain ⟨out, hrun, hlost⟩ := exists_of_any_toOption hrun
    obtain ⟨out', hrun', -, t, ht, -, hpath, -⟩ := hrounds (max rounds 40) (le_max_left ..)
    rw [Setup.analyze_of_le hrun (le_max_right ..)] at hrun'
    cases hrun'
    exact of_decide_eq_true (List.all_eq_true.mp hlost t ht) hpath

end TaintFlow
