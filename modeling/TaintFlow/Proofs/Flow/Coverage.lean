import Mathlib.Data.Set.Finite.List
import TaintFlow.Proofs.Flow.Bookkeeping
import TaintFlow.Proofs.Flow.Derivation
import TaintFlow.Proofs.Program.Mentions

/-!
# The taints that a program can give rise to

A program and a bound on the length of access paths determine a finite set of taints: those whose
locals, fields, source, origin and activation units occur in the program, or are those of the taint
that stands for none. Both analyses stay inside this set. Moving a path to another place of the
program takes the place from a statement and cuts the path at the bound; everything else that a
reaction does to a taint keeps its parts or replaces them by the statement at hand.

Library models and native models are not part of the program. They stay inside as well if they only
name places of the call they are asked about (`Setup.StaysCovered`).
-/

namespace TaintFlow

namespace Program

variable (p : Program) (most : Nat)

def MentionsRoot : Root → Prop
  | .local l => p.MentionsLocal l
  | .static f => p.MentionsField f

/-- Paths over the locals and fields of the program, or at the local that stands for no taint. -/
structure CoversPath (path : AccessPath) : Prop where
  root : p.MentionsRoot path.root ∨ path.root = Taint.zero.path.root
  fields : ∀ f ∈ path.fields, p.MentionsField f
  length : path.fields.length ≤ most

/-- Taints whose parts occur in the program, or are those of the taint that stands for none. -/
structure Covers (t : Taint) : Prop where
  path : p.CoversPath most t.path
  source : p.Has t.source ∨ t.source = Taint.zero.source
  origin : (∃ stmt ∈ p.stmts, stmt.action.origin? = some t.origin) ∨ t.origin = Taint.zero.origin
  unit : ∀ s ∈ t.unit, p.Has s
  level : ∀ s ∈ t.level, p.Has s

/-! ## There are finitely many of them -/

theorem finite_has : {s | p.Has s}.Finite := by
  refine ((Set.finite_lt_nat p.stmts.size).image StmtId.mk).subset ?_
  intro s hs
  exact ⟨s.index, hs, rfl⟩

theorem finite_mentioned {α : Type} (parts : Action → List α) :
    {a | ∃ stmt ∈ p.stmts, a ∈ parts stmt.action}.Finite := by
  refine ((p.stmts.toList.flatMap fun stmt => parts stmt.action).finite_toSet).subset ?_
  rintro a ⟨stmt, hstmt, ha⟩
  exact List.mem_flatMap.mpr ⟨stmt, Array.mem_toList_iff.mpr hstmt, ha⟩

theorem finite_roots : {r | p.MentionsRoot r ∨ r = Taint.zero.path.root}.Finite := by
  have hlocals : {l | p.MentionsLocal l}.Finite := p.finite_mentioned Action.locals
  have hfields : {f | p.MentionsField f}.Finite := p.finite_mentioned Action.fields
  refine (((hlocals.image Root.local).union (hfields.image Root.static)).union
    (Set.finite_singleton Taint.zero.path.root)).subset ?_
  rintro r (hr | rfl)
  · cases r with
    | «local» l => exact Or.inl (Or.inl ⟨l, hr, rfl⟩)
    | static f => exact Or.inl (Or.inr ⟨f, hr, rfl⟩)
  · exact Or.inr rfl

/-- Chains of bounded length over finitely many fields. -/
theorem finite_chains :
    {fs : List FieldRef | (∀ f ∈ fs, p.MentionsField f) ∧ fs.length ≤ most}.Finite := by
  have hfields : {f | p.MentionsField f}.Finite := p.finite_mentioned Action.fields
  have := hfields.to_subtype
  refine ((List.finite_length_le {f | p.MentionsField f} most).image
    (List.map Subtype.val)).subset ?_
  rintro fs ⟨hmem, hlength⟩
  refine ⟨fs.attachWith (· ∈ {f | p.MentionsField f}) hmem, ?_, ?_⟩
  · show (fs.attachWith _ hmem).length ≤ most
    rw [List.length_attachWith]
    exact hlength
  · simp

theorem finite_origins :
    {v | (∃ stmt ∈ p.stmts, stmt.action.origin? = some v) ∨ v = Taint.zero.origin}.Finite := by
  have horigins := p.finite_mentioned fun action => action.origin?.toList
  refine (horigins.union (Set.finite_singleton Taint.zero.origin)).subset ?_
  rintro v (⟨stmt, hstmt, hv⟩ | rfl)
  · exact Or.inl ⟨stmt, hstmt, by simp [hv]⟩
  · exact Or.inr rfl

theorem finite_units : {o : Option StmtId | ∀ s ∈ o, p.Has s}.Finite := by
  refine ((p.finite_has.image some).union (Set.finite_singleton none)).subset ?_
  intro o ho
  cases o with
  | none => exact Or.inr rfl
  | some s => exact Or.inl ⟨s, ho s rfl, rfl⟩

theorem finite_covers : {t | p.Covers most t}.Finite := by
  have hsources : {s | p.Has s ∨ s = Taint.zero.source}.Finite :=
    p.finite_has.union (Set.finite_singleton _)
  have hphases : (Set.univ : Set (Bool × Bool)).Finite := Set.finite_univ
  have hparts := p.finite_roots.prod ((p.finite_chains most).prod (hsources.prod
    (p.finite_origins.prod (p.finite_units.prod (p.finite_units.prod
      hphases)))))
  -- a taint is put together from its parts
  refine (hparts.image fun r => (⟨⟨r.1, r.2.1⟩, r.2.2.1, r.2.2.2.1, r.2.2.2.2.2.2.1,
    r.2.2.2.2.1, r.2.2.2.2.2.1, r.2.2.2.2.2.2.2⟩ : Taint)).subset ?_
  intro t ht
  exact ⟨(t.path.root, t.path.fields, t.source, t.origin, t.unit, t.level, t.active, t.thrown),
    ⟨ht.path.root, ⟨ht.path.fields, ht.path.length⟩, ht.source, ht.origin, ht.unit, ht.level,
      trivial⟩, rfl⟩

variable {p most}

/-! ## Paths -/

theorem coversPath_zero : p.CoversPath most Taint.zero.path :=
  ⟨Or.inr rfl, List.forall_mem_nil _, Nat.zero_le _⟩

/-- The location that a value denotes, and one field at most. -/
theorem MentionsValue.ofValue {v : Value} (h : p.MentionsValue v) {path : AccessPath}
    (hpath : AccessPath.ofValue? v = some path) :
    p.MentionsRoot path.root ∧ (∀ f ∈ path.fields, p.MentionsField f) ∧
      path.fields.length ≤ 1 := by
  -- a place of the program: all others denote no location
  cases v with
  | «local» l =>
    cases hpath
    exact ⟨h.locals l (by simp [Value.locals]), List.forall_mem_nil _, Nat.zero_le _⟩
  | element base index =>
    cases hpath
    exact ⟨h.locals base (by simp [Value.locals]), List.forall_mem_nil _, Nat.zero_le _⟩
  | field base f =>
    cases hpath
    refine ⟨h.locals base (by simp [Value.locals]), ?_, le_refl 1⟩
    intro f' hf'
    rw [List.mem_singleton.mp hf']
    exact h.fields f (by simp [Value.fields])
  | static f =>
    cases hpath
    exact ⟨h.fields f (by simp [Value.fields]), List.forall_mem_nil _, Nat.zero_le _⟩
  | _ => cases hpath

theorem coversPath_ofValue (hmost : 1 ≤ most) {v : Value} (h : p.MentionsValue v)
    {path : AccessPath} (hpath : AccessPath.ofValue? v = some path) : p.CoversPath most path := by
  obtain ⟨hroot, hfields, hlength⟩ := h.ofValue hpath
  exact ⟨Or.inl hroot, hfields, hlength.trans hmost⟩

/-- Moving a path to a place of the program keeps its fields, adds those of the place, and cuts. -/
theorem CoversPath.moveTo {path moved : AccessPath} (h : p.CoversPath most path) {v : Value}
    (hv : p.MentionsValue v) {cut : Bool} (hmoved : path.moveTo? v cut most = some moved) :
    p.CoversPath most moved := by
  obtain ⟨place, hplace, rfl⟩ := Option.map_eq_some_iff.mp hmoved
  obtain ⟨hroot, hfields, -⟩ := hv.ofValue hplace
  have hremainder : ∀ f ∈ path.remainder cut, f ∈ path.fields := by
    intro f hf
    unfold AccessPath.remainder at hf
    split at hf
    · exact hf
    · split at hf
      · exact List.mem_of_mem_tail hf
      · exact hf
  -- the root is that of the place, and the chain is cut to its bound
  refine ⟨Or.inl hroot, ?_, List.length_take_le _ _⟩
  intro f hf
  rcases List.mem_append.mp (List.mem_of_mem_take hf) with hf | hf
  · exact hfields f hf
  · exact h.fields f (hremainder f hf)

/-! ## Taints -/

theorem covers_zero : p.Covers most .zero :=
  ⟨coversPath_zero, Or.inr rfl, Or.inr rfl, nofun, nofun⟩

namespace Covers

variable {f g : Fact}

theorem activateAt (h : p.Covers most f.taint) (s : StmtId) :
    p.Covers most (f.activateAt s).taint := by
  unfold Fact.activateAt
  split
  · exact ⟨h.path, h.source, h.origin, nofun, nofun⟩
  · exact h

theorem leaving (h : p.Covers most f.taint) (call : Option StmtId) :
    p.Covers most (Forward.leaving call f).taint := by
  cases call with
  | none => exact h
  | some call => exact h.activateAt call

theorem moveTo (h : p.Covers most f.taint) {path : AccessPath} (hpath : p.CoversPath most path) :
    p.Covers most (f.moveTo path).taint :=
  ⟨hpath, h.source, h.origin, h.unit, h.level⟩

theorem moveToValue (h : p.Covers most f.taint) {v : Value} (hv : p.MentionsValue v) {cut : Bool}
    (hmoved : f.moveToValue? v cut most = some g) : p.Covers most g.taint := by
  obtain ⟨path, hpath, rfl⟩ := Option.map_eq_some_iff.mp hmoved
  exact h.moveTo (h.path.moveTo hv hpath)

theorem moveToLocal (h : p.Covers most f.taint) {l : Local} (hl : p.MentionsLocal l) :
    p.Covers most (f.moveToLocal l most).taint :=
  h.moveToValue (mentionsValue_local hl) (Fact.moveToValue?_local f l most)

theorem deactivate (h : p.Covers most f.taint) {s : StmtId} (hs : p.Has s) :
    p.Covers most (f.deactivate s).taint := by
  refine ⟨h.path, h.source, h.origin, ?_, nofun⟩
  intro s' hs'
  cases hs'
  exact hs

theorem atLevel (h : p.Covers most f.taint) {s : StmtId} (hs : p.Has s) :
    p.Covers most (f.atLevel s).taint := by
  refine ⟨h.path, h.source, h.origin, h.unit, ?_⟩
  intro s' hs'
  cases hs'
  exact hs

end Covers

end Program

/-! ## Reactions -/

namespace Setup

/-- What the library model and the native model make of a covered path stays covered. -/
structure StaysCovered (x : Setup) : Prop where
  derived : ∀ {library stmt path derived}, x.library = some library → stmt ∈ x.program.stmts →
    derived ∈ library.derived stmt path → x.program.CoversPath x.most path →
    x.program.CoversPath x.most derived
  native : ∀ {call stmt invocation f g}, x.CallAt call stmt invocation →
    g ∈ Forward.throughNative x stmt invocation f → x.program.Covers x.most f.taint →
    x.program.Covers x.most g.taint

end Setup

open Program

/-- A new taint is about the statement that creates it. -/
theorem Forward.covers_newFact {x : Setup} {stmt : Stmt} (hstmt : stmt ∈ x.program.stmts)
    (hid : x.program.Has stmt.id) {path : AccessPath} (hpath : x.program.CoversPath x.most path)
    {origin : Value} (horigin : stmt.action.origin? = some origin) (parent : Fact) :
    x.program.Covers x.most (newFact x path stmt.id origin parent).taint :=
  ⟨hpath, Or.inl hid, Or.inl ⟨stmt, hstmt, horigin⟩, nofun, nofun⟩

section

variable {x : Setup} {edge : FlowEdge} {f g : Fact}

/-- The statement that makes a call is not an identity, so the call is what it produces. -/
theorem Setup.CallAt.origin {call : StmtId} {stmt : Stmt} {invocation : Invocation}
    (h : x.CallAt call stmt invocation) : stmt.action.origin? = some invocation.toValue := by
  have hcalls : stmt.action.call? = some invocation := h.calls
  unfold Action.origin?
  split
  · next haction =>
    rw [haction] at hcalls
    cases hcalls
  · rw [hcalls]
    rfl

theorem Setup.CallAt.mentionsValue {call : StmtId} {stmt : Stmt} {invocation : Invocation}
    (h : x.CallAt call stmt invocation) {v : Value} (hv : stmt.target? = some v ∨
      v ∈ invocation.args ∨ v ∈ invocation.receiver.map Value.local) :
    x.program.MentionsValue v := by
  rcases hv with htarget | harg | hreceiver
  · exact mentionsValue_of_mem (mem_stmts h.known) (target_mem_values htarget)
  · exact mentionsValue_of_arg (mem_stmts h.known) h.calls harg
  · obtain ⟨l, hl, rfl⟩ := Option.map_eq_some_iff.mp hreceiver
    exact mentionsValue_local (mentionsLocal_of_receiver (mem_stmts h.known) h.calls hl)

theorem Setup.CallAt.mentionsLocal {call : StmtId} {stmt : Stmt} {invocation : Invocation}
    (h : x.CallAt call stmt invocation) {l : Local}
    (hl : .local l ∈ invocation.args ∨ invocation.receiver = some l) :
    x.program.MentionsLocal l := by
  rcases hl with harg | hreceiver
  · have hvalue := mentionsValue_of_arg (mem_stmts h.known) h.calls harg
    exact hvalue.locals l (by simp [Value.locals])
  · exact mentionsLocal_of_receiver (mem_stmts h.known) h.calls hreceiver

theorem Backward.mentionsValue_of_moves {s : StmtId} {stmt : Stmt}
    (hs : x.program.stmt? s = some stmt) (hmoves : Backward.Moves x stmt f g) :
    ∃ v cut, x.program.MentionsValue v ∧ f.moveToValue? v cut x.most = some g := by
  obtain @⟨target, source, v, cut, haction, hv, hmoved⟩ := hmoves
  have hmem : ∀ v ∈ [target, source], x.program.MentionsValue v := by
    intro v hv
    exact mentionsValue_of_action hs haction hv
  refine ⟨v, cut, ?_, hmoved⟩
  rcases hv with rfl | rfl | ⟨type, rfl⟩
  · exact hmem v (List.mem_cons_self ..)
  · exact hmem v (List.mem_cons_of_mem _ (List.mem_singleton.mpr rfl))
  · exact (hmem _ (List.mem_cons_of_mem _ (List.mem_singleton.mpr rfl))).of_cast

theorem Backward.covers_of_moves {s : StmtId} {stmt : Stmt} (hs : x.program.stmt? s = some stmt)
    (hmoves : Backward.Moves x stmt f g) (hf : x.program.Covers x.most f.taint) :
    x.program.Covers x.most g.taint := by
  obtain ⟨v, cut, hmention, hmoved⟩ := Backward.mentionsValue_of_moves hs hmoves
  exact hf.moveToValue hmention hmoved

/-- What an exit statement of the backward view makes of a fact before it leaves. -/
theorem Backward.covers_of_last {s : StmtId} {stmt : Stmt} (hs : x.program.stmt? s = some stmt)
    (hstep : g = f ∨ Backward.Moves x stmt f g) (hf : x.program.Covers x.most f.taint) :
    x.program.Covers x.most g.taint := by
  rcases hstep with rfl | hmoves
  · exact hf
  · exact Backward.covers_of_moves hs hmoves hf

theorem Backward.mentionsLocal_of_returned {callee : MethodId} {l : Local}
    (hl : l ∈ returnedLocals x callee) : x.program.MentionsLocal l := by
  obtain ⟨exit, -, stmt, hstmt, haction⟩ := mem_returnedLocals.mp hl
  refine ⟨stmt, mem_stmts hstmt, ?_⟩
  rw [haction]
  simp [Action.locals, Action.values, Value.locals]

variable (hp : x.program.Built) (hmost : 1 ≤ x.most)
  (hmodels : x.StaysCovered)

include hp

theorem Program.Built.has_id {s : StmtId} {stmt : Stmt} (h : x.program.stmt? s = some stmt) :
    x.program.Has stmt.id := by
  rw [hp.id_eq h]
  exact has_of_stmt? h

include hmost hmodels

theorem Forward.covers_of_yields (hyields : Forward.Yields x edge f g)
    (hf : x.program.Covers x.most f.taint) : x.program.Covers x.most g.taint := by
  -- one case for each outcome: it moves the fact to a place of the program, or leaves its path as
  -- is
  cases hyields with
  | kept _ => exact hf.activateAt _
  | @caught s _ stmt target hs haction _ =>
    have htarget : x.program.MentionsValue (.local target) :=
      mentionsValue_of_action hs haction (List.mem_cons_self ..)
    exact (hf.activateAt s).moveTo (coversPath_ofValue hmost htarget rfl)
  | @arrived s _ stmt target source hs haction _ =>
    have htarget : x.program.MentionsValue (.local target) :=
      mentionsValue_of_action hs haction (List.mem_cons_self ..)
    exact Forward.covers_newFact (mem_stmts hs) (hp.has_id hs)
      (coversPath_ofValue hmost htarget rfl) (by rw [haction]; rfl) _
  | @assigned s _ stmt target source cut moved hs haction _ _ hmoved =>
    have htarget : x.program.MentionsValue target :=
      mentionsValue_of_action hs haction (List.mem_cons_self ..)
    have hmovedCovers := (hf.activateAt s).moveToValue htarget hmoved
    exact hmovedCovers
  | @thrown s _ stmt operand hs _ _ =>
    have hactive := hf.activateAt s
    exact ⟨hactive.path, hactive.source, hactive.origin, hactive.unit, hactive.level⟩
  | zero _ _ => exact hf
  | @bound call callee _ stmt invocation method l _ hmethod _ hl =>
    exact (hf.activateAt call).moveToLocal (hp.mentionsLocal_of_bound hmethod hl)
  | entered _ _ => exact hf.activateAt _
  | @returned call callee exit _ stmt invocation exitStmt v moved hcall _ _ hv hmoved =>
    have hmovedCovers := (hf.leaving (some call)).moveToValue (hcall.mentionsValue hv) hmoved
    exact hmovedCovers
  | left _ _ _ => exact hf.leaving _
  | idle _ _ => exact hf
  | passed _ _ => exact hf.activateAt _
  | @modelled call _ stmt invocation library path hcall hlibrary _ hderived _ =>
    have hactive := hf.activateAt call
    exact hactive.moveTo
      (hmodels.derived hlibrary (mem_stmts hcall.known) hderived hactive.path)
  | @native call _ stmt invocation _ hcall hg => exact hmodels.native hcall hg (hf.activateAt call)
  | @created call _ stmt invocation v path hcall _ htarget hpath =>
    have hmention :=
      mentionsValue_of_mem (mem_stmts hcall.known) (target_mem_values htarget)
    exact Forward.covers_newFact (mem_stmts hcall.known) (hp.has_id hcall.known)
      (coversPath_ofValue hmost hmention hpath) hcall.origin _

theorem Forward.covers_of_hands {h : StmtId × Fact} (hhands : Forward.Hands x edge f h)
    (hf : x.program.Covers x.most f.taint) :
    x.program.Has h.1 ∧ x.program.Covers x.most h.2.taint := by
  cases hhands with
  | @assigned s _ stmt target source cut moved p hs haction _ _ _ hmoved hpred =>
    have htarget : x.program.MentionsValue target :=
      mentionsValue_of_action hs haction (List.mem_cons_self ..)
    have hmovedCovers := (hf.activateAt s).moveToValue htarget hmoved
    exact ⟨(hp.has_edge (Or.inr hpred)).1,
      Covers.deactivate (f := moved.visit stmt.id) hmovedCovers (hp.has_id hs)⟩
  | @returned call callee exit _ stmt invocation g p hcall hyields hpred =>
    have hg := Forward.covers_of_yields hp hmost hmodels hyields hf
    refine ⟨(hp.has_edge (Or.inr hpred)).1, ?_⟩
    -- a candidate is deactivated at the call, anything else is handed over as it came out
    unfold probeAfter
    split
    · exact (hg.deactivate (hp.has_id hcall.known)).atLevel (hp.has_id hcall.known)
    · exact hg
  | @modelled call _ stmt invocation library path p hcall hlibrary _ _ hderived _ hpred =>
    have hactive := hf.activateAt call
    have hpath := hmodels.derived hlibrary (mem_stmts hcall.known) hderived hactive.path
    exact ⟨(hp.has_edge (Or.inr hpred)).1,
      (hactive.moveTo hpath).deactivate (hp.has_id hcall.known)⟩

omit hmost hmodels

theorem Backward.covers_of_yields (hyields : Backward.Yields x edge f g)
    (hf : x.program.Covers x.most f.taint) : x.program.Covers x.most g.taint := by
  cases hyields with
  | kept => exact hf
  | moved hs _ hmoves => exact Backward.covers_of_moves hs hmoves hf
  | bound hmethod _ hl =>
    refine hf.moveToLocal ?_
    -- against control flow also the locals that the callee returns are bound
    rcases hl with hparam | hthis | hreturned
    · exact hp.mentionsLocal_of_bound hmethod (Or.inl hparam)
    · exact hp.mentionsLocal_of_bound hmethod (Or.inr hthis)
    · exact Backward.mentionsLocal_of_returned hreturned
  | entered _ _ => exact hf
  | left _ hexit _ hstep _ => exact Backward.covers_of_last hexit hstep hf
  | @returned call callee exit _ stmt invocation exitStmt g l hcall hexit _ hstep hl =>
    exact ((Backward.covers_of_last hexit hstep hf).moveToLocal (hcall.mentionsLocal hl)).atLevel
      (has_of_stmt? hcall.known)
  | passed => exact hf

theorem Backward.covers_of_hands {h : StmtId × Fact} (hhands : Backward.Hands x edge f h)
    (hf : x.program.Covers x.most f.taint) :
    x.program.Has h.1 ∧ x.program.Covers x.most h.2.taint := by
  cases hhands with
  | moved hs _ hmoves hsucc =>
    exact ⟨(hp.has_edge (Or.inl hsucc)).2, Backward.covers_of_moves hs hmoves hf⟩
  | left hs _ hmoves hsucc =>
    exact ⟨(hp.has_edge (Or.inl hsucc)).2, Backward.covers_of_moves hs hmoves hf⟩

end

end TaintFlow
