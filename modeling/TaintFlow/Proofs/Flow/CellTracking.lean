import Mathlib.Logic.Function.Basic
import TaintFlow.Proofs.Analysis.CopiedAliases

/-!
# Following a cell backward through an assignment

The backward analysis looks for other names of a heap cell that is about to be tainted. At an
assignment it has a path `q.f` that names the cell after the assignment, and it asks which paths
name the same cell before it.

To say which cell a path names, assignments between locals and instance fields are given an
execution (`Memory.assign`). Redefining `q` changes the cell that `q.f` names; then the path moves
to the right side, where the cell was before. Any other assignment leaves `q` alone, and the path
stays. There is one exception. Overwriting `q.f` changes what the cell contains and not which cell
it is, but the path moves to the right side all the same, and from there the cell is lost
(`Backward.cell_kept_iff`).
-/

namespace TaintFlow

/-! ## Memory -/

/-- What locals, static fields and the fields of objects refer to. Nothing stands for null and for
values that are no objects. -/
structure Memory (ω : Type) where
  locals : Local → Option ω
  statics : FieldRef → Option ω
  heap : ω → FieldRef → Option ω

namespace Memory

variable {ω : Type} (m : Memory ω)

def root : Root → Option ω
  | .local l => m.locals l
  | .static f => m.statics f

/-- The object that a chain of fields leads to. -/
def follow (from? : Option ω) (fields : List FieldRef) : Option ω :=
  fields.foldl (fun o f => o.bind fun o => m.heap o f) from?

/-- The heap cell that a path names: an object and one of its fields. -/
def cell? (p : AccessPath) : Option (ω × FieldRef) :=
  p.fields.getLast?.bind fun f => (m.follow (m.root p.root) p.fields.dropLast).map fun o => (o, f)

/-- What a local or an instance field of a local holds; there is no answer if the local is null. -/
def read : Value → Option (Option ω)
  | .local l => some (m.locals l)
  | .field base f => (m.locals base).map fun o => m.heap o f
  | _ => none

variable [DecidableEq ω]

/-- Assign to a local or to an instance field of a local, if it is not null. -/
def write (content : Option ω) : Value → Option (Memory ω)
  | .local l => some { m with locals := Function.update m.locals l content }
  | .field base f => (m.locals base).map fun o =>
    { m with heap := Function.update m.heap o (Function.update (m.heap o) f content) }
  | _ => none

/-- Execute an assignment, with the right side perhaps under a cast that succeeds. -/
def assign (target source : Value) : Option (Memory ω) :=
  (m.read source.uncast).bind fun content => m.write content target

variable {m} {m' : Memory ω} {target source : Value} {q : Local} {f : FieldRef} {a : ω}

omit [DecidableEq ω] in
theorem cell?_field : m.cell? ⟨.local q, [f]⟩ = some (a, f) ↔ m.locals q = some a := by
  simp [cell?, follow, root]

/-- The right side can be read. -/
theorem read_of_assign (h : m.assign target source = some m') :
    ∃ content, m.read source.uncast = some content ∧ m.write content target = some m' :=
  Option.bind_eq_some_iff.mp h

omit [DecidableEq ω] in
theorem read_cases {v : Value} {content : Option ω} (h : m.read v = some content) :
    (∃ l, v = .local l ∧ content = m.locals l) ∨
    ∃ base g o, v = .field base g ∧ m.locals base = some o ∧ content = m.heap o g := by
  unfold read at h
  split at h
  · next l =>
    cases h
    exact Or.inl ⟨l, rfl, rfl⟩
  · next base g =>
    obtain ⟨o, ho, rfl⟩ := Option.map_eq_some_iff.mp h
    exact Or.inr ⟨base, g, o, rfl, ho, rfl⟩
  · cases h

/-- A local that is not assigned to refers to what it has referred to. -/
theorem locals_of_assign (h : m.assign target source = some m') (hne : target ≠ .local q) :
    m'.locals q = m.locals q := by
  obtain ⟨content, -, hwrite⟩ := read_of_assign h
  unfold write at hwrite
  split at hwrite
  · next l =>
    cases hwrite
    apply Function.update_of_ne
    rintro rfl
    exact hne rfl
  · obtain ⟨o, -, rfl⟩ := Option.map_eq_some_iff.mp hwrite
    rfl
  · cases hwrite

/-- A local that is assigned to refers to what the right side held. -/
theorem read_of_assign_local (h : m.assign (.local q) source = some m') :
    m.read source.uncast = some (m'.locals q) := by
  obtain ⟨content, hread, hwrite⟩ := read_of_assign h
  cases hwrite
  rw [hread]
  exact congrArg some (Function.update_self q content m.locals).symm

/-! ## Paths behind the right side -/

omit [DecidableEq ω] in
/-- If a value holds an object, then the path behind the value names the cells of that object. -/
theorem cell?_behind {v : Value} (h : m.read v = some (some a)) {most : Nat} (hmost : 2 ≤ most) :
    ∃ p, (⟨.local q, [f]⟩ : AccessPath).moveTo? v false most = some p ∧
      m.cell? p = some (a, f) := by
  rcases read_cases h with ⟨l, rfl, hl⟩ | ⟨base, g, o, rfl, hbase, ho⟩
  · have hfits : [f].length ≤ most := Nat.le_of_succ_le hmost
    exact ⟨⟨.local l, [f]⟩, AccessPath.moveTo?_of_fits rfl rfl hfits, cell?_field.mpr hl.symm⟩
  · have hfits : [g, f].length ≤ most := hmost
    refine ⟨⟨.local base, [g, f]⟩, AccessPath.moveTo?_of_fits rfl rfl hfits, ?_⟩
    simp [cell?, follow, root, hbase, ← ho]

omit [DecidableEq ω] in
/-- With its only field cut off, the path behind a value is that of the value. -/
theorem moveTo?_cut {v : Value} {content : Option ω} (h : m.read v = some content) {most : Nat}
    (hmost : 2 ≤ most) :
    (⟨.local q, [f]⟩ : AccessPath).moveTo? v true most = AccessPath.ofValue? v := by
  rcases read_cases h with ⟨l, rfl, -⟩ | ⟨base, g, o, rfl, -, -⟩
  · exact AccessPath.moveTo?_of_fits rfl rfl (Nat.zero_le _)
  · have hfits : [g].length ≤ most := Nat.le_of_succ_le hmost
    exact AccessPath.moveTo?_of_fits rfl rfl hfits

end Memory

/-! ## The flow function -/

namespace Backward

variable {x : Setup} {stmt : Stmt} {target source : Value} {f : Fact}

/-- A path through the target moves to the right side. -/
theorem facts_assign_through (h : f.path.passesThrough target = true) :
    (assign x stmt target source f).facts =
      (f.moveToValue? source.uncast target.isFieldOrElement x.most).toList := by
  unfold assign
  extract_lets operand
  rw [if_pos h]
  split
  · next moved hmoved => exact (congrArg Option.toList hmoved).symm
  · next hnone => exact (congrArg Option.toList hnone).symm

/-- Any other path stays, whatever else is found. -/
theorem exists_mem_facts_assign (h : ¬ f.path.passesThrough target = true) :
    ∃ g ∈ (assign x stmt target source f).facts, g.path = f.path := by
  obtain ⟨g, hg, htaint⟩ := Reaction.mem_taints.mp (mem_taints_assign_kept h)
  exact ⟨g, hg, congrArg Taint.path htaint⟩

/-- What normal flow over an assignment returns. A halted analysis returns nothing, and facts that
carry no taint pass. -/
theorem run_normal_assign {s : StmtId} (hstmt : x.program.stmt? s = some stmt)
    (haction : stmt.action = .assign target source) (succ : StmtId) (w : World) :
    ∃ out w', ((x.problem .backward).normal s succ f).run w = .ok (out, w') ∧
      out.Perm (if x.isHalted w.findings then [] else if f.isZero then [f]
        else (assign x stmt target source f).facts) := by
  have hnormal : normal x s f =
      if f.isZero then .pass [f] else assign x stmt target source f := by
    unfold normal Setup.withStmt
    rw [hstmt]
    dsimp only
    rw [haction]
  have hreact : x.react .backward (x.isHalted w.findings) (.normal s) f =
      if x.isHalted w.findings then {} else normal x s f := by
    unfold Setup.react
    cases x.isHalted w.findings <;> rfl
  have hfault : (assign x stmt target source f).fault = none := by
    apply Option.eq_none_iff_forall_not_mem.mpr
    intro e he
    exact (within_assign haction).fault e he
  change ∃ out w', x.run .backward (.normal s) f w = _ ∧ _
  unfold Setup.run
  rw [hreact, hnormal]
  -- halted, without taint, or the assignment itself
  cases x.isHalted w.findings with
  | true => exact ⟨_, _, rfl, x.results.perm _ _⟩
  | false =>
    cases f.isZero with
    | true => exact ⟨_, _, rfl, x.results.perm _ _⟩
    | false =>
      simp only [Bool.false_eq_true, if_false, hfault]
      exact ⟨_, _, rfl, x.results.perm _ _⟩

/-! ## Keeping track of the cell -/

section

variable {ω : Type} [DecidableEq ω] {m m' : Memory ω} {q : Local} {field : FieldRef} {a : ω}

theorem passesThrough_cases (hpath : f.path = ⟨.local q, [field]⟩)
    (h : f.path.passesThrough target = true) : target = .local q ∨ target = .field q field := by
  rw [hpath] at h
  unfold AccessPath.passesThrough at h
  split at h
  · next l =>
    left
    simp only [AccessPath.startsAt, AccessPath.local?, beq_iff_eq, Option.some.injEq] at h
    rw [h]
  · next base g =>
    right
    simp only [AccessPath.startsAt, AccessPath.local?, AccessPath.firstField?, List.head?_cons,
      Bool.and_eq_true, beq_iff_eq, Option.some.injEq] at h
    rw [h.1.2, h.2]
  · simp [AccessPath.isStatic] at h
  · cases h

/-- Where `q` keeps its object and the cell is not written, the path stays. -/
theorem cell_of_kept (hpath : f.path = ⟨.local q, [field]⟩)
    (hexec : m.assign target source = some m') (hcell : m'.cell? f.path = some (a, field))
    (hlocal : target ≠ .local q) (hfield : target ≠ .field q field) :
    ∃ g ∈ (assign x stmt target source f).facts, m.cell? g.path = some (a, field) := by
  -- neither the local nor the cell is written, so the path does not pass through the target
  have hoff : ¬ f.path.passesThrough target = true := by
    intro hthrough
    rcases passesThrough_cases hpath hthrough with h | h
    · exact hlocal h
    · exact hfield h
  obtain ⟨g, hg, hsame⟩ := exists_mem_facts_assign (x := x) hoff
  refine ⟨g, hg, ?_⟩
  rw [hsame, hpath, Memory.cell?_field, ← Memory.locals_of_assign hexec hlocal]
  rw [hpath, Memory.cell?_field] at hcell
  exact hcell

/-- Where `q` is redefined, the path moves to where the object was. -/
theorem cell_of_redefined (hmost : 2 ≤ x.most) (hpath : f.path = ⟨.local q, [field]⟩)
    (hexec : m.assign (.local q) source = some m') (hcell : m'.cell? f.path = some (a, field)) :
    ∃ g ∈ (assign x stmt (.local q) source f).facts, m.cell? g.path = some (a, field) := by
  have hthrough : f.path.passesThrough (.local q) = true := by
    rw [hpath]
    simp [AccessPath.passesThrough, AccessPath.startsAt, AccessPath.local?]
  have hread := Memory.read_of_assign_local hexec
  -- what `q` names afterwards is what the right side named before
  rw [hpath, Memory.cell?_field] at hcell
  rw [hcell] at hread
  obtain ⟨p, hmoved, hp⟩ := Memory.cell?_behind hread hmost
  rw [facts_assign_through hthrough]
  refine ⟨f.moveTo p, ?_, hp⟩
  unfold Fact.moveToValue?
  rw [hpath]
  show f.moveTo p ∈ (Option.map f.moveTo
    ((⟨.local q, [field]⟩ : AccessPath).moveTo? source.uncast false x.most)).toList
  rw [hmoved]
  exact List.mem_singleton_self _

/-- Where the cell is written, only the path of the right side is left. -/
theorem cell_of_overwritten (hmost : 2 ≤ x.most) (hpath : f.path = ⟨.local q, [field]⟩)
    (hexec : m.assign (.field q field) source = some m') :
    (∃ g ∈ (assign x stmt (.field q field) source f).facts, m.cell? g.path = some (a, field)) ↔
      (AccessPath.ofValue? source.uncast).bind m.cell? = some (a, field) := by
  have hthrough : f.path.passesThrough (.field q field) = true := by
    rw [hpath]
    simp [AccessPath.passesThrough, AccessPath.startsAt, AccessPath.local?,
      AccessPath.isInstanceField, AccessPath.firstField?]
  obtain ⟨content, hread, -⟩ := Memory.read_of_assign hexec
  have hmoved : f.moveToValue? source.uncast true x.most =
      (AccessPath.ofValue? source.uncast).map f.moveTo := by
    unfold Fact.moveToValue?
    rw [hpath, Memory.moveTo?_cut hread hmost]
  rw [facts_assign_through hthrough]
  show (∃ g ∈ (f.moveToValue? source.uncast true x.most).toList, _) ↔ _
  rw [hmoved]
  simp only [Option.mem_toList, Option.map_eq_some_iff, Option.bind_eq_some_iff]
  -- at most one fact is left, whose path is that of the right side
  constructor
  · rintro ⟨_, ⟨p, hp, rfl⟩, hcell⟩
    exact ⟨p, hp, hcell⟩
  · rintro ⟨p, hp, hcell⟩
    exact ⟨f.moveTo p, ⟨p, hp, rfl⟩, hcell⟩

/-- Let `q.f` name a cell after an assignment between locals and instance fields. Normal flow
returns a fact whose path named the same cell before the assignment, unless the analysis was told to
stop. It fails to do so exactly where the cell itself is overwritten through `q.f`, from something
other than the cell, and where a fact that counts as no taint loses its local. -/
theorem cell_kept_iff {s : StmtId} (hmost : 2 ≤ x.most) (hstmt : x.program.stmt? s = some stmt)
    (haction : stmt.action = .assign target source) (hpath : f.path = ⟨.local q, [field]⟩)
    (hexec : m.assign target source = some m') (hcell : m'.cell? f.path = some (a, field))
    (succ : StmtId) (w : World) :
    ∃ out w', ((x.problem .backward).normal s succ f).run w = .ok (out, w') ∧
      ((∃ g ∈ out, m.cell? g.path = some (a, field)) ↔
        x.isHalted w.findings = false ∧
        (f.isZero = true → m.cell? f.path = some (a, field)) ∧
        (f.isZero = false → target = .field q field →
          (AccessPath.ofValue? source.uncast).bind m.cell? = some (a, field))) := by
  obtain ⟨out, w', hrun, hout⟩ := run_normal_assign (f := f) hstmt haction succ w
  refine ⟨out, w', hrun, ?_⟩
  simp only [hout.mem_iff]
  by_cases hhalted : x.isHalted w.findings = true
  · simp [hhalted]
  · rw [Bool.not_eq_true] at hhalted
    by_cases hzero : f.isZero = true
    · simp [hhalted, hzero]
    · rw [Bool.not_eq_true] at hzero
      simp only [hhalted, hzero, Bool.false_eq_true, if_false, false_implies, true_implies,
        true_and]
      -- the cell is written, or `q` is redefined, or neither
      by_cases hfield : target = .field q field
      · subst hfield
        rw [cell_of_overwritten hmost hpath hexec]
        simp
      · have hfound : ∃ g ∈ (assign x stmt target source f).facts,
            m.cell? g.path = some (a, field) := by
          by_cases hlocal : target = .local q
          · subst hlocal
            exact cell_of_redefined hmost hpath hexec hcell
          · exact cell_of_kept hpath hexec hcell hlocal hfield
        simp [hfound, hfield]

end

end Backward

/-! One box inside another. -/

def boxLocal (name : String) : Local := ⟨⟨0⟩, name, .object "Box"⟩

def boxSecret : FieldRef := ⟨"Box", "secret"⟩

/-- The candidate that `q.secret` is tainted, pending until statement 7. -/
def secretOfQ : Fact where
  taint := { path := ⟨.local (boxLocal "q"), [boxSecret]⟩, source := ⟨6⟩, origin := .null,
             active := false, unit := some ⟨7⟩ }

def innerBox : Value := .cast (.object "Box") (.field (boxLocal "b") ⟨"Box", "inner"⟩)

def unboxing : Setup := .ofMain [.nop, .assign (.local (boxLocal "q")) innerBox, .return none] []

/-- Only `b` is known, and it has one box inside. -/
def nestedBoxes : Memory Nat where
  locals l := if l = boxLocal "b" then some 0 else none
  statics _ := none
  heap o f := if o = 0 ∧ f = ⟨"Box", "inner"⟩ then some 1 else none

/-- Behind `q = (Box) b.inner` the cell of `q.secret` is that of `b.inner.secret`, and `q` has not
named it before. -/
theorem Backward.cell_kept_iff_unboxing :
    nestedBoxes.cell? secretOfQ.path = none ∧
    ∃ m', nestedBoxes.assign (.local (boxLocal "q")) innerBox = some m' ∧
      m'.cell? secretOfQ.path = some (1, boxSecret) ∧
      ∃ out w', ((unboxing.problem .backward).normal ⟨1⟩ ⟨0⟩ secretOfQ).run {} = .ok (out, w') ∧
        ∃ g ∈ out, nestedBoxes.cell? g.path = some (1, boxSecret) := by
  refine ⟨by decide, _, rfl, by decide, ?_⟩
  obtain ⟨out, w', hrun, hkept⟩ :=
    Backward.cell_kept_iff (x := unboxing) (s := ⟨1⟩) (f := secretOfQ)
    (m := nestedBoxes) (a := 1) (by decide) rfl rfl rfl rfl (by decide) ⟨0⟩ {}
  refine ⟨out, w', hrun, hkept.mpr ⟨by decide, by decide, ?_⟩⟩
  intro _ htarget
  cases htarget

/-! A box whose secret is overwritten. -/

def overwriting : Setup :=
  .ofMain [.nop, .assign (.field (boxLocal "q") boxSecret) (.local (boxLocal "r")), .return none] []

def oneBox : Memory Unit where
  locals l := if l = boxLocal "q" then some () else none
  statics _ := none
  heap _ _ := none

/-- Before and after `q.secret = r` the cell is that of `q.secret`, but the only path that is left
is `r`. -/
theorem Backward.cell_lost_where_overwritten :
    oneBox.cell? secretOfQ.path = some ((), boxSecret) ∧
    ∃ m', oneBox.assign (.field (boxLocal "q") boxSecret) (.local (boxLocal "r")) = some m' ∧
      m'.cell? secretOfQ.path = some ((), boxSecret) ∧
      ∃ out w', ((overwriting.problem .backward).normal ⟨1⟩ ⟨0⟩ secretOfQ).run {} = .ok (out, w') ∧
        out.map Fact.path = [.ofLocal (boxLocal "r")] ∧
        ∀ g ∈ out, oneBox.cell? g.path ≠ some ((), boxSecret) := by
  refine ⟨by decide, _, rfl, by decide, ?_⟩
  have hrun : (((overwriting.problem .backward).normal ⟨1⟩ ⟨0⟩ secretOfQ).run {}).toOption.any
      (fun r => r.1.map Fact.path = [.ofLocal (boxLocal "r")]) = true := by decide +kernel
  obtain ⟨⟨out, w'⟩, hrun, hout⟩ := exists_of_any_toOption hrun
  have hpaths : out.map Fact.path = [.ofLocal (boxLocal "r")] := of_decide_eq_true hout
  refine ⟨out, w', hrun, hpaths, ?_⟩
  intro g hg
  have hpath : g.path ∈ out.map Fact.path := List.mem_map_of_mem hg
  rw [hpaths, List.mem_singleton] at hpath
  rw [hpath]
  decide

end TaintFlow
