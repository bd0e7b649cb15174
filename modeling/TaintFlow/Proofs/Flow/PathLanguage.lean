import Mathlib.Data.Set.Operations
import TaintFlow.Proofs.Analysis.CopiedAliases

/-!
# The locations that a path stands for

A tainted location taints everything that can be reached from it. So a path stands for all locations
that continue it by further fields: its language. An assignment `t = e` brings what lies behind an
operand of `e` behind `t`, and does away with what was behind `t` before. The forward analysis
agrees with this reading as far as it can without telling the elements of an array apart
(`Forward.languages_after_assign`): no location is missed, and a path behind the target goes unless
it is read as well.

Two rules have to fit together. Reading takes a field off a path exactly if the path passes through
that field (`AccessPath.remainder_prefix`), and a chain that is cut stands for more locations and
not for fewer (`AccessPath.language_subset_truncated`).
-/

namespace TaintFlow

/-! ## Languages -/

namespace AccessPath

/-- The path with further fields behind it. -/
def extend (p : AccessPath) (fields : List FieldRef) : AccessPath :=
  { p with fields := p.fields ++ fields }

/-- The locations that the path stands for. -/
def language (p : AccessPath) : Set AccessPath := Set.range p.extend

variable {p q : AccessPath}

theorem mem_language : q ∈ p.language ↔ q.root = p.root ∧ p.fields <+: q.fields := by
  constructor
  · rintro ⟨fields, rfl⟩
    exact ⟨rfl, List.prefix_append _ _⟩
  · rintro ⟨hroot, fields, hfields⟩
    refine ⟨fields, ?_⟩
    unfold extend
    rw [hfields, ← hroot]

theorem extend_mem_language {fields : List FieldRef} :
    q.extend fields ∈ p.language ↔ q.root = p.root ∧ p.fields <+: q.fields ++ fields :=
  mem_language

/-- Continuations of a continuation. -/
theorem language_trans (h : q ∈ p.language) : q.language ⊆ p.language := by
  intro o ho
  rw [mem_language] at h ho ⊢
  exact ⟨ho.1.trans h.1, h.2.trans ho.2⟩

/-- Two paths share a location if one continues the other. -/
theorem overlap_iff :
    (∃ fields, q.extend fields ∈ p.language) ↔ p ∈ q.language ∨ q ∈ p.language := by
  constructor
  · rintro ⟨fields, h⟩
    obtain ⟨hroot, hfields⟩ := extend_mem_language.mp h
    -- both chains begin the same location, so one of them begins the other
    rcases List.prefix_or_prefix_of_prefix hfields (List.prefix_append q.fields fields) with h | h
    · exact Or.inr (mem_language.mpr ⟨hroot, h⟩)
    · exact Or.inl (mem_language.mpr ⟨hroot.symm, h⟩)
  · rintro (⟨fields, rfl⟩ | h)
    · exact ⟨fields, mem_language.mpr ⟨rfl, List.prefix_rfl⟩⟩
    · refine ⟨[], ?_⟩
      unfold extend
      rwa [List.append_nil]

/-- A location without fields shares one with every path from the same root. -/
theorem overlap_bare {root : Root} :
    (∃ fields, (⟨root, []⟩ : AccessPath).extend fields ∈ p.language) ↔ p.root = root := by
  constructor
  · rintro ⟨fields, h⟩
    exact (extend_mem_language.mp h).1.symm
  · rintro rfl
    exact ⟨p.fields, mem_language.mpr ⟨rfl, List.prefix_rfl⟩⟩

theorem language_subset_truncated (root : Root) (fields : List FieldRef) (most : Nat) :
    language ⟨root, fields⟩ ⊆ (truncated root fields most).language :=
  language_trans (mem_language.mpr ⟨rfl, List.take_prefix most fields⟩)

end AccessPath

/-! ## Right sides -/

namespace Value

/-- The location that a place of the program is. An element of an array counts as the array. -/
inductive Names : Value → AccessPath → Prop
  | local (l) : Names (.local l) ⟨.local l, []⟩
  | field (base f) : Names (.field base f) ⟨.local base, [f]⟩
  | static (f) : Names (.static f) ⟨.static f, []⟩
  | element (base index) : Names (.element base index) ⟨.local base, []⟩

/-- An operand of an operation, a local or a constant, with the location it reads. -/
inductive ReadsOperand : Value → List AccessPath → Prop
  | local (l) : ReadsOperand (.local l) [⟨.local l, []⟩]
  | constant {v} : v.isConstant = true → ReadsOperand v []

/-- The right sides in three-address form, with the locations they read. Allocating reads
nothing. -/
inductive Reads : Value → List AccessPath → Prop
  | place {v r} : v.Names r → Reads v [r]
  | constant {v} : v.isConstant = true → Reads v []
  | new (className) : Reads (.new className) []
  | newArray (elem size) : Reads (.newArray elem size) []
  | cast (type) {v r} : v.Names r → Reads (.cast type v) [r]
  | length {v r} : v.Names r → Reads (.length v) [r]
  | binop (op) {left right ls rs} : left.ReadsOperand ls → right.ReadsOperand rs →
    Reads (.binop op left right) (ls ++ rs)

def isElement : Value → Bool
  | .element _ _ => true
  | _ => false

variable {v e : Value} {r : AccessPath} {rs : List AccessPath}

theorem Names.ofValue? (h : v.Names r) : AccessPath.ofValue? v = some r := by
  cases h <;> rfl

theorem Names.operands (h : v.Names r) : v.operands = [v] := by
  cases h <;> rfl

theorem operands_of_isConstant (h : v.isConstant = true) : v.operands = [] := by
  cases v with
  | int | string | null => rfl
  | _ => cases h

theorem ReadsOperand.isFieldOrElement (h : v.ReadsOperand rs) : v.isFieldOrElement = false := by
  cases h with
  | «local» l => rfl
  | constant hconstant =>
    cases v with
    | int | string | null => rfl
    | _ => cases hconstant

theorem ReadsOperand.names (h : v.ReadsOperand rs) (hr : r ∈ rs) : v.Names r := by
  cases h with
  | «local» l =>
    rw [List.mem_singleton.mp hr]
    exact .local l
  | constant _ => cases hr

theorem Reads.operand_cases (h : e.Reads rs) (hv : v ∈ e.operands) :
    (∃ r ∈ rs, v.Names r) ∨ v.isConstant = true := by
  have hoperand : ∀ {ls : List AccessPath}, v.ReadsOperand ls → (∀ r ∈ ls, r ∈ rs) →
      (∃ r ∈ rs, v.Names r) ∨ v.isConstant = true := by
    intro ls hreads hsub
    cases hreads with
    | «local» l => exact Or.inl ⟨_, hsub _ (List.mem_singleton_self _), .local l⟩
    | constant hconstant => exact Or.inr hconstant
  cases h with
  | @place v' r hnames =>
    rw [hnames.operands] at hv
    rw [List.mem_singleton.mp hv]
    exact Or.inl ⟨r, List.mem_singleton_self r, hnames⟩
  | @cast type v' r hnames | @length v' r hnames =>
    rw [List.mem_singleton.mp hv]
    exact Or.inl ⟨r, List.mem_singleton_self r, hnames⟩
  | constant hconstant =>
    rw [operands_of_isConstant hconstant] at hv
    cases hv
  | new _ | newArray _ _ => cases hv
  | @binop op left right ls rs hleft hright =>
    rcases List.mem_cons.mp hv with rfl | hv
    · exact hoperand hleft fun r hr => List.mem_append_left _ hr
    · rw [List.mem_singleton.mp hv] at hoperand ⊢
      exact hoperand hright fun r hr => List.mem_append_right _ hr

/-- Every location that a right side reads is the place of an operand, and whether reading takes a
field off a path is a matter of that operand alone. -/
theorem Reads.exists_operand (h : e.Reads rs) (hr : r ∈ rs) (p : AccessPath) :
    ∃ v ∈ e.operands, v.Names r ∧
      (e.operands.any fun v => v.isFieldOrElement && p.passesThrough v) =
        (v.isFieldOrElement && p.passesThrough v) := by
  have hplace : ∀ {v : Value} {r' : AccessPath}, v.Names r' → r ∈ [r'] → e.operands = [v] →
      ∃ v ∈ e.operands, v.Names r ∧
        (e.operands.any fun v => v.isFieldOrElement && p.passesThrough v) =
          (v.isFieldOrElement && p.passesThrough v) := by
    intro v r' hnames hr hoperands
    rw [hoperands, List.mem_singleton.mp hr]
    exact ⟨v, List.mem_singleton_self v, hnames, by simp⟩
  cases h with
  | place hnames => exact hplace hnames hr hnames.operands
  | cast type hnames => exact hplace hnames hr rfl
  | length hnames => exact hplace hnames hr rfl
  | constant _ | new _ | newArray _ _ => cases hr
  -- the operands of an operation are locals, which reading takes nothing off
  | @binop op left right ls rs hleft hright =>
    have hcut : ((Value.binop op left right).operands.any fun v =>
        v.isFieldOrElement && p.passesThrough v) = false := by
      simp [Value.operands, hleft.isFieldOrElement, hright.isFieldOrElement]
    rw [hcut]
    rcases List.mem_append.mp hr with hr | hr
    · exact ⟨left, by simp [Value.operands], hleft.names hr, by simp [hleft.isFieldOrElement]⟩
    · exact ⟨right, by simp [Value.operands], hright.names hr, by simp [hright.isFieldOrElement]⟩

end Value

/-! ## The tests of the analysis, read as statements about languages -/

namespace AccessPath

variable {p : AccessPath} {v : Value} {r : AccessPath}

/-- A path passes through a place if it continues it, unless the place is an element. -/
theorem passesThrough_iff (h : v.Names r) :
    p.passesThrough v = true ↔ p ∈ r.language ∧ v.isElement = false := by
  -- the test looks at the first field only, which is the whole chain of a place
  obtain ⟨root, fields⟩ := p
  rw [mem_language]
  cases h with
  | «local» l => simp [passesThrough, startsAt_eq_true, Value.isElement]
  | field base f =>
    cases fields with
    | nil => cases root <;> simp [passesThrough, isInstanceField, Value.isElement]
    | cons g rest =>
      cases root with
      | «local» l =>
        simp only [passesThrough, startsAt_eq_true, isInstanceField, firstField?, Value.isElement,
          List.cons_prefix_cons, List.head?_cons, Bool.and_eq_true, beq_iff_eq, Option.some.injEq]
        simp [@eq_comm _ f]
      | static g' => simp [passesThrough, isInstanceField]
  | static f => cases root <;> simp [passesThrough, isStatic, firstField?, Value.isElement]
  | element base index => simp [passesThrough, Value.isElement]

/-- A place is read if something behind it is tainted. -/
theorem isReadBy_iff (h : v.Names r) :
    p.isReadBy v = true ↔ ∃ fields, r.extend fields ∈ p.language := by
  have hthrough := passesThrough_iff (p := p) h
  obtain ⟨root, fields⟩ := p
  cases h with
  | «local» l =>
    rw [overlap_bare]
    exact startsAt_eq_true
  | element base index =>
    rw [overlap_bare]
    exact startsAt_eq_true
  | static f =>
    rw [overlap_bare]
    cases root <;> simp [isReadBy, passesThrough, isStatic, firstField?]
  | field base f =>
    rw [overlap_iff, isReadBy, Bool.or_eq_true, hthrough, Bool.and_eq_true, startsAt_eq_true]
    constructor
    · rintro (⟨hbehind, -⟩ | ⟨hbare, rfl⟩)
      · exact Or.inl hbehind
      · -- the whole object is tainted, and the field with it
        have hnil : fields = [] := by simpa [isLocal] using hbare
        exact Or.inr (mem_language.mpr ⟨rfl, by simp [hnil]⟩)
    · rintro (hbehind | hwhole)
      · exact Or.inl ⟨hbehind, rfl⟩
      · obtain ⟨rfl, hfields⟩ := mem_language.mp hwhole
        rcases List.prefix_cons_iff.mp hfields with rfl | ⟨rest, rfl, -⟩
        · exact Or.inr ⟨rfl, rfl⟩
        · exact Or.inl ⟨mem_language.mpr ⟨rfl, by simp⟩, rfl⟩

/-- Reading takes the fields of the place off the path, as far as they are on it: what is left leads
to everything that lies behind the place. -/
theorem remainder_prefix (h : v.Names r) {fields : List FieldRef}
    (hread : r.extend fields ∈ p.language) :
    p.remainder (v.isFieldOrElement && p.passesThrough v) <+: fields := by
  have hthrough := passesThrough_iff (p := p) h
  obtain ⟨hroot, hfields⟩ := extend_mem_language.mp hread
  obtain ⟨root, chain⟩ := p
  cases h with
  | «local» l | element base index =>
    cases hroot
    simpa [remainder, Value.isFieldOrElement, passesThrough] using hfields
  | static f =>
    cases hroot
    exact hfields
  -- the chain ends before the field or goes through it; only then there is something to take off
  | field base f =>
    cases hroot
    rcases List.prefix_cons_iff.mp hfields with rfl | ⟨rest, rfl, hrest⟩
    · simp [remainder]
    · have hon : (⟨.local base, f :: rest⟩ : AccessPath).passesThrough (.field base f) = true := by
        rw [hthrough, mem_language]
        simp [Value.isElement]
      rw [hon]
      exact hrest

/-- Moved to another place, the path stands for everything that lies behind that place as it lay
behind the one that was read. -/
theorem extend_mem_language_of_moveTo? {target : Value} {t moved : AccessPath} {cut : Bool}
    {most : Nat} {fields : List FieldRef} (ht : target.Names t) (hrest : p.remainder cut <+: fields)
    (hmoved : p.moveTo? target cut most = some moved) : t.extend fields ∈ moved.language := by
  unfold moveTo? at hmoved
  rw [ht.ofValue?, Option.map_some] at hmoved
  cases hmoved
  refine language_subset_truncated _ _ _ (mem_language.mpr ⟨rfl, ?_⟩)
  exact List.prefix_append_right_inj _ |>.mpr hrest

/-- A right side is read if something behind an operand is tainted. -/
theorem any_isReadBy_iff {e : Value} {rs : List AccessPath} (h : e.Reads rs) :
    e.operands.any p.isReadBy = true ↔ ∃ r ∈ rs, ∃ fields, r.extend fields ∈ p.language := by
  rw [List.any_eq_true]
  constructor
  · rintro ⟨v, hv, hread⟩
    rcases h.operand_cases hv with ⟨r, hr, hnames⟩ | hconstant
    · exact ⟨r, hr, (isReadBy_iff hnames).mp hread⟩
    -- a constant stands for no location, and no path reads it
    · cases v with
      | int | string | null => cases hread
      | _ => cases hconstant
  · rintro ⟨r, hr, hread⟩
    obtain ⟨v, hv, hnames, -⟩ := h.exists_operand hr p
    exact ⟨v, hv, (isReadBy_iff hnames).mpr hread⟩

end AccessPath

/-! ## Assignments -/

namespace Forward

open Reaction

variable {x : Setup} {stmt : Stmt} {target source : Value} {f : Fact}

theorem fault_assign : (assign x stmt target source f).fault = none := by
  unfold assign copyTo
  split
  · rfl
  · split
    · dsimp only
      split
      · rw [fault_append rfl]
        split <;> rfl
      · rfl
    · split <;> rfl

section

variable (hactive : f.isActive = true) (hzero : f.isZero = false)

include hactive hzero

/-- What is read is carried over to the target. -/
theorem mem_taints_assign_read (hread : source.operands.any f.path.isReadBy = true) {moved : Fact}
    (hmoved : f.moveToValue? target
      (source.operands.any fun v => v.isFieldOrElement && f.path.passesThrough v) x.most =
        some moved) :
    moved.taint ∈ (assign x stmt target source f).taints := by
  have hreaches : f.reaches target = true := by simp [Fact.reaches, hactive]
  unfold assign copyTo
  simp only [hzero, Bool.false_eq_true, if_false, hread, if_true, hreaches, hmoved]
  rw [mem_taints_append rfl]
  exact Or.inr (List.mem_singleton.mpr rfl)

variable {t : AccessPath} {rs : List AccessPath} (ht : target.Names t) (he : source.Reads rs)

include ht he

/-- What lies behind an operand lies behind the target afterwards. -/
theorem exists_mem_language_of_read {r : AccessPath} (hr : r ∈ rs) {fields : List FieldRef}
    (hread : r.extend fields ∈ f.path.language) :
    ∃ g ∈ (assign x stmt target source f).facts, t.extend fields ∈ g.path.language := by
  obtain ⟨v, -, hnames, hcut⟩ := he.exists_operand hr f.path
  have hany := (AccessPath.any_isReadBy_iff he).mpr ⟨r, hr, fields, hread⟩
  have hrest := AccessPath.remainder_prefix hnames hread
  rw [← hcut] at hrest
  obtain ⟨moved, hmoved⟩ : ∃ moved, f.path.moveTo? target
      (source.operands.any fun v => v.isFieldOrElement && f.path.passesThrough v) x.most =
        some moved := by
    unfold AccessPath.moveTo?
    rw [ht.ofValue?]
    exact ⟨_, rfl⟩
  have hmem : (f.moveTo moved).taint ∈ (assign x stmt target source f).taints :=
    mem_taints_assign_read hactive hzero hany (Option.map_eq_some_iff.mpr ⟨moved, hmoved, rfl⟩)
  obtain ⟨g, hg, htaint⟩ := mem_taints.mp hmem
  refine ⟨g, hg, ?_⟩
  have hpath : g.path = moved := congrArg Taint.path htaint
  rw [hpath]
  exact AccessPath.extend_mem_language_of_moveTo? ht hrest hmoved

omit hactive in
/-- What lies behind the target and is not read is gone. -/
theorem assign_eq_empty (hunread : ∀ r ∈ rs, ∀ fields, r.extend fields ∉ f.path.language)
    (hbehind : f.path ∈ t.language) (helement : target.isElement = false) :
    assign x stmt target source f = {} := by
  have hany : ¬ source.operands.any f.path.isReadBy = true := by
    rw [AccessPath.any_isReadBy_iff he]
    rintro ⟨r, hr, fields, hread⟩
    exact hunread r hr fields hread
  have hthrough := (AccessPath.passesThrough_iff ht).mpr ⟨hbehind, helement⟩
  unfold assign
  simp only [hzero, Bool.false_eq_true, if_false, hany, hthrough, if_true]

end

/-- What does not lie behind the target stays, and so does everything if the target is an
element. -/
theorem exists_mem_language_of_kept {t q : AccessPath} (ht : target.Names t)
    (hq : q ∈ f.path.language) (hoff : q ∉ t.language ∨ target.isElement = true) :
    ∃ g ∈ (assign x stmt target source f).facts, q ∈ g.path.language := by
  have hkept : ¬ f.path.passesThrough target = true := by
    rw [AccessPath.passesThrough_iff ht]
    rintro ⟨hbehind, helement⟩
    -- the path may be shortened, so its location is behind the target if the path is
    rcases hoff with hoff | hoff
    · exact hoff (AccessPath.language_trans hbehind hq)
    · rw [helement] at hoff
      cases hoff
  have hmem : f.taint ∈ (assign x stmt target source f).taints := mem_taints_assign_kept hkept
  obtain ⟨g, hg, htaint⟩ := mem_taints.mp hmem
  have hpath : g.path = f.path := congrArg Taint.path htaint
  exact ⟨g, hg, hpath ▸ hq⟩

theorem run_normal_assign {s : StmtId} (succ : StmtId) {w : World}
    (hhalted : x.isHalted w.findings = false) (hstmt : x.program.stmt? s = some stmt)
    (haction : stmt.action = .assign target source) (hactive : f.isActive = true) :
    ∃ out, ((x.problem .forward).normal s succ f).run w =
      .ok (out, w.absorb (assign x stmt target source f)) ∧
      out.Perm (assign x stmt target source f).facts := by
  have hreact : x.react .forward false (.normal s) f = assign x stmt target source f := by
    have hnormal := normal_eq_assign (f := f) hstmt haction
    rwa [f.activateAt_of_active hactive] at hnormal
  have hrun := Setup.exists_run_eq_ok (d := .forward) hhalted (.normal s) f
    (by rw [hreact]; exact fault_assign)
  rwa [hreact] at hrun

/-- Let an active fact with taint meet an assignment that is no call. Every location that lies
behind the target afterwards, as it lay behind an operand before, is accounted for. So is every
location of the fact that does not lie behind the target, and every location of the fact if the
target is an element of an array. If the path of the fact starts with any other target and nothing
behind an operand is tainted, no fact is left. -/
theorem languages_after_assign {s : StmtId} (succ : StmtId) {t : AccessPath} {rs : List AccessPath}
    {w : World} (hhalted : x.isHalted w.findings = false) (hstmt : x.program.stmt? s = some stmt)
    (haction : stmt.action = .assign target source) (ht : target.Names t) (he : source.Reads rs)
    (hactive : f.isActive = true) (hzero : f.isZero = false) :
    ∃ out w', ((x.problem .forward).normal s succ f).run w = .ok (out, w') ∧
      (∀ r ∈ rs, ∀ fields, r.extend fields ∈ f.path.language →
        ∃ g ∈ out, t.extend fields ∈ g.path.language) ∧
      (∀ q ∈ f.path.language, q ∉ t.language ∨ target.isElement = true →
        ∃ g ∈ out, q ∈ g.path.language) ∧
      ((∀ r ∈ rs, ∀ fields, r.extend fields ∉ f.path.language) → f.path ∈ t.language →
        target.isElement = false → out = []) := by
  obtain ⟨out, hrun, hout⟩ := run_normal_assign succ hhalted hstmt haction hactive
  refine ⟨out, _, hrun, ?_, ?_, ?_⟩
  · intro r hr fields hread
    obtain ⟨g, hg, hmem⟩ := exists_mem_language_of_read hactive hzero ht he hr hread
    exact ⟨g, hout.mem_iff.mpr hg, hmem⟩
  · intro q hq hoff
    obtain ⟨g, hg, hmem⟩ := exists_mem_language_of_kept ht hq hoff
    exact ⟨g, hout.mem_iff.mpr hg, hmem⟩
  · intro hunread hbehind helement
    rw [assign_eq_empty hzero ht he hunread hbehind helement] at hout
    exact hout.eq_nil

/-! A box is put into another one, and chains may have two fields. -/

def boxNamed (name : String) : Local := ⟨⟨0⟩, name, .object "Box"⟩

def boxField (name : String) : FieldRef := ⟨"Box", name⟩

def nesting : Setup :=
  { Setup.ofMain [
      .assign (.field (boxNamed "o") (boxField "outer"))
        (.cast (.object "Box") (.local (boxNamed "p"))),
      .assign (.local (boxNamed "p")) (.new "Box"), .return none] [] with
    settings := { accessPathLength := 2 } }

def deepSecret : Fact where
  taint := { path := ⟨.local (boxNamed "p"), [boxField "inner", boxField "secret"]⟩, source := ⟨6⟩,
             origin := .null }

/-- After `o.outer = (Box) p` the chain `o.outer.inner.secret` is too long to be kept, and it is
accounted for all the same; `p = new Box` does away with the secret behind `p`. -/
theorem languages_after_assign_nesting :
    (∃ out w', ((nesting.problem .forward).normal ⟨0⟩ ⟨1⟩ deepSecret).run {} = .ok (out, w') ∧
      (∃ g ∈ out, ⟨.local (boxNamed "o"), [boxField "outer", boxField "inner", boxField "secret"]⟩ ∈
        g.path.language) ∧
      (∃ g ∈ out, deepSecret.path ∈ g.path.language) ∧ ∀ g ∈ out, g.path.fields.length ≤ 2) ∧
    ∃ w', ((nesting.problem .forward).normal ⟨1⟩ ⟨2⟩ deepSecret).run {} = .ok ([], w') := by
  constructor
  · obtain ⟨out, w', hrun, hcarried, hkept, -⟩ := languages_after_assign (x := nesting) (w := {})
      (s := ⟨0⟩) (f := deepSecret) ⟨1⟩ rfl rfl rfl (.field _ _) (.cast _ (.local _)) rfl rfl
    have hself : deepSecret.path ∈ deepSecret.path.language :=
      AccessPath.mem_language.mpr ⟨rfl, List.prefix_rfl⟩
    refine ⟨out, w', hrun, ?_, ?_, ?_⟩
    · exact hcarried _ (List.mem_singleton_self _) [boxField "inner", boxField "secret"] hself
    · refine hkept _ hself (Or.inl ?_)
      intro hbehind
      have hroot := (AccessPath.mem_language.mp hbehind).1
      exact absurd hroot (by decide)
    · have hshort : (((nesting.problem .forward).normal ⟨0⟩ ⟨1⟩ deepSecret).run {}).toOption.any
          (fun r => r.1.all fun g => g.path.fields.length ≤ 2) = true := by decide +kernel
      obtain ⟨r, hrun', hr⟩ := exists_of_any_toOption hshort
      rw [hrun] at hrun'
      cases hrun'
      simpa using hr
  · obtain ⟨out, w', hrun, -, -, hgone⟩ := languages_after_assign (x := nesting) (w := {})
      (s := ⟨1⟩) (f := deepSecret) ⟨2⟩ rfl rfl rfl (.local _) (.new _) rfl rfl
    have hbehind : deepSecret.path ∈ AccessPath.language ⟨.local (boxNamed "p"), []⟩ :=
      AccessPath.mem_language.mpr ⟨rfl, List.nil_prefix⟩
    have hempty := hgone (List.forall_mem_nil _) hbehind rfl
    rw [hempty] at hrun
    exact ⟨w', hrun⟩

end Forward

end TaintFlow
