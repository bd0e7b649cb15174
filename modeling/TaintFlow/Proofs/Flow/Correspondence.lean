import Mathlib.Data.Option.Basic
import TaintFlow.Proofs.Flow.Bookkeeping
import TaintFlow.Proofs.Flow.Derivation

/-!
# Two analyses side by side

The statements of one analysis may have other numbers than those of the other, and its chains of
fields may be cut at another length. As long as corresponding access paths agree in their root and
their first field, no flow function can tell the two analyses apart. This file has what they build
on: the derivations of facts, and the reactions that facts are gathered in.
-/

namespace TaintFlow

/-! ## Access paths that cannot be told apart -/

namespace AccessPath

/-- Same root and same first field. Whatever a flow function asks about a path is decided by
these. -/
structure Alike (p q : AccessPath) : Prop where
  root : q.root = p.root
  head : q.fields.head? = p.fields.head?

namespace Alike

variable {p q : AccessPath} (h : p.Alike q)

include h

theorem isEmpty : q.fields.isEmpty = p.fields.isEmpty := by
  have hhead := h.head
  cases hp : p.fields <;> cases hq : q.fields <;> simp [hp, hq] at hhead ⊢

theorem isLocal : q.isLocal = p.isLocal := by
  unfold AccessPath.isLocal
  rw [h.root, h.isEmpty]

theorem isInstanceField : q.isInstanceField = p.isInstanceField := by
  unfold AccessPath.isInstanceField
  rw [h.root, h.isEmpty]

theorem isStatic : q.isStatic = p.isStatic := by
  unfold AccessPath.isStatic
  rw [h.root]

theorem firstField : q.firstField? = p.firstField? := by
  unfold AccessPath.firstField?
  rw [h.root, h.head]

theorem startsAt : q.startsAt = p.startsAt := by
  funext l
  unfold AccessPath.startsAt AccessPath.local?
  rw [h.root]

theorem isRootedAt : q.isRootedAt = p.isRootedAt := by
  funext v
  unfold AccessPath.isRootedAt
  rw [h.startsAt]

theorem passesThrough : q.passesThrough = p.passesThrough := by
  funext v
  unfold AccessPath.passesThrough
  rw [h.startsAt, h.isInstanceField, h.isStatic, h.firstField]

theorem isReadBy : q.isReadBy = p.isReadBy := by
  funext v
  unfold AccessPath.isReadBy
  rw [h.passesThrough, h.isLocal, h.startsAt]

end Alike

end AccessPath

/-- Whether the value is an instance field. -/
def Value.isField : Value → Bool
  | .field _ _ => true
  | _ => false

/-! ## Correspondences -/

/-- Which statements and which access paths of two analyses stand for one another. -/
structure Correspondence where
  stmt : StmtId → StmtId → Prop
  path : AccessPath → AccessPath → Prop

namespace Correspondence

/-- What a correspondence has to satisfy, given at which lengths the two analyses cut chains:
numbers of statements correspond one to one, and paths still correspond after a move. -/
structure Lawful (K : Correspondence) (most most' : Nat) : Prop where
  unique : ∀ {s s' t t'}, K.stmt s s' → K.stmt t t' → (s' = t' ↔ s = t)
  synthetic : K.stmt .synthetic .synthetic
  alike : ∀ {p q}, K.path p q → p.Alike q
  functional : ∀ {p q q'}, K.path p q → K.path p q' → q = q'
  short : ∀ {p : AccessPath}, p.fields.length ≤ 1 → K.path p p
  moved : ∀ {p q}, K.path p q → ∀ root (f : Option FieldRef),
    K.path (.truncated root (f.toList ++ p.fields) most)
      (.truncated root (f.toList ++ q.fields) most')
  swapped : ∀ {p q}, K.path p q → ∀ root f,
    K.path (.truncated root (f :: p.fields.tail) most) (.truncated root (f :: q.fields.tail) most')

variable (K : Correspondence)

structure Taints (t u : Taint) : Prop where
  path : K.path t.path u.path
  source : K.stmt t.source u.source
  origin : u.origin = t.origin
  active : u.active = t.active
  unit : Option.Rel K.stmt t.unit u.unit
  level : Option.Rel K.stmt t.level u.level
  thrown : u.thrown = t.thrown

variable {K} in
theorem Lawful.rel_functional {most most' : Nat} (hK : K.Lawful most most') {a b b' : Option StmtId}
    (h : Option.Rel K.stmt a b) (h' : Option.Rel K.stmt a b') : b = b' := by
  cases h with
  | none =>
    cases h'
    rfl
  | some hs =>
    cases h' with
    | some hs' => rw [(hK.unique hs hs').mpr rfl]

variable {K} in
/-- A taint has one counterpart at most. -/
theorem Taints.functional {most most' : Nat} (hK : K.Lawful most most') {t u u' : Taint}
    (h : K.Taints t u) (h' : K.Taints t u') : u = u' := by
  obtain ⟨path, source, origin, active, unit, level, thrown⟩ := u
  obtain ⟨path', source', origin', active', unit', level', thrown'⟩ := u'
  obtain ⟨hpath, hsource, horigin, hactive, hunit, hlevel, hthrown⟩ := h
  obtain ⟨hpath', hsource', horigin', hactive', hunit', hlevel', hthrown'⟩ := h'
  dsimp only at *
  rw [hK.functional hpath hpath', (hK.unique hsource hsource').mpr rfl, horigin, horigin', hactive,
    hactive', hK.rel_functional hunit hunit', hK.rel_functional hlevel hlevel', hthrown, hthrown']

variable {K} in
theorem taints_zero {most most' : Nat} (hK : K.Lawful most most') : K.Taints .zero .zero :=
  ⟨hK.short (Nat.zero_le _), hK.synthetic, rfl, rfl, .none, .none, rfl⟩

/-- Facts correspond if their taints do. -/
def Facts (f g : Fact) : Prop := K.Taints f.taint g.taint

/-- The same statement under two numbers. -/
structure Stmts (a b : Stmt) : Prop where
  id : K.stmt a.id b.id
  method : b.method = a.method
  action : b.action = a.action

variable {K} {most most' : Nat} {f g : Fact}

theorem Stmts.call? {a b : Stmt} (h : K.Stmts a b) : b.call? = a.call? := by
  unfold Stmt.call?
  rw [h.action]

theorem Stmts.target? {a b : Stmt} (h : K.Stmts a b) : b.target? = a.target? := by
  unfold Stmt.target?
  rw [h.action]

namespace Facts

variable (hK : K.Lawful most most') (h : K.Facts f g)

include hK h

theorem alike : f.path.Alike g.path := hK.alike h.path

theorem isZero : g.isZero = f.isZero := by
  unfold Fact.isZero Taint.isZero AccessPath.local?
  rw [show g.taint.path.root = f.taint.path.root from (h.alike hK).root]

theorem mayAlias (v : Value) : g.mayAlias v = f.mayAlias v := by
  unfold Fact.mayAlias
  rw [(h.alike hK).isLocal]

omit hK in
theorem isActive : g.isActive = f.isActive := Taints.active h

theorem reaches (v : Value) : g.reaches v = f.reaches v := by
  unfold Fact.reaches
  rw [h.mayAlias hK, h.isActive]

omit hK in
theorem activate : K.Facts f.activate g.activate := by
  obtain ⟨hpath, hsource, horigin, -, -, -, hthrown⟩ := h
  exact ⟨hpath, hsource, horigin, rfl, .none, .none, hthrown⟩

omit h in
theorem unit_eq {a b : Option StmtId} (hab : Option.Rel K.stmt a b) {s s' : StmtId}
    (hs : K.stmt s s') : (b == some s') = (a == some s) := by
  cases hab with
  | none => rfl
  | some hst =>
    rw [Bool.eq_iff_iff]
    simp [hK.unique hst hs]

/-- Facts are activated by corresponding statements. -/
theorem activateAt {s s' : StmtId} (hs : K.stmt s s') :
    K.Facts (f.activateAt s) (g.activateAt s') := by
  have hby : g.taint.activatedBy s' = f.taint.activatedBy s := by
    unfold Taint.activatedBy
    rw [Taints.active h, unit_eq hK (Taints.unit h) hs, unit_eq hK (Taints.level h) hs]
  unfold Fact.activateAt
  rw [hby]
  split
  · exact h.activate
  · exact h

omit hK in
theorem moveTo {p q : AccessPath} (hpath : K.path p q) : K.Facts (f.moveTo p) (g.moveTo q) := by
  obtain ⟨-, hsource, horigin, hactive, hunit, hlevel, -⟩ := h
  exact ⟨hpath, hsource, horigin, hactive, hunit, hlevel, rfl⟩

omit hK in
theorem visit (s s' : StmtId) : K.Facts (f.visit s) (g.visit s') := h

omit hK in
theorem deactivate {s s' : StmtId} (hs : K.stmt s s') :
    K.Facts (f.deactivate s) (g.deactivate s') := by
  obtain ⟨hpath, hsource, horigin, -, -, -, hthrown⟩ := h
  exact ⟨hpath, hsource, horigin, rfl, .some hs, .none, hthrown⟩

omit hK in
theorem atLevel {s s' : StmtId} (hs : K.stmt s s') : K.Facts (f.atLevel s) (g.atLevel s') := by
  obtain ⟨hpath, hsource, horigin, hactive, hunit, -, hthrown⟩ := h
  exact ⟨hpath, hsource, horigin, hactive, hunit, .some hs, hthrown⟩

omit hK in
theorem throw : K.Facts f.throw g.throw := by
  obtain ⟨hpath, hsource, horigin, hactive, hunit, hlevel, -⟩ := h
  exact ⟨hpath, hsource, horigin, hactive, hunit, hlevel, rfl⟩

theorem caughtBy (l : Local) : K.Facts (f.caughtBy l) (g.caughtBy l) :=
  h.moveTo (hK.short (Nat.zero_le _))

theorem moveToLocal (l : Local) : K.Facts (f.moveToLocal l most) (g.moveToLocal l most') :=
  h.moveTo (hK.moved h.path (.local l) none)

/-- Corresponding facts both move, or neither does. Where the move takes a field off the chain and
puts none in its place, the rests of the chains have to correspond. -/
theorem moveToValue? (v : Value) (cut : Bool)
    (hcut : cut = true → f.path.isStatic = false → v.isField = false → ∀ root,
      K.path (.truncated root f.path.fields.tail most)
        (.truncated root g.path.fields.tail most')) :
    (f.moveToValue? v cut most = none ∧ g.moveToValue? v cut most' = none) ∨
    ∃ f' g', f.moveToValue? v cut most = some f' ∧ g.moveToValue? v cut most' = some g' ∧
      K.Facts f' g' := by
  have hroot := (h.alike hK).root
  unfold Fact.moveToValue? AccessPath.moveTo?
  cases hv : AccessPath.ofValue? v with
  | none => exact Or.inl ⟨rfl, rfl⟩
  | some q =>
    refine Or.inr ⟨_, _, rfl, rfl, h.moveTo ?_⟩
    obtain ⟨field, hfield⟩ := AccessPath.exists_fields_ofValue? hv
    dsimp only
    rw [hfield]
    -- a field is taken off only where the path starts at a local; a static root is itself the field
    by_cases hplain : cut = true ∧ f.path.isStatic = false
    · obtain ⟨rfl, hlocal⟩ := hplain
      have hrest : ∀ p : AccessPath, p.root = f.path.root → p.remainder true = p.fields.tail := by
        intro p hp
        unfold AccessPath.remainder
        unfold AccessPath.isStatic at hlocal
        rw [hp]
        split
        · next hstatic =>
          rw [hstatic] at hlocal
          cases hlocal
        · rfl
      rw [hrest _ rfl, hrest _ hroot]
      -- the field of the place comes instead of the one taken off, or nothing does
      cases field with
      | some field => exact hK.swapped h.path q.root field
      | none =>
        refine hcut rfl hlocal ?_ q.root
        -- only fields have a field to put in its place
        cases v with
        | field base fld =>
          cases hv
          cases hfield
        | _ => rfl
    · have hrest : ∀ p : AccessPath, p.root = f.path.root → p.remainder cut = p.fields := by
        intro p hp
        unfold AccessPath.remainder
        unfold AccessPath.isStatic at hplain
        rw [hp]
        split
        · rfl
        · next hlocal =>
          rw [hlocal] at hplain
          cases cut with
          | false => rfl
          | true => exact absurd ⟨rfl, rfl⟩ hplain
      rw [hrest _ rfl, hrest _ hroot]
      exact hK.moved h.path q.root field

end Facts

/-! ## Reactions that mirror one another -/

variable (K) in
/-- Every fact of the first list has a counterpart in the second. -/
def Covers (fs gs : List Fact) : Prop := ∀ f ∈ fs, ∃ g ∈ gs, K.Facts f g

section

variable {fs fs' gs gs' : List Fact}

theorem covers_nil : K.Covers [] gs := nofun

theorem covers_singleton (h : K.Facts f g) : K.Covers [f] [g] := by
  intro f' hf'
  rw [List.mem_singleton.mp hf']
  exact ⟨g, List.mem_singleton_self g, h⟩

theorem Covers.append (h : K.Covers fs gs) (h' : K.Covers fs' gs') :
    K.Covers (fs ++ fs') (gs ++ gs') := by
  intro f hf
  rcases List.mem_append.mp hf with hf | hf
  · obtain ⟨g, hg, hfg⟩ := h f hf
    exact ⟨g, List.mem_append_left _ hg, hfg⟩
  · obtain ⟨g, hg, hfg⟩ := h' f hf
    exact ⟨g, List.mem_append_right _ hg, hfg⟩

theorem Covers.cons (h : K.Facts f g) (h' : K.Covers fs gs) : K.Covers (f :: fs) (g :: gs) :=
  (covers_singleton h).append h'

theorem Covers.distinct (h : K.Covers fs gs) : K.Covers (Fact.distinct fs) (Fact.distinct gs) := by
  intro f hf
  obtain ⟨g, hg, hfg⟩ := h f (Fact.mem_of_mem_distinct hf)
  -- of the facts with the taint of `g` one is left
  have htaint : g.taint ∈ (Fact.distinct gs).map Fact.taint :=
    Reaction.mem_taints_distinct.mpr (List.mem_map_of_mem hg)
  obtain ⟨g', hg', heq⟩ := List.mem_map.mp htaint
  refine ⟨g', hg', ?_⟩
  unfold Facts
  rw [heq]
  exact hfg

theorem covers_map {α : Type} {l l' : List α} {F G : α → Fact} (hsub : ∀ a ∈ l, a ∈ l')
    (h : ∀ a ∈ l, K.Facts (F a) (G a)) : K.Covers (l.map F) (l'.map G) := by
  intro f hf
  obtain ⟨a, ha, rfl⟩ := List.mem_map.mp hf
  exact ⟨G a, List.mem_map_of_mem (hsub a ha), h a ha⟩

theorem covers_ite {c : Prop} [Decidable c] (h : c → K.Covers fs gs) :
    K.Covers (if c then fs else []) (if c then gs else []) := by
  split
  · next hc => exact h hc
  · exact covers_nil

end

variable (K) in
/-- Every finding has a counterpart with the same sink and the same source. -/
def Finds (ns ns' : List Finding) : Prop :=
  ∀ n ∈ ns, ∃ n' ∈ ns', K.stmt n.sink n'.sink ∧ K.stmt n.source n'.source

theorem finds_nil {ns : List Finding} : K.Finds [] ns := nofun

theorem finds_findingAt (h : K.Facts f g) {s s' : StmtId} (hs : K.stmt s s') (v v' : Value) :
    K.Finds [f.findingAt s v] [g.findingAt s' v'] := by
  intro n hn
  rw [List.mem_singleton.mp hn]
  exact ⟨_, List.mem_singleton_self _, hs, h.source⟩

theorem Finds.append {ns ns' ms ms' : List Finding} (h : K.Finds ns ns') (h' : K.Finds ms ms') :
    K.Finds (ns ++ ms) (ns' ++ ms') := by
  intro n hn
  rcases List.mem_append.mp hn with hn | hn
  · obtain ⟨n', hn', hpair⟩ := h n hn
    exact ⟨n', List.mem_append_left _ hn', hpair⟩
  · obtain ⟨n', hn', hpair⟩ := h' n hn
    exact ⟨n', List.mem_append_right _ hn', hpair⟩

theorem finds_ite {c : Prop} [Decidable c] {ns ns' : List Finding} (h : K.Finds ns ns') :
    K.Finds (if c then ns else []) (if c then ns' else []) := by
  split
  · exact h
  · exact finds_nil

variable (K) in
/-- Every fact handed over has a counterpart that is handed over at all the statements `N`. -/
def HandsOver (N : List StmtId) (hs hs' : List (StmtId × Fact)) : Prop :=
  ∀ h ∈ hs, ∃ g, K.Facts h.2 g ∧ ∀ n ∈ N, (n, g) ∈ hs'

theorem handsOver_nil {N : List StmtId} {hs : List (StmtId × Fact)} : K.HandsOver N [] hs := nofun

theorem handsOver_ite {N : List StmtId} {c : Prop} [Decidable c] {hs hs' : List (StmtId × Fact)}
    (h : K.HandsOver N hs hs') : K.HandsOver N (if c then hs else []) (if c then hs' else []) := by
  split
  · exact h
  · exact handsOver_nil

theorem handsOver_map {N l : List StmtId} (h : K.Facts f g) :
    K.HandsOver N (l.map fun p => (p, f)) (N.map fun p => (p, g)) := by
  intro p hp
  obtain ⟨n, -, rfl⟩ := List.mem_map.mp hp
  exact ⟨g, h, fun n hn => List.mem_map_of_mem hn⟩

variable (K) in
/-- What a reaction may hold whose counterpart is `r`. What is handed over has to be handed over at
all the statements `N` on the other side. -/
def mirror (N : List StmtId) (r : Reaction) : Reaction.Allowed where
  facts f := ∃ g ∈ r.facts, K.Facts f g
  handed h := ∃ g, K.Facts h.2 g ∧ ∀ n ∈ N, (n, g) ∈ r.handed
  findings n := ∃ n' ∈ r.findings, K.stmt n.sink n'.sink ∧ K.stmt n.source n'.source
  fault _ := True

variable (K) in
/-- Unless `r'` breaks off, everything in `r` has a counterpart in it. -/
def Mirrors (N : List StmtId) (r r' : Reaction) : Prop := r'.fault = none → r.Within (K.mirror N r')

section

open Reaction

variable {N : List StmtId} {a a' b b' r' : Reaction}

theorem mirrors_empty : K.Mirrors N {} r' := fun _ => within_empty

theorem mirrors_fail (e : Fault) : K.Mirrors N (.fail e) r' := fun _ => within_fail trivial

theorem mirrors_of_fault {e : Fault} : K.Mirrors N a (.fail e) := by
  intro hfault
  cases hfault

theorem mirrors_pass {fs gs : List Fact} (h : K.Covers fs gs) :
    K.Mirrors N (.pass fs) (.pass gs) := fun _ => within_pass h

/-- What has a counterpart in a part has one in the whole. -/
theorem within_of_under (h : a.Within (K.mirror N a')) (hunder : a'.Under b') :
    a.Within (K.mirror N b') := by
  refine h.mono ?_ ?_ ?_ fun _ he => he
  · rintro f ⟨g, hg, hfg⟩
    obtain ⟨g', hg', heq⟩ := hunder.facts g hg
    refine ⟨g', hg', ?_⟩
    unfold Facts
    rw [heq]
    exact hfg
  · rintro p ⟨g, hg, hmem⟩
    exact ⟨g, hg, fun n hn => hunder.handed _ (hmem n hn)⟩
  · rintro n ⟨n', hn', hpair⟩
    exact ⟨n', hunder.findings n' hn', hpair⟩

theorem Mirrors.append (ha : K.Mirrors N a a') (hb : K.Mirrors N b b') :
    K.Mirrors N (a ++ b) (a' ++ b') := by
  intro hfault
  obtain ⟨⟨hfault₁, hunder₁⟩, hfault₂, hunder₂⟩ := under_append hfault
  exact (within_of_under (ha hfault₁) hunder₁).append (within_of_under (hb hfault₂) hunder₂)

theorem mirrors_sequence {rs rs' : List Reaction} (h : ∀ r ∈ rs, ∃ r' ∈ rs', K.Mirrors N r r') :
    K.Mirrors N (sequence rs) (sequence rs') := by
  intro hfault
  apply within_sequence
  intro r hr
  obtain ⟨r', hr', hmirrors⟩ := h r hr
  obtain ⟨hfault', hunder⟩ := under_sequence hfault hr'
  exact within_of_under (hmirrors hfault') hunder

theorem mirrors_of_parts {fs gs : List Fact} {hs hs' : List (StmtId × Fact)} {ns ns' : List Finding}
    (hfacts : K.Covers fs gs) (hhanded : K.HandsOver N hs hs') (hfindings : K.Finds ns ns') :
    K.Mirrors N { facts := fs, handed := hs, findings := ns }
      { facts := gs, handed := hs', findings := ns' } :=
  fun _ => ⟨hfacts, hhanded, hfindings, nofun⟩

end

end Correspondence

end TaintFlow
