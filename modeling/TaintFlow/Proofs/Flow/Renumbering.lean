import TaintFlow.Proofs.Flow.Twin
import TaintFlow.Proofs.Program.Insertion

/-!
# New numbers for old statements

After an insertion the old statements have new numbers, and facts mention statements by number:
where they come from, and what activates them. The two analyses are twins in both directions, for
the old one as much as for the new one.
-/

namespace TaintFlow

open Correspondence

/-- The taint with the statements that it mentions renumbered. -/
def Taint.renumber (ρ : StmtId → StmtId) (t : Taint) : Taint :=
  { t with source := ρ t.source, unit := t.unit.map ρ, level := t.level.map ρ }

/-- The edge with all statements renumbered. -/
def Tabulation.Edge.renumber (ρ : StmtId → StmtId) (e : Edge Fact Taint) : Edge Fact Taint where
  context := e.context.renumber ρ
  node := ρ e.node
  fact := { e.fact with taint := e.fact.taint.renumber ρ }

/-- Statements correspond to their new numbers. -/
def renumbering (ρ : StmtId → StmtId) : Correspondence where
  stmt s s' := s' = ρ s
  path := Eq

/-- The correspondence read the other way. -/
def Correspondence.converse (K : Correspondence) : Correspondence where
  stmt s s' := K.stmt s' s
  path p q := K.path q p

theorem rel_renumbering {ρ : StmtId → StmtId} {a b : Option StmtId} :
    Option.Rel (renumbering ρ).stmt a b ↔ b = a.map ρ := by
  constructor
  · intro h
    cases h with
    | none => rfl
    | some hs => exact congrArg some hs
  · rintro rfl
    cases a with
    | none => exact .none
    | some s => exact .some rfl

theorem taints_renumbering {ρ : StmtId → StmtId} {t u : Taint} :
    (renumbering ρ).Taints t u ↔ u = t.renumber ρ := by
  constructor
  · intro h
    obtain ⟨path, source, origin, active, unit, level, thrown⟩ := u
    obtain ⟨hpath, hsource, horigin, hactive, hunit, hlevel, hthrown⟩ := h
    cases hpath
    cases hsource
    cases horigin
    cases hactive
    cases rel_renumbering.mp hunit
    cases rel_renumbering.mp hlevel
    cases hthrown
    rfl
  · rintro rfl
    exact ⟨rfl, rfl, rfl, rfl, rel_renumbering.mpr rfl, rel_renumbering.mpr rfl, rfl⟩

theorem rel_converse {K : Correspondence} {a b : Option StmtId} :
    Option.Rel K.converse.stmt a b ↔ Option.Rel K.stmt b a := by
  constructor
  · intro h
    cases h with
    | none => exact .none
    | some hs => exact .some hs
  · intro h
    cases h with
    | none => exact .none
    | some hs => exact .some hs

theorem taints_converse {K : Correspondence} {t u : Taint} :
    K.converse.Taints t u ↔ K.Taints u t := by
  constructor
  · rintro ⟨hpath, hsource, horigin, hactive, hunit, hlevel, hthrown⟩
    exact ⟨hpath, hsource, horigin.symm, hactive.symm, rel_converse.mp hunit,
      rel_converse.mp hlevel, hthrown.symm⟩
  · rintro ⟨hpath, hsource, horigin, hactive, hunit, hlevel, hthrown⟩
    exact ⟨hpath, hsource, horigin.symm, hactive.symm, rel_converse.mpr hunit,
      rel_converse.mpr hlevel, hthrown.symm⟩

theorem taints_renumbering_converse {ρ : StmtId → StmtId} {t u : Taint} :
    (renumbering ρ).converse.Taints t u ↔ t = u.renumber ρ := by
  rw [taints_converse, taints_renumbering]

/-- Where paths correspond only to themselves, lawfulness is about statements alone. -/
theorem lawful_of_path {K : Correspondence} (hpath : ∀ {p q}, K.path p q ↔ p = q) {most : Nat}
    (unique : ∀ {s s' t t'}, K.stmt s s' → K.stmt t t' → (s' = t' ↔ s = t))
    (synthetic : K.stmt .synthetic .synthetic) : K.Lawful most most where
  unique := unique
  synthetic := synthetic
  alike h := by
    rw [hpath.mp h]
    exact ⟨rfl, rfl⟩
  functional h h' := (hpath.mp h).symm.trans (hpath.mp h')
  short _ := hpath.mpr rfl
  moved h _ _ := by
    rw [hpath.mp h]
    exact hpath.mpr rfl
  swapped h _ _ := by
    rw [hpath.mp h]
    exact hpath.mpr rfl

/-! ## Twins -/

namespace Insertion

variable (I : Insertion)

/-- The analysis `y` is the analysis `x` of the program with the new statement. -/
structure InsertsInto (x y : Setup) : Prop where
  program : I.Inserts x.program y.program
  settings : y.settings = x.settings
  isSource : ∀ {s a}, x.program.stmt? s = some a →
    y.isSource { a with id := I.renumber s } = x.isSource a
  isSink : ∀ {s a}, x.program.stmt? s = some a →
    y.isSink { a with id := I.renumber s } = x.isSink a
  library : Option.Rel (fun L L' => ∀ {s a}, x.program.stmt? s = some a →
    L'.isExclusive { a with id := I.renumber s } = L.isExclusive a ∧
      L'.derived { a with id := I.renumber s } = L.derived a) x.library y.library
  native : x.native = .conservative ∧ y.native = .conservative

variable {I} {x y : Setup}

theorem lawful_renumbering (h : I.Inserts x.program y.program) {most : Nat} :
    (renumbering I.renumber).Lawful most most := by
  refine lawful_of_path Iff.rfl ?_ h.synthetic.symm
  rintro s _ t _ rfl rfl
  exact h.renumber_inj

theorem lawful_converse (h : I.Inserts x.program y.program) {most : Nat} :
    (renumbering I.renumber).converse.Lawful most most := by
  refine lawful_of_path eq_comm ?_ h.synthetic.symm
  rintro _ s _ t rfl rfl
  exact h.renumber_inj.symm

/-- A statement that corresponds to an old one is that statement under its new number. -/
theorem stmts_renumbering (hp : x.program.Built) {s : StmtId} {a b : Stmt}
    (ha : x.program.stmt? s = some a) (hab : (renumbering I.renumber).Stmts a b) :
    b = { a with id := I.renumber s } := by
  obtain ⟨id, method, action⟩ := b
  obtain ⟨hid, hmethod, haction⟩ := hab
  cases hid
  cases hmethod
  cases haction
  rw [hp.id_eq ha]

theorem stmts_converse (h : I.Inserts x.program y.program) (hp : x.program.Built)
    (hp' : y.program.Built) {s : StmtId} {a b : Stmt} (hb : y.program.stmt? s = some b)
    (hba : (renumbering I.renumber).converse.Stmts b a) :
    x.program.stmt? a.id = some a ∧ b = { a with id := I.renumber a.id } := by
  obtain ⟨hid, hmethod, haction⟩ := hba
  have hs : s = I.renumber a.id := (hp'.id_eq hb).symm.trans hid
  rw [hs, h.stmts] at hb
  obtain ⟨a', ha', rfl⟩ := Option.map_eq_some_iff.mp hb
  -- numbers are given once, so the statement of `x` is the one that was asked for
  have heq : a' = a := by
    obtain ⟨id, method, action⟩ := a
    obtain ⟨id', method', action'⟩ := a'
    cases hp.id_eq ha'
    cases hmethod
    cases haction
    rfl
  rw [heq] at ha' ⊢
  exact ⟨ha', rfl⟩

theorem rel_headed (h : I.Inserts x.program y.program) (m : MethodId) :
    Option.Rel Method.Headed (x.program.method? m) (y.program.method? m) ∧
      Option.Rel Method.Headed (y.program.method? m) (x.program.method? m) := by
  rw [h.method?]
  cases x.program.method? m with
  | none => exact ⟨.none, .none⟩
  | some method =>
    have hconcrete : Method.isConcrete { method with body := method.body.flatMap I.beside } =
        method.isConcrete := by
      unfold Method.isConcrete
      rw [Inserts.isEmpty_flatMap_beside]
    exact ⟨.some ⟨rfl, rfl, rfl, rfl, rfl, hconcrete⟩,
      .some ⟨rfl, rfl, rfl, rfl, rfl, hconcrete.symm⟩⟩

/-- Every local that a method returns in `x` it returns in `y`, if no statement that returns one is
replaced as an exit. -/
theorem returnedLocals_of_insertion (h : I.Inserts x.program y.program) (hp : x.program.Built)
    (hp' : y.program.Built) (hquiet : I.side = .backward → ∀ a,
      x.program.stmt? I.anchor = some a → a.IsQuiet .forward) {m : MethodId} {l : Local} :
    l ∈ Backward.returnedLocals y m ↔ l ∈ Backward.returnedLocals x m := by
  have hexits : ∀ e', e' ∈ y.program.exitsOf m ↔
      ∃ e ∈ x.program.exitsOf m, e' = I.front .backward e :=
    fun e' => h.mem_startsOf hp hp' (d := .backward)
  simp only [Backward.mem_returnedLocals, hexits]
  constructor
  -- an exit of the new program is the new statement or a renumbered exit
  · rintro ⟨_, ⟨e, he, rfl⟩, b, hb, haction⟩
    unfold front at hb
    split at hb
    · -- the new statement returns nothing
      obtain ⟨a, -, hnop⟩ := h.added
      cases hnop.symm.trans hb
      cases haction
    · rw [h.stmts] at hb
      obtain ⟨a, ha, rfl⟩ := Option.map_eq_some_iff.mp hb
      exact ⟨e, he, a, ha, haction⟩
  · rintro ⟨e, he, a, ha, haction⟩
    refine ⟨_, ⟨e, he, rfl⟩, { a with id := I.renumber e }, ?_, haction⟩
    unfold front
    split
    -- the exit that is replaced was assumed to return no local
    · next hat =>
      rw [hat.2] at ha
      exact absurd haction (hquiet hat.1.symm a ha _)
    · rw [h.stmts, ha]
      rfl

theorem InsertsInto.most_eq (h : I.InsertsInto x y) : y.most = x.most := by
  unfold Setup.most
  rw [h.settings]

section

variable (h : I.InsertsInto x y) (hp : x.program.Built) (hp' : y.program.Built)
  (hquiet : I.side = .backward → ∀ a, x.program.stmt? I.anchor = some a → a.IsQuiet .forward)

include h hp hp' hquiet

theorem InsertsInto.twin : x.Twin (renumbering I.renumber) y := by
  refine ⟨?_, ?_, hp'.id_eq, fun m => (rel_headed h.program m).1, ?_,
    h.program.methodBySignature?, ?_, ?_, ?_, ?_, ?_⟩
  · rw [h.most_eq]
    exact lawful_renumbering h.program
  · rintro s _ a rfl ha
    refine ⟨{ a with id := I.renumber s }, ?_, ?_, rfl, rfl⟩
    · rw [h.program.stmts, ha]
      rfl
    · rw [hp.id_eq ha]
      rfl
  · rintro s _ rfl
    exact h.program.callees s
  · intro m l
    exact (returnedLocals_of_insertion h.program hp hp' hquiet).mpr
  · intro s a b ha hab
    rw [stmts_renumbering hp ha hab]
    exact h.isSource ha
  · intro s a b ha hab
    rw [stmts_renumbering hp ha hab]
    exact h.isSink ha
  · rw [h.settings]
  · have hlibrary := h.library
    generalize x.library = L at hlibrary ⊢
    generalize y.library = L' at hlibrary ⊢
    cases hlibrary with
    | none => exact .none
    | some hL =>
      refine .some ?_
      rintro s a b p _ ha hab rfl
      obtain ⟨hexclusive, hderived⟩ := hL ha
      rw [stmts_renumbering hp ha hab, hexclusive, hderived]
      exact ⟨rfl, fun r hr => ⟨r, hr, rfl⟩⟩

theorem InsertsInto.twin_converse : y.Twin (renumbering I.renumber).converse x := by
  refine ⟨?_, ?_, hp.id_eq, fun m => (rel_headed h.program m).2, ?_,
    h.program.methodBySignature?.symm, ?_, ?_, ?_, ?_, ?_⟩
  · rw [h.most_eq]
    exact lawful_converse h.program
  · rintro _ s b rfl hb
    rw [h.program.stmts] at hb
    obtain ⟨a, ha, rfl⟩ := Option.map_eq_some_iff.mp hb
    refine ⟨a, ha, ?_, rfl, rfl⟩
    rw [hp.id_eq ha]
    rfl
  · rintro _ s rfl
    exact (h.program.callees s).symm
  · intro m l
    exact (returnedLocals_of_insertion h.program hp hp' hquiet).mp
  · intro s b a hb hba
    obtain ⟨ha, rfl⟩ := stmts_converse h.program hp hp' hb hba
    exact (h.isSource ha).symm
  · intro s b a hb hba
    obtain ⟨ha, rfl⟩ := stmts_converse h.program hp hp' hb hba
    exact (h.isSink ha).symm
  · rw [h.settings]
  · have hlibrary := h.library
    generalize x.library = L at hlibrary ⊢
    generalize y.library = L' at hlibrary ⊢
    cases hlibrary with
    | none => exact .none
    | some hL =>
      refine .some ?_
      rintro s b a p _ hb hba rfl
      obtain ⟨ha, rfl⟩ := stmts_converse h.program hp hp' hb hba
      obtain ⟨hexclusive, hderived⟩ := hL ha
      rw [hexclusive, hderived]
      exact ⟨rfl, fun r hr => ⟨r, hr, rfl⟩⟩

end

/-! ## Analyses that go by signatures -/

theorem ownerIn_renumber (h : I.Inserts x.program y.program) (methods : List Signature) (a : Stmt)
    (s : StmtId) : MethodLists.ownerIn methods y.program { a with id := s } =
      MethodLists.ownerIn methods x.program a := by
  unfold MethodLists.ownerIn
  rw [h.method?, Option.any_map]

/-- Lists of methods know statements by what they do, and not by their numbers. -/
theorem insertsInto_of_lists (h : I.Inserts x.program y.program)
    (hsettings : y.settings = x.settings) {lists : MethodLists}
    (hx : x.classifier = lists.classifier) (hy : y.classifier = lists.classifier)
    (hlibrary : x.library = none ∧ y.library = none ∨
      ∃ w : ListedMethods, x.library = some w.model ∧ y.library = some w.model)
    (hnative : x.native = .conservative ∧ y.native = .conservative) : I.InsertsInto x y := by
  refine ⟨h, hsettings, ?_, ?_, ?_, hnative⟩
  -- what the lists look at is the call and the owner, and the new number changes neither
  · intro s a _
    unfold Setup.isSource
    rw [hx, hy]
    change lists.isSource _ _ = lists.isSource _ _
    unfold MethodLists.isSource
    dsimp only
    split
    · rfl
    · exact ownerIn_renumber h _ a _
    · rfl
  · intro s a _
    unfold Setup.isSink
    rw [hx, hy]
    change lists.isSink _ _ = lists.isSink _ _
    unfold MethodLists.isSink
    rw [show Stmt.call? { a with id := I.renumber s } = a.call? from rfl]
    split
    · rfl
    · dsimp only
      split
      · exact ownerIn_renumber h _ a _
      · rfl
  · rcases hlibrary with ⟨hxl, hyl⟩ | ⟨w, hxl, hyl⟩
    · rw [hxl, hyl]
      exact .none
    · rw [hxl, hyl]
      exact .some fun _ => ⟨rfl, rfl⟩

end Insertion

end TaintFlow
