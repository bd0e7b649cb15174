import TaintFlow.Proofs.Program.Mentions

/-!
# Straight-line programs

The simplest description: one static method, and its statements in order. Statement number `i` of
the program it builds is number `i` of the list, the method starts at the first, and a statement
that falls through is joined to the next in both directions.
-/

namespace TaintFlow

/-- One static method with this body. -/
def Description.straightLine (text : String) (body : List Action) : List Description :=
  .method text true false :: body.map (.statement ⟨0⟩)

namespace Builder

/-- The builder holds one method with this body. -/
structure Laid (b : Builder) (body : List Action) : Prop where
  methods : ∃ decl : Declaration, b.methods = #[decl] ∧ decl.isNative = false ∧
    decl.body = (List.range body.length).map StmtId.mk
  size : b.stmts.size = body.length
  stmts : ∀ (i : Nat) (a : Action), body[i]? = some a → b.stmts[i]? = some ⟨⟨i⟩, ⟨0⟩, a⟩
  edges : ∀ (i : Nat) (a : Action), body[i]? = some a → a.fallsThrough = true →
    i + 1 < body.length → (⟨i⟩, ⟨i + 1⟩) ∈ b.edges

/-- One step: a statement is appended. -/
theorem Laid.append {b : Builder} {body : List Action} (h : b.Laid body) (a : Action) :
    (b.append ⟨0⟩ a).2.Laid (body ++ [a]) := by
  obtain ⟨decl, hmethods, hnative, hbody⟩ := h.methods
  have hsize := h.size
  have hfirst : b.methods[0]? = some decl := by
    rw [hmethods]
    rfl
  have happend : (b.append ⟨0⟩ a).2 = { b with
      stmts := b.stmts.push ⟨⟨body.length⟩, ⟨0⟩, a⟩
      edges := b.edges ++ b.fallThrough decl.body ⟨body.length⟩
      methods := b.methods.setIfInBounds 0
        { decl with body := decl.body ++ [⟨body.length⟩] } } := by
    unfold Builder.append
    simp only [hfirst, hnative, hsize, Bool.false_eq_true, if_false]
  rw [happend]
  -- the body, the number of statements, the statements, and the edges between them
  refine ⟨?_, ?_, ?_, ?_⟩
  · refine ⟨{ decl with body := decl.body ++ [⟨body.length⟩] }, ?_, hnative, ?_⟩
    · simp [hmethods]
    · simp [hbody, List.range_succ]
  · simp [hsize]
  · intro i a' ha'
    rw [List.getElem?_append] at ha'
    rw [Array.getElem?_push, hsize]
    split at ha'
    · next hlt =>
      rw [if_neg (by omega)]
      exact h.stmts i a' ha'
    · next hge =>
      have hi : i = body.length := by
        have hlt := (List.getElem?_eq_some_iff.mp ha').1
        rw [List.length_singleton] at hlt
        omega
      subst hi
      rw [Nat.sub_self] at ha'
      cases ha'
      rw [if_pos rfl]
  · intro i a' ha' hfalls hlt
    rw [List.length_append, List.length_singleton] at hlt
    have hi : i < body.length := by omega
    rw [List.getElem?_append_left hi] at ha'
    apply List.mem_append.mpr
    by_cases hlast : i + 1 < body.length
    · exact Or.inl (h.edges i a' ha' hfalls hlast)
    · -- the new edge comes from what was the last statement
      have heq : body.length = i + 1 := by omega
      have hgetLast : decl.body.getLast? = some ⟨i⟩ := by
        rw [hbody, heq, List.range_succ]
        simp
      right
      unfold fallThrough
      rw [hgetLast]
      simp [h.stmts i a' ha', hfalls, heq]

theorem Laid.appendAll {b b' : Builder} {front body : List Action} (h : b.Laid front)
    (hsteps : (body.map (Description.statement ⟨0⟩)).foldlM Builder.follow b = .ok b') :
    b'.Laid (front ++ body) := by
  induction body generalizing b front with
  | nil =>
    cases hsteps
    rw [List.append_nil]
    exact h
  | cons a body ih =>
    rw [List.map_cons, List.foldlM_cons] at hsteps
    have hrest := ih (h.append a) hsteps
    rwa [List.append_assoc, List.singleton_append] at hrest

theorem laid_of_method {text : String} {b : Builder}
    (h : Builder.follow {} (.method text true false) = .ok b) : b.Laid [] := by
  obtain ⟨⟨m, b₁⟩, hdeclare, hb⟩ := exists_of_bind_eq_ok h
  cases hb
  unfold declare at hdeclare
  obtain ⟨signature, -, hdeclare⟩ := exists_of_bind_eq_ok hdeclare
  split at hdeclare
  · cases hdeclare
  · cases hdeclare
    exact ⟨⟨_, rfl, rfl, rfl⟩, rfl, nofun, nofun⟩

end Builder

open Builder

/-- The program is built from one method with this body. -/
structure Program.IsStraightLine (p : Program) (body : List Action) : Prop where
  stmts : ∀ (i : Nat) (a : Action), body[i]? = some a → p.stmt? ⟨i⟩ = some ⟨⟨i⟩, ⟨0⟩, a⟩
  falls : ∀ (i : Nat) (a : Action), body[i]? = some a → a.fallsThrough = true →
    i + 1 < body.length → ⟨i + 1⟩ ∈ p.succsOf ⟨i⟩ ∧ ⟨i⟩ ∈ p.predsOf ⟨i + 1⟩
  starts : body ≠ [] → p.startsOf ⟨0⟩ = [⟨0⟩]

theorem Program.isStraightLine_of_description {text : String} {body : List Action} {p : Program}
    (h : Program.ofDescription (Description.straightLine text body) = .ok p) :
    p.IsStraightLine body := by
  obtain ⟨b, hsteps, hbuild⟩ := exists_of_bind_eq_ok h
  unfold Description.straightLine at hsteps
  rw [List.foldlM_cons] at hsteps
  obtain ⟨b₀, hmethod, hsteps⟩ := exists_of_bind_eq_ok hsteps
  have hlaid := (laid_of_method hmethod).appendAll hsteps
  rw [List.nil_append] at hlaid
  obtain ⟨-, methods, hmethods, hpm, hstmts, hsuccs, hpreds⟩ := build_eq_ok hbuild
  refine ⟨?_, ?_, ?_⟩
  · intro i a ha
    unfold Program.stmt?
    rw [hstmts]
    exact hlaid.stmts i a ha
  · intro i a ha hfalls hlt
    have hedge := List.mem_eraseDups.mpr (hlaid.edges i a ha hfalls hlt)
    unfold Program.succsOf Program.predsOf
    rw [hsuccs, hpreds, hlaid.size]
    -- the one edge is a row of both tables
    constructor
    · refine mem_table (show i < body.length by omega) ?_
      exact List.mem_map.mpr ⟨_, List.mem_filter.mpr ⟨hedge, beq_self_eq_true i⟩, rfl⟩
    · refine mem_table hlt ?_
      exact List.mem_map.mpr ⟨_, List.mem_filter.mpr ⟨hedge, beq_self_eq_true (i + 1)⟩, rfl⟩
  -- the program has one method, whose body starts with the first statement
  · intro hne
    obtain ⟨decl, hdecl, -, hbody⟩ := hlaid.methods
    have hlength := length_of_mapM hmethods
    rw [hdecl] at hlength
    obtain ⟨method, rfl⟩ := List.length_eq_one_iff.mp hlength
    obtain ⟨decl', hdecl', hbuilt⟩ := getElem?_of_mapM hmethods (i := 0) rfl
    rw [hdecl] at hdecl'
    cases hdecl'
    obtain ⟨n, hn⟩ := Nat.exists_eq_succ_of_ne_zero (mt List.length_eq_zero_iff.mp hne)
    have hbodyOf : p.bodyOf ⟨0⟩ = (List.range body.length).map StmtId.mk := by
      unfold Program.bodyOf Program.method?
      rw [hpm, ← hbody, ← body_buildMethod hbuilt]
      rfl
    unfold Program.startsOf
    rw [hbodyOf, hn, List.range_succ_eq_map]
    rfl

end TaintFlow
