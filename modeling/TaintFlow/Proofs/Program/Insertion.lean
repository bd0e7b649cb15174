import TaintFlow.Proofs.Program.Mentions

/-!
# Inserting a statement

A statement that does nothing can be put before another one, where it takes over some of the edges
into it, or after a last one. In the direction of control flow the first is what the second is
against it, so both are one `Insertion`, with the direction in which the new statement comes first.
All other statements keep what they are and get new numbers.
-/

namespace TaintFlow

/-- A new statement beside another one, the anchor: before it if `side` is forward, after it if
`side` is backward. -/
structure Insertion where
  side : Direction
  anchor : StmtId
  nop : StmtId
  /-- The new numbers of the old statements. -/
  renumber : StmtId → StmtId

namespace Insertion

variable (I : Insertion)

/-- What stands in a body in place of an old statement. -/
def beside (s : StmtId) : List StmtId :=
  if s = I.anchor then
    match I.side with
    | .forward => [I.nop, I.renumber s]
    | .backward => [I.renumber s, I.nop]
  else [I.renumber s]

/-- The first that stands in place of an old statement, seen in the direction `d`. -/
def front (d : Direction) (s : StmtId) : StmtId :=
  if d = I.side ∧ s = I.anchor then I.nop else I.renumber s

/-- `p'` is `p` with the new statement. -/
structure Inserts (p p' : Program) : Prop where
  injective : Function.Injective I.renumber
  synthetic : I.renumber .synthetic = .synthetic
  fresh : ∀ s, I.renumber s ≠ I.nop
  methods : p'.methods = p.methods.map fun m => { m with body := m.body.flatMap I.beside }
  stmts : ∀ s, p'.stmt? (I.renumber s) = (p.stmt? s).map fun a => { a with id := I.renumber s }
  added : ∃ a, p.stmt? I.anchor = some a ∧ p'.stmt? I.nop = some ⟨I.nop, a.method, .nop⟩
  only : ∀ {s}, p'.Has s → s = I.nop ∨ ∃ t, s = I.renumber t
  callees : ∀ s, p'.calleesOf (I.renumber s) = p.calleesOf s
  /-- The new statement leads to the anchor only. -/
  enters : ∀ {t}, t ∈ (p'.view I.side).succsOf I.nop ↔ t = I.renumber I.anchor
  /-- What leads to the new statement led to the anchor. -/
  taken : ∀ {s}, I.nop ∈ (p'.view I.side).succsOf (I.renumber s) →
    I.anchor ∈ (p.view I.side).succsOf s
  /-- All other edges stay. -/
  kept : ∀ {s t}, I.renumber t ∈ (p'.view I.side).succsOf (I.renumber s) ↔
    t ∈ (p.view I.side).succsOf s ∧
      ¬ (t = I.anchor ∧ I.nop ∈ (p'.view I.side).succsOf (I.renumber s))
  last : I.side = .backward → p.succsOf I.anchor = []

variable {I} {p p' : Program} (h : I.Inserts p p') (hp : p.Built) (hp' : p'.Built) {d : Direction}
  {s t : StmtId}

namespace Inserts

include h

theorem renumber_inj : I.renumber s = I.renumber t ↔ s = t := h.injective.eq_iff

theorem front_inj : I.front d s = I.front d t ↔ s = t := by
  unfold front
  -- the new statement is in front of the anchor only, and is no statement renumbered
  by_cases hs : d = I.side ∧ s = I.anchor <;> by_cases ht : d = I.side ∧ t = I.anchor
  · rw [if_pos hs, if_pos ht, hs.2, ht.2]
    simp
  · rw [if_pos hs, if_neg ht]
    constructor
    · intro heq
      exact absurd heq.symm (h.fresh t)
    · rintro rfl
      exact absurd hs ht
  · rw [if_neg hs, if_pos ht]
    constructor
    · intro heq
      exact absurd heq (h.fresh s)
    · rintro rfl
      exact absurd ht hs
  · rw [if_neg hs, if_neg ht, h.renumber_inj]

theorem ownerOf_renumber : p'.ownerOf (I.renumber s) = p.ownerOf s := by
  unfold Program.ownerOf
  rw [h.stmts, Option.map_map]
  rfl

theorem ownerOf_nop : p'.ownerOf I.nop = p.ownerOf I.anchor := by
  obtain ⟨a, ha, hnop⟩ := h.added
  unfold Program.ownerOf
  rw [ha, hnop]
  rfl

theorem isCall_nop : p'.isCall I.nop = false := by
  obtain ⟨a, -, hnop⟩ := h.added
  unfold Program.isCall
  rw [hnop]
  rfl

include hp' in
theorem calleesOf_nop : p'.calleesOf I.nop = [] := by
  apply List.eq_nil_iff_forall_not_mem.mpr
  intro m hm
  have hcall := hp'.isCall_of_mem_calleesOf hm
  rw [h.isCall_nop] at hcall
  cases hcall

/-! ## Edges -/

include hp' in
/-- Every edge goes to an old statement or to the new one. -/
theorem cases_succsOf {s' t' : StmtId} (ht : t' ∈ (p'.view d).succsOf s') :
    t' = I.nop ∨ ∃ t, t' = I.renumber t := h.only (hp'.has_of_mem_succsOf ht)

include hp' in
/-- Against the direction of the insertion only the anchor leads to the new statement. -/
theorem nop_mem_succsOf_opposite :
    I.nop ∈ (p'.view I.side.opposite).succsOf (I.renumber s) ↔ s = I.anchor := by
  rw [hp'.mem_succsOf_opposite, h.enters, h.renumber_inj]

include hp' in
theorem nop_not_mem_succsOf_nop : I.nop ∉ (p'.view d).succsOf I.nop := by
  have hside : I.nop ∉ (p'.view I.side).succsOf I.nop := by
    rw [h.enters]
    exact (h.fresh I.anchor).symm
  rcases Direction.eq_or_eq_opposite I.side d with rfl | rfl
  · exact hside
  · rw [hp'.mem_succsOf_opposite]
    exact hside

include hp hp'

/-- An edge between old statements was there before. -/
theorem succsOf_of_renumber (ht : I.renumber t ∈ (p'.view d).succsOf (I.renumber s)) :
    t ∈ (p.view d).succsOf s := by
  rcases Direction.eq_or_eq_opposite I.side d with rfl | rfl
  · exact (h.kept.mp ht).1
  · rw [hp'.mem_succsOf_opposite] at ht
    rw [hp.mem_succsOf_opposite]
    exact (h.kept.mp ht).1

/-- What leads through the new statement led directly. -/
theorem succsOf_of_nop (hs : I.nop ∈ (p'.view d).succsOf (I.renumber s))
    (ht : I.renumber t ∈ (p'.view d).succsOf I.nop) : t ∈ (p.view d).succsOf s := by
  rcases Direction.eq_or_eq_opposite I.side d with rfl | rfl
  · obtain rfl := h.renumber_inj.mp (h.enters.mp ht)
    exact h.taken hs
  · obtain rfl := (h.nop_mem_succsOf_opposite hp').mp hs
    rw [hp'.mem_succsOf_opposite] at ht
    rw [hp.mem_succsOf_opposite]
    exact h.taken ht

/-- An edge is still there, or leads through the new statement. -/
theorem step (ht : t ∈ (p.view d).succsOf s) :
    I.renumber t ∈ (p'.view d).succsOf (I.renumber s) ∨
    I.nop ∈ (p'.view d).succsOf (I.renumber s) ∧ I.renumber t ∈ (p'.view d).succsOf I.nop := by
  rcases Direction.eq_or_eq_opposite I.side d with rfl | rfl
  · by_cases htaken : t = I.anchor ∧ I.nop ∈ (p'.view I.side).succsOf (I.renumber s)
    · exact Or.inr ⟨htaken.2, h.enters.mpr (by rw [htaken.1])⟩
    · exact Or.inl (h.kept.mpr ⟨ht, htaken⟩)
  · rw [hp.mem_succsOf_opposite] at ht
    simp only [hp'.mem_succsOf_opposite]
    by_cases htaken : s = I.anchor ∧ I.nop ∈ (p'.view I.side).succsOf (I.renumber t)
    · exact Or.inr ⟨h.enters.mpr (by rw [htaken.1]), htaken.2⟩
    · exact Or.inl (h.kept.mpr ⟨ht, htaken⟩)

/-- A statement other than the anchor still ends a body if it did. -/
theorem succsOf_eq_nil (hnot : ¬ (d.opposite = I.side ∧ s = I.anchor)) :
    (p'.view d).succsOf (I.renumber s) = [] ↔ (p.view d).succsOf s = [] := by
  simp only [List.eq_nil_iff_forall_not_mem]
  constructor
  · intro hnone t ht
    rcases h.step hp hp' ht with ht | ⟨ht, -⟩
    · exact hnone _ ht
    · exact hnone _ ht
  · intro hnone t' ht'
    -- a successor of the new program is the new statement, which has one of its own, or an old one
    rcases h.cases_succsOf hp' ht' with rfl | ⟨t, rfl⟩
    · rcases Direction.eq_or_eq_opposite I.side d with rfl | rfl
      · exact hnone _ (h.taken ht')
      · obtain rfl := (h.nop_mem_succsOf_opposite hp').mp ht'
        exact hnot ⟨Direction.opposite_opposite _, rfl⟩
    · exact hnone t (h.succsOf_of_renumber hp hp' ht')

/-- After a last statement the new one is the last. -/
theorem succsOf_nop_of_last (hside : I.side = .backward) : p'.succsOf I.nop = [] := by
  apply List.eq_nil_iff_forall_not_mem.mpr
  intro t' ht'
  have hview : t' ∈ (p'.view I.side.opposite).succsOf I.nop := by
    rw [hside]
    exact ht'
  rcases h.cases_succsOf hp' hview with rfl | ⟨t, rfl⟩
  · exact h.nop_not_mem_succsOf_nop hp' hview
  -- seen from the other side, what follows the new statement would follow the anchor
  · rw [hp'.mem_succsOf_opposite] at hview
    have hedge := h.taken hview
    rw [hside] at hedge
    have hedge' : t ∈ (p.view Direction.backward.opposite).succsOf I.anchor :=
      hp.mem_succsOf_opposite.mpr hedge
    have hnone : (p.view Direction.backward.opposite).succsOf I.anchor = [] := h.last hside
    rw [hnone] at hedge'
    cases hedge'

/-! ## Starts and exits -/

omit hp hp' in
theorem bodyOf (m : MethodId) : p'.bodyOf m = (p.bodyOf m).flatMap I.beside := by
  unfold Program.bodyOf Program.method?
  rw [h.methods, Array.getElem?_map]
  cases p.methods[m.index]? with
  | none => rfl
  | some method => rfl

omit hp hp' h in
theorem mem_beside {s' : StmtId} :
    s' ∈ I.beside s ↔ s' = I.renumber s ∨ s' = I.nop ∧ s = I.anchor := by
  unfold beside
  split
  · next hs => cases I.side <;> simp [hs, or_comm]
  · next hs => simp [hs]

omit hp hp' in
theorem front_mem_bodyOf {m : MethodId} : I.front d s ∈ p'.bodyOf m ↔ s ∈ p.bodyOf m := by
  rw [h.bodyOf, List.mem_flatMap]
  simp only [mem_beside]
  unfold front
  -- in front of the anchor stands the new statement, and it is in the body that the anchor is in
  split
  · next hat =>
    constructor
    · rintro ⟨t, ht, heq | ⟨-, rfl⟩⟩
      · exact absurd heq.symm (h.fresh t)
      · rw [hat.2]
        exact ht
    · intro hs
      exact ⟨s, hs, Or.inr ⟨rfl, hat.2⟩⟩
  · constructor
    · rintro ⟨t, ht, heq | ⟨heq, -⟩⟩
      · rw [h.renumber_inj.mp heq]
        exact ht
      · exact absurd heq (h.fresh s)
    · intro hs
      exact ⟨s, hs, Or.inl rfl⟩

omit hp hp' in
/-- A body starts with what stands in place of its first statement. -/
theorem startsOf_eq (m : MethodId) : p'.startsOf m = (p.startsOf m).map (I.front .forward) := by
  unfold Program.startsOf
  rw [h.bodyOf]
  cases p.bodyOf m with
  | nil => rfl
  | cons s rest =>
    rw [List.flatMap_cons, List.take_succ_cons, List.take_zero]
    unfold beside front
    by_cases hs : s = I.anchor
    · cases hside : I.side <;> simp [hs]
    · simp [hs]

/-- What stands in place of a statement, seen against the direction, is an exit if it was one. -/
theorem isExit_front : (p'.view d).isExit (I.front d.opposite s) = (p.view d).isExit s := by
  cases d with
  | forward =>
    change (p'.succsOf (I.front .backward s)).isEmpty = (p.succsOf s).isEmpty
    rw [Bool.eq_iff_iff, List.isEmpty_iff, List.isEmpty_iff]
    unfold front
    -- the new statement is an exit where the anchor was one; elsewhere the successors are what they
    -- were
    split
    · next hat =>
      obtain ⟨hside, rfl⟩ := hat
      rw [h.succsOf_nop_of_last hp hp' hside.symm, h.last hside.symm]
    · next hnot => exact h.succsOf_eq_nil hp hp' (d := .forward) hnot
  | backward =>
    change p'.isStart (I.front .forward s) = p.isStart s
    -- against control flow exits are starts, and these are known as a list
    have hcontains : ∀ m, (p'.startsOf m).contains (I.front .forward s) =
        (p.startsOf m).contains s := by
      intro m
      rw [Bool.eq_iff_iff, List.contains_iff_mem, List.contains_iff_mem, h.startsOf_eq,
        List.mem_map]
      simp [h.front_inj]
    unfold Program.isStart
    simp only [hcontains]
    unfold front
    split
    · next hat =>
      obtain ⟨a, ha, hnop⟩ := h.added
      rw [hnop, hat.2, ha]
      rfl
    · rw [h.stmts]
      cases p.stmt? s <;> rfl

omit hp in
/-- Every exit stands in place of an old statement. -/
theorem exists_of_isExit {s' : StmtId} (hknown : p'.Has s') (hexit : (p'.view d).isExit s' = true) :
    ∃ s, s' = I.front d.opposite s := by
  cases d with
  | forward =>
    have hnone : (p'.view .forward).succsOf s' = [] := List.isEmpty_iff.mp hexit
    change ∃ s, s' = I.front .backward s
    unfold front
    -- the new statement before its anchor has a successor, and the anchor before the new one has
    -- one
    rcases h.only hknown with rfl | ⟨s, rfl⟩
    · cases hside : I.side with
      | backward => exact ⟨I.anchor, (if_pos ⟨rfl, rfl⟩).symm⟩
      | forward =>
        have hsucc : I.renumber I.anchor ∈ (p'.view I.side).succsOf I.nop := h.enters.mpr rfl
        rw [hside, hnone] at hsucc
        cases hsucc
    · refine ⟨s, (if_neg ?_).symm⟩
      rintro ⟨hside, rfl⟩
      have hsucc := (h.nop_mem_succsOf_opposite hp').mpr (rfl : I.anchor = I.anchor)
      rw [← hside, Direction.opposite, hnone] at hsucc
      cases hsucc
  | backward =>
    obtain ⟨b, -, hstart⟩ := (Option.any_eq_true _ _).mp hexit
    rw [List.contains_iff_mem, h.startsOf_eq] at hstart
    obtain ⟨s, -, heq⟩ := List.mem_map.mp hstart
    exact ⟨s, heq.symm⟩

/-- In both views a method starts with what stands in place of its starts. -/
theorem mem_startsOf {m : MethodId} {s' : StmtId} :
    s' ∈ (p'.view d).startsOf m ↔ ∃ s ∈ (p.view d).startsOf m, s' = I.front d s := by
  cases d with
  | forward =>
    change s' ∈ p'.startsOf m ↔ ∃ s ∈ p.startsOf m, _
    rw [h.startsOf_eq, List.mem_map]
    simp only [eq_comm]
  | backward =>
    -- against control flow a body starts at its exits
    have hmem : ∀ {p : Program} {s : StmtId}, s ∈ p.exitsOf m ↔
        s ∈ p.bodyOf m ∧ (p.view .forward).isExit s = true := List.mem_filter
    change s' ∈ p'.exitsOf m ↔ ∃ s ∈ p.exitsOf m, _
    simp only [hmem]
    constructor
    · rintro ⟨hbody, hexit⟩
      obtain ⟨s, rfl⟩ := h.exists_of_isExit hp' (hp'.has_of_mem_bodyOf hbody) hexit
      rw [h.isExit_front hp hp'] at hexit
      exact ⟨s, ⟨h.front_mem_bodyOf.mp hbody, hexit⟩, rfl⟩
    · rintro ⟨s, ⟨hbody, hexit⟩, rfl⟩
      refine ⟨h.front_mem_bodyOf.mpr hbody, ?_⟩
      rw [← h.isExit_front hp hp'] at hexit
      exact hexit

/-! ## Methods and calls -/

omit hp hp' in
theorem method? (m : MethodId) : p'.method? m =
    (p.method? m).map fun method => { method with body := method.body.flatMap I.beside } := by
  unfold Program.method?
  rw [h.methods, Array.getElem?_map]

omit hp hp' in
theorem methodBySignature? : p'.methodBySignature? = p.methodBySignature? := by
  funext signature
  unfold Program.methodBySignature?
  rw [h.methods, Array.toList_map, List.findIdx?_map]
  rfl

omit hp hp' h in
theorem isEmpty_flatMap_beside (body : List StmtId) :
    (body.flatMap I.beside).isEmpty = body.isEmpty := by
  cases body with
  | nil => rfl
  | cons s rest =>
    have hmem : I.renumber s ∈ (s :: rest).flatMap I.beside :=
      List.mem_flatMap.mpr ⟨s, List.mem_cons_self .., mem_beside.mpr (Or.inl rfl)⟩
    exact List.isEmpty_eq_false_iff_exists_mem.mpr ⟨_, hmem⟩

/-- The callers of a method are what they were. -/
theorem mem_callersOf {m : MethodId} {s' : StmtId} :
    s' ∈ p'.callersOf m ↔ ∃ s ∈ p.callersOf m, s' = I.renumber s := by
  constructor
  · intro hs'
    have hcallee := hp'.mem_calleesOf_of_mem_callersOf hs'
    rcases h.only (hp'.has_of_mem_callersOf hs') with rfl | ⟨s, rfl⟩
    · rw [h.calleesOf_nop hp'] at hcallee
      cases hcallee
    · rw [h.callees] at hcallee
      exact ⟨s, hp.mem_callersOf_of_mem_calleesOf hcallee, rfl⟩
  · rintro ⟨s, hs, rfl⟩
    apply hp'.mem_callersOf_of_mem_calleesOf
    rw [h.callees]
    exact hp.mem_calleesOf_of_mem_callersOf hs

end Inserts

end Insertion

/-! ## Numbers for the new statement -/

/-- The number of a statement after another one got the number `k`. The synthetic statement keeps
its number, which is never given to another. -/
def StmtId.makeRoom (k : Nat) (s : StmtId) : StmtId where
  index :=
    if s.index < k ∨ s.index = synthetic.index then s.index
    else if s.index + 1 = synthetic.index then s.index + 2
    else s.index + 1

namespace StmtId

variable {k n : Nat} {s t : StmtId}

theorem eq_of_index (h : s.index = t.index) : s = t := by
  cases s
  cases t
  cases h
  rfl

theorem makeRoom_injective : Function.Injective (makeRoom k) := by
  intro s t h
  have hindex : (makeRoom k s).index = (makeRoom k t).index := congrArg index h
  apply eq_of_index
  unfold makeRoom at hindex
  grind

theorem makeRoom_ne (hk : k < synthetic.index) : makeRoom k s ≠ ⟨k⟩ := by
  intro h
  have hindex : (makeRoom k s).index = k := congrArg index h
  unfold makeRoom at hindex
  grind

/-- Numbers up to `n` become numbers up to `n + 1`. -/
theorem makeRoom_lt (hk : k ≤ n) (hn : n + 1 < synthetic.index) :
    (makeRoom k s).index < n + 1 ↔ s.index < n := by
  unfold makeRoom
  grind

theorem exists_makeRoom (hn : n + 1 < synthetic.index) (hs : s.index < n + 1) :
    s = ⟨k⟩ ∨ ∃ t, s = makeRoom k t := by
  rcases Nat.lt_trichotomy s.index k with hlt | heq | hgt
  · refine Or.inr ⟨s, eq_of_index ?_⟩
    unfold makeRoom
    grind
  · exact Or.inl (eq_of_index heq)
  · refine Or.inr ⟨⟨s.index - 1⟩, eq_of_index ?_⟩
    unfold makeRoom
    grind

end StmtId

namespace Insertion

/-- The new statement gets the number `k`, and those from `k` on move up. -/
def numbered (side : Direction) (anchor : StmtId) (k : Nat) : Insertion where
  side := side
  anchor := anchor
  nop := ⟨k⟩
  renumber := StmtId.makeRoom k

/-- For a numbered insertion it is enough to look at the statements that there are. -/
theorem inserts_numbered {p p' : Program} (hp : p.Built) (hp' : p'.Built) {side : Direction}
    {anchor : StmtId} {k : Nat} (hk : k ≤ p.stmts.size) (hsize : p'.stmts.size = p.stmts.size + 1)
    (hroom : p'.stmts.size < StmtId.synthetic.index)
    (hmethods : p'.methods = p.methods.map fun m =>
      { m with body := m.body.flatMap (numbered side anchor k).beside })
    (hstmts : ∀ i < p.stmts.size, p'.stmt? (StmtId.makeRoom k ⟨i⟩) =
      (p.stmt? ⟨i⟩).map fun a => { a with id := StmtId.makeRoom k ⟨i⟩ })
    (hadded : ∃ a, p.stmt? anchor = some a ∧ p'.stmt? ⟨k⟩ = some ⟨⟨k⟩, a.method, .nop⟩)
    (hcallees : ∀ i < p.stmts.size, p'.calleesOf (StmtId.makeRoom k ⟨i⟩) = p.calleesOf ⟨i⟩)
    (henters : (p'.view side).succsOf ⟨k⟩ = [StmtId.makeRoom k anchor])
    (htaken : ∀ i < p.stmts.size, ⟨k⟩ ∈ (p'.view side).succsOf (StmtId.makeRoom k ⟨i⟩) →
      anchor ∈ (p.view side).succsOf ⟨i⟩)
    (hkept : ∀ i < p.stmts.size, ∀ j < p.stmts.size,
      StmtId.makeRoom k ⟨j⟩ ∈ (p'.view side).succsOf (StmtId.makeRoom k ⟨i⟩) ↔
        ⟨j⟩ ∈ (p.view side).succsOf ⟨i⟩ ∧
          ¬ (⟨j⟩ = anchor ∧ ⟨k⟩ ∈ (p'.view side).succsOf (StmtId.makeRoom k ⟨i⟩)))
    (hlast : side = .backward → p.succsOf anchor = []) :
    (numbered side anchor k).Inserts p p' := by
  have hsynthetic : k < StmtId.synthetic.index := by omega
  have hhas : ∀ s : StmtId, p'.Has (StmtId.makeRoom k s) ↔ p.Has s := by
    intro s
    unfold Program.Has
    rw [hsize]
    exact StmtId.makeRoom_lt hk (by omega)
  -- outside the program all the lookups fail on both sides, which is what the assumptions leave
  -- open
  refine ⟨StmtId.makeRoom_injective, ?_, fun s => StmtId.makeRoom_ne hsynthetic, hmethods,
    ?_, hadded, ?_, ?_, ?_, ?_, ?_, hlast⟩
  · apply StmtId.eq_of_index
    simp [numbered, StmtId.makeRoom]
  · intro s
    by_cases hs : p.Has s
    · exact hstmts s.index hs
    · have hnone : p.stmt? s = none := Array.getElem?_eq_none (Nat.not_lt.mp hs)
      have hnone' : p'.stmt? (StmtId.makeRoom k s) = none :=
        Array.getElem?_eq_none (Nat.not_lt.mp fun hs' => hs ((hhas s).mp hs'))
      rw [hnone]
      exact hnone'
  · intro s hs
    unfold Program.Has at hs
    rw [hsize] at hs
    exact StmtId.exists_makeRoom (by omega) hs
  · intro s
    by_cases hs : p.Has s
    · exact hcallees s.index hs
    · -- what is no statement calls nothing
      have hnone : ∀ {q : Program} {u : StmtId}, q.Built → ¬ q.Has u → q.calleesOf u = [] := by
        intro q u hq hu
        apply List.eq_nil_iff_forall_not_mem.mpr
        intro m hm
        obtain ⟨a, ha, -⟩ := (Option.any_eq_true _ _).mp (hq.isCall_of_mem_calleesOf hm)
        exact hu (Program.has_of_stmt? ha)
      rw [hnone hp hs]
      exact hnone hp' fun hs' => hs ((hhas s).mp hs')
  · intro t
    change t ∈ (p'.view side).succsOf ⟨k⟩ ↔ _
    rw [henters]
    exact List.mem_singleton
  · intro s hs
    exact htaken s.index ((hhas s).mp (hp'.has_of_succsOf hs)) hs
  · intro s t
    by_cases hs : p.Has s ∧ p.Has t
    · exact hkept s.index hs.1 t.index hs.2
    · constructor
      · intro ht
        exact absurd ⟨(hhas s).mp (hp'.has_of_succsOf ht),
          (hhas t).mp (hp'.has_of_mem_succsOf ht)⟩ hs
      · rintro ⟨ht, -⟩
        exact absurd ⟨hp.has_of_succsOf ht, hp.has_of_mem_succsOf ht⟩ hs

end Insertion

end TaintFlow
