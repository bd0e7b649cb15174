import TaintFlow.Tabulation.State

/-!
# The table of a tabulation

What each update does to the four views of a state: the path edges in order, the table `holds`, and
the rows filed under start points. Updates only add (`State.Grows`), and the table stays in step
with the path edges (`State.Coherent`).
-/

namespace TaintFlow.Tabulation

namespace State

variable {φ κ : Type} [DecidableEq κ] {key : φ → κ} {s s' s'' : State φ κ}

theorem holds_iff {c : κ} {n : StmtId} {k : κ} :
    s.holds c n k = true ↔ (k, c) ∈ s.contexts.rows n := by
  unfold holds
  exact List.contains_iff_mem

theorem mem_contextsOf {c : κ} {n : StmtId} {k : κ} :
    c ∈ s.contextsOf n k ↔ s.holds c n k = true := by
  rw [holds_iff]
  unfold contextsOf
  simp only [List.mem_map, List.mem_filter, beq_iff_eq]
  constructor
  · rintro ⟨⟨k', c'⟩, ⟨hmem, rfl⟩, rfl⟩
    exact hmem
  · intro hmem
    exact ⟨(k, c), ⟨hmem, rfl⟩, rfl⟩

theorem mem_factsAt {n : StmtId} {k : κ} :
    k ∈ s.factsAt n ↔ ∃ c, s.holds c n k = true := by
  simp only [factsAt, List.mem_eraseDups, List.mem_map, Prod.exists, holds_iff]
  constructor
  · rintro ⟨k', c, hmem, rfl⟩
    exact ⟨c, hmem⟩
  · rintro ⟨c, hmem⟩
    exact ⟨k, c, hmem, rfl⟩

theorem mem_callersInto {start : StmtId} {c : κ} {call : StmtId} {k : κ} :
    (call, k) ∈ s.callersInto start c ↔ (c, call, k) ∈ s.incoming.rows start := by
  unfold callersInto
  simp only [List.mem_map, List.mem_filter, beq_iff_eq]
  constructor
  · rintro ⟨⟨c', call', k'⟩, ⟨hmem, rfl⟩, heq⟩
    cases heq
    exact hmem
  · intro hmem
    exact ⟨(c, call, k), ⟨hmem, rfl⟩, rfl⟩

/-- The facts before one of the calls that brought `c` to `start`. -/
theorem mem_factsInto {start : StmtId} {c : κ} {call : StmtId} {k : κ} :
    k ∈ ((s.callersInto start c).filter (·.1 == call)).map Prod.snd ↔
      (c, call, k) ∈ s.incoming.rows start := by
  simp only [List.mem_map, List.mem_filter, beq_iff_eq]
  constructor
  · rintro ⟨⟨call', k'⟩, ⟨hmem, rfl⟩, rfl⟩
    exact mem_callersInto.mp hmem
  · intro hrow
    exact ⟨(call, k), ⟨mem_callersInto.mpr hrow, rfl⟩, rfl⟩

theorem mem_callsInto {start : StmtId} {c : κ} {call : StmtId} :
    call ∈ ((s.callersInto start c).map Prod.fst).eraseDups ↔
      ∃ k, (c, call, k) ∈ s.incoming.rows start := by
  simp only [List.mem_eraseDups, List.mem_map, Prod.exists, exists_and_right, exists_eq_right,
    mem_callersInto]

theorem mem_summariesOf {start : StmtId} {c : κ} {exit : StmtId} {f : φ} :
    (exit, f) ∈ s.summariesOf start c ↔ (c, exit, f) ∈ s.summaries.rows start := by
  unfold summariesOf
  simp only [List.mem_map, List.mem_filter, beq_iff_eq]
  constructor
  · rintro ⟨⟨c', exit', f'⟩, ⟨hmem, rfl⟩, heq⟩
    cases heq
    exact hmem
  · intro hmem
    exact ⟨(c, exit, f), ⟨hmem, rfl⟩, rfl⟩

/-! ## Growth -/

/-- Everything filed in `s` is still there in `s'`, and nothing was taken from the worklist or the
inbox. -/
structure Grows (s s' : State φ κ) : Prop where
  processed : s'.processed = s.processed
  inbox : s'.inbox = s.inbox
  edges : s.edges.toList <+: s'.edges.toList
  holds : ∀ {c n k}, s.holds c n k = true → s'.holds c n k = true
  incoming : ∀ {start r}, r ∈ s.incoming.rows start → r ∈ s'.incoming.rows start
  summaries : ∀ {start r}, r ∈ s.summaries.rows start → r ∈ s'.summaries.rows start

theorem Grows.refl (s : State φ κ) : s.Grows s :=
  ⟨rfl, rfl, List.prefix_refl _, id, id, id⟩

theorem Grows.trans (h : s.Grows s') (h' : s'.Grows s'') : s.Grows s'' where
  processed := h'.processed.trans h.processed
  inbox := h'.inbox.trans h.inbox
  edges := h.edges.trans h'.edges
  holds hold := h'.holds (h.holds hold)
  incoming hold := h'.incoming (h.incoming hold)
  summaries hold := h'.summaries (h.summaries hold)

theorem Grows.mem_edges (h : s.Grows s') {e : Edge φ κ} (he : e ∈ s.edges) : e ∈ s'.edges := by
  rw [← Array.mem_toList_iff] at he ⊢
  exact h.edges.subset he

/-! ## Recording a path edge -/

theorem holds_propagate {c n f c' n' k'} :
    (s.propagate key c n f).holds c' n' k' = true ↔
      s.holds c' n' k' = true ∨ (c' = c ∧ n' = n ∧ k' = key f) := by
  unfold propagate
  -- an edge that is there is not recorded again, and a new one is a row of its node only
  split
  · next hold =>
    constructor
    · exact Or.inl
    · rintro (h | ⟨rfl, rfl, rfl⟩)
      · exact h
      · exact hold
  · rw [holds_iff, holds_iff]
    simp only [Index.rows_add]
    split
    · next hn =>
      simp only [List.mem_cons, Prod.mk.injEq]
      constructor
      · rintro (⟨hk, hc⟩ | h)
        · exact Or.inr ⟨hc, hn, hk⟩
        · exact Or.inl h
      · rintro (h | ⟨hc, -, hk⟩)
        · exact Or.inr h
        · exact Or.inl ⟨hk, hc⟩
    · next hn =>
      constructor
      · exact Or.inl
      · rintro (h | ⟨-, hn', -⟩)
        · exact h
        · exact absurd hn' hn

theorem mem_edges_propagate {c n f} {e : Edge φ κ} :
    e ∈ (s.propagate key c n f).edges ↔
      e ∈ s.edges ∨ (s.holds c n (key f) = false ∧ e = ⟨c, n, f⟩) := by
  unfold propagate
  split
  · next hold => simp [hold]
  · next hold => simp [hold]

theorem grows_propagate (c : κ) (n : StmtId) (f : φ) : s.Grows (s.propagate key c n f) where
  processed := by unfold propagate; split <;> rfl
  inbox := by unfold propagate; split <;> rfl
  edges := by
    unfold propagate
    split
    · exact List.prefix_refl _
    · simp
  holds hold := holds_propagate.mpr (Or.inl hold)
  incoming hold := by unfold propagate; split <;> exact hold
  summaries hold := by unfold propagate; split <;> exact hold

@[simp] theorem incoming_propagate (c : κ) (n : StmtId) (f : φ) :
    (s.propagate key c n f).incoming = s.incoming := by
  unfold propagate
  split <;> rfl

@[simp] theorem summaries_propagate (c : κ) (n : StmtId) (f : φ) :
    (s.propagate key c n f).summaries = s.summaries := by
  unfold propagate
  split <;> rfl

/-! ## Filing callers and summaries -/

theorem mem_rows_addCaller {start c call k start'} {r : κ × StmtId × κ} :
    r ∈ (s.addCaller start c call k).incoming.rows start' ↔
      r ∈ s.incoming.rows start' ∨ (start' = start ∧ r = (c, call, k)) := by
  unfold addCaller
  -- a row is added once, and only to its own start point
  split
  · next hold =>
    rw [List.contains_iff_mem] at hold
    constructor
    · exact Or.inl
    · rintro (h | ⟨rfl, rfl⟩)
      · exact h
      · exact hold
  · simp only [Index.rows_add]
    split
    · next hs =>
      rw [List.mem_cons]
      constructor
      · rintro (h | h)
        · exact Or.inr ⟨hs, h⟩
        · exact Or.inl h
      · rintro (h | ⟨-, h⟩)
        · exact Or.inr h
        · exact Or.inl h
    · next hs => simp [hs]

theorem grows_addCaller (start : StmtId) (c : κ) (call : StmtId) (k : κ) :
    s.Grows (s.addCaller start c call k) where
  processed := by unfold addCaller; split <;> rfl
  inbox := by unfold addCaller; split <;> rfl
  edges := by unfold addCaller; split <;> exact List.prefix_refl _
  holds hold := by unfold addCaller; split <;> exact hold
  incoming hold := mem_rows_addCaller.mpr (Or.inl hold)
  summaries hold := by unfold addCaller; split <;> exact hold

@[simp] theorem edges_addCaller (start : StmtId) (c : κ) (call : StmtId) (k : κ) :
    (s.addCaller start c call k).edges = s.edges := by
  unfold addCaller
  split <;> rfl

@[simp] theorem holds_addCaller (start : StmtId) (c : κ) (call : StmtId) (k : κ) (c' n' k') :
    (s.addCaller start c call k).holds c' n' k' = s.holds c' n' k' := by
  unfold addCaller
  split <;> rfl

@[simp] theorem summaries_addCaller (start : StmtId) (c : κ) (call : StmtId) (k : κ) :
    (s.addCaller start c call k).summaries = s.summaries := by
  unfold addCaller
  split <;> rfl

theorem any_summariesOf {start : StmtId} {c : κ} {exit : StmtId} {k : κ} :
    (s.summariesOf start c).any (fun r => r.1 == exit && key r.2 == k) = true ↔
      ∃ g, (c, exit, g) ∈ s.summaries.rows start ∧ key g = k := by
  simp only [List.any_eq_true, Prod.exists, mem_summariesOf, Bool.and_eq_true, beq_iff_eq]
  constructor
  · rintro ⟨_, g, hmem, rfl, hk⟩
    exact ⟨g, hmem, hk⟩
  · rintro ⟨g, hmem, hk⟩
    exact ⟨exit, g, hmem, rfl, hk⟩

/-- A summary is filed unless one for the same exit and an equal fact is there already. -/
theorem mem_rows_addSummary {start c exit f start'} {r : κ × StmtId × φ} :
    r ∈ (s.addSummary key start c exit f).summaries.rows start' ↔
      r ∈ s.summaries.rows start' ∨ (start' = start ∧ r = (c, exit, f) ∧
        ∀ g, (c, exit, g) ∈ s.summaries.rows start → key g ≠ key f) := by
  unfold addSummary
  -- a summary counts as filed if the facts are equal up to what the key leaves out
  split
  · next h =>
    obtain ⟨g, hmem, hk⟩ := any_summariesOf.mp h
    constructor
    · exact Or.inl
    · rintro (hr | ⟨-, -, hnone⟩)
      · exact hr
      · exact absurd hk (hnone g hmem)
  · next h =>
    have hnone : ∀ g, (c, exit, g) ∈ s.summaries.rows start → key g ≠ key f := by
      intro g hmem hk
      exact h (any_summariesOf.mpr ⟨g, hmem, hk⟩)
    simp only [Index.rows_add]
    split
    · next hs =>
      rw [List.mem_cons]
      constructor
      · rintro (hr | hr)
        · exact Or.inr ⟨hs, hr, hnone⟩
        · exact Or.inl hr
      · rintro (hr | ⟨-, hr, -⟩)
        · exact Or.inr hr
        · exact Or.inl hr
    · next hs => simp [hs]

theorem grows_addSummary (start : StmtId) (c : κ) (exit : StmtId) (f : φ) :
    s.Grows (s.addSummary key start c exit f) where
  processed := by unfold addSummary; split <;> rfl
  inbox := by unfold addSummary; split <;> rfl
  edges := by unfold addSummary; split <;> exact List.prefix_refl _
  holds hold := by unfold addSummary; split <;> exact hold
  incoming hold := by unfold addSummary; split <;> exact hold
  summaries hold := mem_rows_addSummary.mpr (Or.inl hold)

@[simp] theorem edges_addSummary (start : StmtId) (c : κ) (exit : StmtId) (f : φ) :
    (s.addSummary key start c exit f).edges = s.edges := by
  unfold addSummary
  split <;> rfl

@[simp] theorem holds_addSummary (start : StmtId) (c : κ) (exit : StmtId) (f : φ) (c' n' k') :
    (s.addSummary key start c exit f).holds c' n' k' = s.holds c' n' k' := by
  unfold addSummary
  split <;> rfl

@[simp] theorem incoming_addSummary (start : StmtId) (c : κ) (exit : StmtId) (f : φ) :
    (s.addSummary key start c exit f).incoming = s.incoming := by
  unfold addSummary
  split <;> rfl

/-! ## The table and the path edges -/

/-- The table holds what the path edges say, and says it once. -/
structure Coherent (key : φ → κ) (s : State φ κ) : Prop where
  holds_iff : ∀ c n k, s.holds c n k = true ↔
    ∃ e ∈ s.edges, e.context = c ∧ e.node = n ∧ key e.fact = k
  unique : ∀ e ∈ s.edges, ∀ e' ∈ s.edges, e.context = e'.context → e.node = e'.node →
    key e.fact = key e'.fact → e = e'

theorem Coherent.holds_of_mem (h : s.Coherent key) {e : Edge φ κ} (he : e ∈ s.edges) :
    s.holds e.context e.node (key e.fact) = true :=
  (h.holds_iff _ _ _).mpr ⟨e, he, rfl, rfl, rfl⟩

theorem coherent_empty : Coherent key ({} : State φ κ) where
  holds_iff c n k := by
    rw [State.holds_iff]
    simp [Index.rows_empty]
  unique e he := by simp at he

/-- Coherence reads the path edges and the table and nothing else. -/
theorem Coherent.congr (h : s.Coherent key) (hedges : s'.edges = s.edges)
    (hholds : ∀ c n k, s'.holds c n k = s.holds c n k) : s'.Coherent key where
  holds_iff c n k := by
    rw [hholds, hedges]
    exact h.holds_iff c n k
  unique := by
    rw [hedges]
    exact h.unique

theorem Coherent.propagate (h : s.Coherent key) (c : κ) (n : StmtId) (f : φ) :
    (s.propagate key c n f).Coherent key where
  holds_iff c' n' k' := by
    rw [holds_propagate, h.holds_iff]
    simp only [mem_edges_propagate]
    constructor
    · rintro (⟨e, he, heq⟩ | ⟨rfl, rfl, rfl⟩)
      · exact ⟨e, Or.inl he, heq⟩
      · -- the edge is there already, or it is the one just recorded
        by_cases hold : s.holds c' n' (key f) = true
        · obtain ⟨e, he, heq⟩ := (h.holds_iff _ _ _).mp hold
          exact ⟨e, Or.inl he, heq⟩
        · rw [Bool.not_eq_true] at hold
          exact ⟨⟨c', n', f⟩, Or.inr ⟨hold, rfl⟩, rfl, rfl, rfl⟩
    · rintro ⟨e, he | ⟨-, rfl⟩, hc, hn, hk⟩
      · exact Or.inl ⟨e, he, hc, hn, hk⟩
      · exact Or.inr ⟨hc.symm, hn.symm, hk.symm⟩
  unique e he e' he' hc hn hk := by
    rw [mem_edges_propagate] at he he'
    -- of two edges with equal keys at most one is new, since the other is held already
    rcases he with he | ⟨hnew, rfl⟩ <;> rcases he' with he' | ⟨hnew', rfl⟩
    · exact h.unique e he e' he' hc hn hk
    · have hold := h.holds_of_mem he
      rw [hc, hn, hk] at hold
      exact absurd hold (by simp [hnew'])
    · have hold := h.holds_of_mem he'
      rw [← hc, ← hn, ← hk] at hold
      exact absurd hold (by simp [hnew])
    · rfl

/-! ## Recording many path edges -/

/-- Record path edges one after the other. -/
def recordAll (key : φ → κ) (s : State φ κ) (es : List (Edge φ κ)) : State φ κ :=
  es.foldl (fun s e => s.propagate key e.context e.node e.fact) s

theorem propagateAll_eq (c : κ) (n : StmtId) (fs : List φ) :
    s.propagateAll key c n fs = s.recordAll key (fs.map fun f => ⟨c, n, f⟩) := by
  unfold propagateAll recordAll
  rw [List.foldl_map]

theorem ofSeeds_eq (zero : κ) (seeds : List (StmtId × φ)) :
    ofSeeds key zero seeds = recordAll key {} (seeds.map fun (n, f) => ⟨zero, n, f⟩) := by
  unfold ofSeeds recordAll
  rw [List.foldl_map]

theorem grows_recordAll (es : List (Edge φ κ)) : s.Grows (s.recordAll key es) := by
  induction es generalizing s with
  | nil => exact .refl s
  | cons e es ih => exact (grows_propagate e.context e.node e.fact).trans ih

theorem Coherent.recordAll (h : s.Coherent key) (es : List (Edge φ κ)) :
    (s.recordAll key es).Coherent key := by
  induction es generalizing s with
  | nil => exact h
  | cons e es ih => exact ih (h.propagate e.context e.node e.fact)

theorem mem_edges_recordAll {es : List (Edge φ κ)} {e : Edge φ κ}
    (he : e ∈ (s.recordAll key es).edges) : e ∈ s.edges ∨ e ∈ es := by
  induction es generalizing s with
  | nil => exact Or.inl he
  | cons e' es ih =>
    rcases ih he with h | h
    · rcases mem_edges_propagate.mp h with h | ⟨-, rfl⟩
      · exact Or.inl h
      · exact Or.inr (List.mem_cons_self ..)
    · exact Or.inr (List.mem_cons_of_mem _ h)

theorem holds_recordAll {es : List (Edge φ κ)} {c : κ} {n : StmtId} {k : κ} :
    (s.recordAll key es).holds c n k = true ↔
      s.holds c n k = true ∨ ∃ e ∈ es, e.context = c ∧ e.node = n ∧ key e.fact = k := by
  induction es generalizing s with
  | nil => simp [recordAll]
  | cons e es ih =>
    have hcons : s.recordAll key (e :: es) =
        (s.propagate key e.context e.node e.fact).recordAll key es := rfl
    rw [hcons, ih, holds_propagate]
    simp only [List.mem_cons, exists_eq_or_imp, or_assoc, @eq_comm _ c, @eq_comm _ n, @eq_comm _ k]

@[simp] theorem incoming_recordAll (es : List (Edge φ κ)) :
    (s.recordAll key es).incoming = s.incoming := by
  induction es generalizing s with
  | nil => rfl
  | cons e es ih => exact ih.trans (incoming_propagate ..)

@[simp] theorem summaries_recordAll (es : List (Edge φ κ)) :
    (s.recordAll key es).summaries = s.summaries := by
  induction es generalizing s with
  | nil => rfl
  | cons e es ih => exact ih.trans (summaries_propagate ..)

/-! ## Draining the inbox -/

theorem propagate_injected (c : κ) (n : StmtId) (f : φ) (m : Nat) :
    ({ s with injected := m } : State φ κ).propagate key c n f =
      { s.propagate key c n f with injected := m } := by
  unfold propagate
  have hsame : ({ s with injected := m } : State φ κ).holds c n (key f) = s.holds c n (key f) := rfl
  rw [hsame]
  split <;> rfl

theorem recordAll_injected (es : List (Edge φ κ)) (m : Nat) :
    ({ s with injected := m } : State φ κ).recordAll key es =
      { s.recordAll key es with injected := m } := by
  induction es generalizing s with
  | nil => rfl
  | cons e es ih =>
    unfold recordAll at ih ⊢
    rw [List.foldl_cons, List.foldl_cons, propagate_injected]
    exact ih

theorem receive_eq (e : Edge φ κ) :
    ∃ m, s.receive key e = { s.propagate key e.context e.node e.fact with injected := m } := by
  unfold receive
  split
  · next hold =>
    refine ⟨s.injected, ?_⟩
    unfold propagate
    rw [if_pos hold]
  · exact ⟨_, rfl⟩

/-- Draining records the inbox; beyond that it only counts. -/
theorem drain_eq :
    ∃ m, s.drain key =
      { ({ s with inbox := [] } : State φ κ).recordAll key s.inbox with injected := m } := by
  -- for every state, as the ones before have changed it
  suffices fold : ∀ (es : List (Edge φ κ)) (s : State φ κ), ∃ m,
      es.foldl (fun s e => s.receive key e) s = { s.recordAll key es with injected := m } by
    exact fold s.inbox { s with inbox := [] }
  intro es
  induction es with
  | nil => exact fun s => ⟨s.injected, rfl⟩
  | cons e es ih =>
    intro s
    obtain ⟨m, hm⟩ : ∃ m, s.receive key e =
        { s.propagate key e.context e.node e.fact with injected := m } := receive_eq e
    obtain ⟨m', hm'⟩ := ih (s.receive key e)
    refine ⟨m', ?_⟩
    rw [List.foldl_cons, hm', hm, recordAll_injected]
    rfl

/-- Draining leaves the cursor where it is. -/
theorem processed_drain : (s.drain key).processed = s.processed := by
  obtain ⟨m, hm⟩ : ∃ m, s.drain key =
      { ({ s with inbox := [] } : State φ κ).recordAll key s.inbox with injected := m } := drain_eq
  rw [hm]
  exact (grows_recordAll s.inbox).processed

theorem inbox_drain : (s.drain key).inbox = [] := by
  obtain ⟨m, hm⟩ : ∃ m, s.drain key =
      { ({ s with inbox := [] } : State φ κ).recordAll key s.inbox with injected := m } := drain_eq
  rw [hm]
  exact (grows_recordAll s.inbox).inbox

end State

end TaintFlow.Tabulation
