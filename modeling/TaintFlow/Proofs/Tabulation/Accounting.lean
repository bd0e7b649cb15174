import Mathlib.Data.Set.Card
import TaintFlow.Proofs.Tabulation.Closure
import TaintFlow.Proofs.Tabulation.Region
import TaintFlow.Proofs.Tabulation.Updates

/-!
# Every path edge is worked off once

A path edge may be found in many ways and in many places, and it may be handed in from outside
several times. All the same it is recorded once, scheduled once and worked off once. To say so, a
run is taken together with its history (`Problem.Traced`): the batches that were worked off and the
edges that arrived through the inbox and were new. Batches may have any size, steps may start in any
world, and edges may be handed in at any time.

In every state of such a run the books are in order (`Problem.Accounts`): the edges worked off and
the worklist are the two halves of the table, and the statistics count what they say they count.
Over a finite set of facts a solver therefore comes to an end by itself, having worked off no more
edges than there are triples of a context, a statement and a fact.
-/

namespace TaintFlow.Tabulation

variable {φ κ σ : Type} [DecidableEq κ]

namespace State

/-! ## Tables as sets -/

/-- The table of path edges. -/
def table (s : State φ κ) : Set (κ × StmtId × κ) := {t | s.holds t.1 t.2.1 t.2.2 = true}

/-- The summaries on file: a start point, a context there, an exit, and what tells the fact at the
exit from others. -/
def endings (key : φ → κ) (s : State φ κ) : Set (StmtId × κ × StmtId × κ) :=
  {t | ∃ f, (t.2.1, t.2.2.1, f) ∈ s.summaries.rows t.1 ∧ key f = t.2.2.2}

/-- The edges of the inbox that are not in the table. -/
def arrivals (key : φ → κ) (s : State φ κ) : Set (κ × StmtId × κ) :=
  {t | t ∈ s.inbox.map (Edge.triple key) ∧ t ∉ s.table}

variable {key : φ → κ} {s s' : State φ κ}

theorem table_propagate (e : Edge φ κ) :
    (s.propagate key e.context e.node e.fact).table = insert (e.triple key) s.table := by
  ext t
  show (s.propagate key e.context e.node e.fact).holds t.1 t.2.1 t.2.2 = true ↔ _
  rw [holds_propagate, Set.mem_insert_iff, or_comm, Prod.ext_iff, Prod.ext_iff]
  rfl

theorem table_receive (e : Edge φ κ) :
    (s.receive key e).table = insert (e.triple key) s.table := by
  obtain ⟨m, hm⟩ : ∃ m, s.receive key e =
      { s.propagate key e.context e.node e.fact with injected := m } := receive_eq e
  rw [hm, ← table_propagate]
  rfl

theorem endings_addSummary (start : StmtId) (c : κ) (exit : StmtId) (f : φ) :
    (s.addSummary key start c exit f).endings key =
      insert (start, c, exit, key f) (s.endings key) := by
  ext ⟨start', c', exit', k⟩
  simp only [endings, Set.mem_ofPred_eq, mem_rows_addSummary, Set.mem_insert_iff, Prod.mk.injEq]
  constructor
  · rintro ⟨g, hold | ⟨rfl, ⟨rfl, rfl, rfl⟩, -⟩, rfl⟩
    · exact Or.inr ⟨g, hold, rfl⟩
    · exact Or.inl ⟨rfl, rfl, rfl, rfl⟩
  · rintro (⟨rfl, rfl, rfl, rfl⟩ | ⟨g, hold, rfl⟩)
    · -- the summary is there already, or it is the one just filed
      by_cases hthere : ∃ g, (c', exit', g) ∈ s.summaries.rows start' ∧ key g = key f
      · obtain ⟨g, hrow, hkey⟩ := hthere
        exact ⟨g, Or.inl hrow, hkey⟩
      · refine ⟨f, Or.inr ⟨rfl, ⟨rfl, rfl, rfl⟩, ?_⟩, rfl⟩
        intro g hrow hkey
        exact hthere ⟨g, hrow, hkey⟩
    · exact ⟨g, Or.inl hold, rfl⟩

/-! ## What is filed is filed once -/

/-- The path edges are those of the table, each of them is listed once, and the summaries on file
have been counted. -/
structure Filed (key : φ → κ) (s : State φ κ) : Prop where
  coherent : s.Coherent key
  nodup : (s.edges.toList.map (Edge.triple key)).Nodup
  endings : (s.endings key).encard = s.summaryCount

namespace Filed

theorem empty : Filed key ({} : State φ κ) where
  coherent := coherent_empty
  nodup := by simp
  endings := by
    have hnone : State.endings key ({} : State φ κ) = ∅ := by
      ext t
      simp [State.endings, Index.rows_empty]
    rw [hnone]
    simp

/-- Cursor, inbox and the other counters do not matter. -/
theorem congr (h : s.Filed key) (hedges : s'.edges = s.edges) (hcontexts : s'.contexts = s.contexts)
    (hsummaries : s'.summaries = s.summaries) (hcount : s'.summaryCount = s.summaryCount) :
    s'.Filed key where
  coherent := by
    apply h.coherent.congr hedges
    intro c n k
    unfold State.holds
    rw [hcontexts]
  nodup := by
    rw [hedges]
    exact h.nodup
  endings := by
    rw [hcount, ← h.endings]
    unfold State.endings
    rw [hsummaries]

theorem propagate (h : s.Filed key) (c : κ) (n : StmtId) (f : φ) :
    (s.propagate key c n f).Filed key where
  coherent := h.coherent.propagate c n f
  nodup := h.coherent.nodup_propagate h.nodup c n f
  endings := by
    have hcount : (s.propagate key c n f).summaryCount = s.summaryCount := by
      unfold State.propagate
      split <;> rfl
    rw [hcount, ← h.endings]
    unfold State.endings
    rw [summaries_propagate]

theorem addSummary (h : s.Filed key) (start : StmtId) (c : κ) (exit : StmtId) (f : φ) :
    (s.addSummary key start c exit f).Filed key where
  coherent := h.coherent.congr (edges_addSummary ..) fun _ _ _ => holds_addSummary ..
  nodup := by
    rw [edges_addSummary]
    exact h.nodup
  endings := by
    rw [endings_addSummary]
    unfold State.addSummary
    -- the count goes up exactly when the summary was not there under its key
    split
    · next hthere =>
      have hmem : (start, c, exit, key f) ∈ s.endings key := any_summariesOf.mp hthere
      rw [Set.insert_eq_of_mem hmem]
      exact h.endings
    · next hnew =>
      have hmem : (start, c, exit, key f) ∉ s.endings key := fun h => hnew (any_summariesOf.mpr h)
      rw [Set.encard_insert_of_notMem hmem, h.endings]
      rfl

theorem builds (h : s.Filed key) (hbuilds : s.Builds key s') : s'.Filed key := by
  induction hbuilds with
  | refl => exact h
  | propagate c n f _ ih => exact ih.propagate c n f
  | addCaller start c call k _ ih =>
    unfold State.addCaller
    split
    · exact ih
    · exact ih.congr rfl rfl rfl rfl
  | addSummary start c exit f _ ih => exact ih.addSummary start c exit f
  | reuse _ ih => exact ih.congr rfl rfl rfl rfl

end Filed

/-! ## The inbox -/

/-- Receiving edges counts those that are new, each of them once. -/
theorem injected_receiveAll (es : List (Edge φ κ)) :
    ((es.foldl (fun s e => s.receive key e) s).injected : ℕ∞) =
      s.injected + {t | t ∈ es.map (Edge.triple key) ∧ t ∉ s.table}.encard := by
  -- over the edges that arrive; the table grows with each, so an edge that comes twice counts once
  induction es generalizing s with
  | nil => simp
  | cons e es ih =>
    rw [List.foldl_cons, ih, table_receive]
    by_cases hold : s.holds e.context e.node (key e.fact) = true
    · -- an edge of the table counts for nothing
      have hmem : e.triple key ∈ s.table := hold
      have hsame : {t | t ∈ (e :: es).map (Edge.triple key) ∧ t ∉ s.table} =
          {t | t ∈ es.map (Edge.triple key) ∧ t ∉ s.table} := by
        ext t
        rw [List.map_cons]
        simp only [Set.mem_ofPred_eq, List.mem_cons]
        constructor
        · rintro ⟨rfl | ht, hnew⟩
          · exact absurd hmem hnew
          · exact ⟨ht, hnew⟩
        · rintro ⟨ht, hnew⟩
          exact ⟨Or.inr ht, hnew⟩
      have hreceive : s.receive key e = s := by
        unfold receive
        rw [if_pos hold]
      rw [Set.insert_eq_of_mem hmem, hsame, hreceive]
    · -- a new edge counts now and not again
      have hmem : e.triple key ∉ s.table := hold
      have hsplit : {t | t ∈ (e :: es).map (Edge.triple key) ∧ t ∉ s.table} =
          insert (e.triple key)
            {t | t ∈ es.map (Edge.triple key) ∧ t ∉ insert (e.triple key) s.table} := by
        ext t
        rw [List.map_cons]
        simp only [Set.mem_ofPred_eq, List.mem_cons, Set.mem_insert_iff, not_or]
        constructor
        · rintro ⟨ht, hnew⟩
          by_cases hfirst : t = e.triple key
          · exact Or.inl hfirst
          · exact Or.inr ⟨ht.resolve_left hfirst, hfirst, hnew⟩
        · rintro (rfl | ⟨ht, -, hnew⟩)
          · exact ⟨Or.inl rfl, hmem⟩
          · exact ⟨Or.inr ht, hnew⟩
      have hreceive : (s.receive key e).injected = s.injected + 1 := by
        unfold receive
        rw [if_neg hold]
      rw [hreceive, hsplit, Set.encard_insert_of_notMem (by simp)]
      push_cast
      rw [add_assoc, add_comm 1]

theorem injected_drain (key : φ → κ) (s : State φ κ) :
    ((s.drain key).injected : ℕ∞) = s.injected + (s.arrivals key).encard :=
  injected_receiveAll s.inbox

/-- Draining builds from the state with its inbox emptied, up to the count of arrivals. -/
theorem drain_builds (key : φ → κ) (s : State φ κ) :
    ∃ m s', ({ s with inbox := [] } : State φ κ).Builds key s' ∧
      s.drain key = { s' with injected := m } ∧ s.arrivals key ⊆ s'.table := by
  obtain ⟨m, hm⟩ : ∃ m, s.drain key =
      { ({ s with inbox := [] } : State φ κ).recordAll key s.inbox with injected := m } := drain_eq
  refine ⟨m, _, Builds.refl.recordAll s.inbox, hm, ?_⟩
  rintro t ⟨ht, -⟩
  obtain ⟨e, he, rfl⟩ := List.mem_map.mp ht
  exact holds_recordAll.mpr (Or.inr ⟨e, he, rfl, rfl, rfl⟩)

theorem Grows.table (h : s.Grows s') : s.table ⊆ s'.table := fun _ ht => h.holds ht

end State

/-! ## Histories -/

/-- What has happened to a solver since its start. -/
structure History (φ κ : Type) where
  injected : List (Edge φ κ) := []
  /-- The batches, one after the other. -/
  worked : List (Edge φ κ) := []
  /-- What came in through the inbox and was new. -/
  arrived : Set (κ × StmtId × κ) := ∅

namespace Problem

/-- The states of a solver, each with its history. Steps may differ in the size of their batch and
start in any world. -/
inductive Traced (P : Problem φ κ σ) (seeds : List (StmtId × φ)) :
    History φ κ → State φ κ → Prop
  | start : Traced P seeds {} (.ofSeeds P.key P.zero seeds)
  | inject {h : History φ κ} {s : State φ κ} (es : List (Edge φ κ)) : Traced P seeds h s →
    Traced P seeds { h with injected := h.injected ++ es } (s.inject es)
  | step {h : History φ κ} {s s' : State φ κ} {batchSize : Nat} {w w' : σ} {busy : Bool} :
    Traced P seeds h s → (P.step batchSize s).run w = .ok ((s', busy), w') →
    Traced P seeds { h with
      worked := h.worked ++ s.taken P.key batchSize
      arrived := h.arrived ∪ s.arrivals P.key } s'

/-- The books of a solver are in order. -/
structure Accounts (P : Problem φ κ σ) (h : History φ κ) (s : State φ κ) : Prop where
  /-- No edge waits twice. -/
  waiting : (s.worklist.map (Edge.triple P.key)).Nodup
  /-- No edge was worked off twice. -/
  worked : (h.worked.map (Edge.triple P.key)).Nodup
  /-- No edge that was worked off waits again. -/
  apart : (h.worked.map (Edge.triple P.key)).Disjoint (s.worklist.map (Edge.triple P.key))
  /-- What was worked off and what waits is the table. -/
  table : ∀ t, t ∈ s.table ↔
    t ∈ h.worked.map (Edge.triple P.key) ∨ t ∈ s.worklist.map (Edge.triple P.key)
  propagations : s.statistics.propagations = h.worked.length
  pathEdges : s.table.encard = s.statistics.pathEdges
  balance : s.statistics.pathEdges = s.statistics.propagations + s.worklist.length
  summaries : (s.endings P.key).encard = s.statistics.summaries
  injected : h.arrived.encard = s.statistics.injected

/-- What a step keeps: everything is filed, the edges behind the cursor are those worked off, and
the arrivals have been counted. -/
structure Audited (P : Problem φ κ σ) (h : History φ κ) (s : State φ κ) : Prop where
  filed : s.Filed P.key
  cursor : s.processed ≤ s.edges.size
  worked : s.edges.toList.take s.processed = h.worked
  arrived : h.arrived ⊆ s.table
  injected : h.arrived.encard = s.injected

variable {P : Problem φ κ σ} {h : History φ κ} {s s' : State φ κ}

namespace Audited

theorem ofSeeds (seeds : List (StmtId × φ)) :
    P.Audited {} (.ofSeeds P.key P.zero seeds) := by
  rw [State.ofSeeds_eq]
  have hbuilds : ({} : State φ κ).Builds P.key (State.recordAll P.key {}
      (seeds.map fun r => (⟨P.zero, r.1, r.2⟩ : Edge φ κ))) := State.Builds.refl.recordAll _
  have hprocessed := hbuilds.grows.processed
  refine ⟨State.Filed.empty.builds hbuilds, ?_, ?_, Set.empty_subset _, ?_⟩
  · rw [hprocessed]
    exact Nat.zero_le _
  · rw [hprocessed]
    rfl
  · rw [hbuilds.injected]
    simp

/-- Edges that are built lie ahead of the cursor. -/
theorem builds (ha : P.Audited h s) (hbuilds : s.Builds P.key s') : P.Audited h s' where
  filed := ha.filed.builds hbuilds
  cursor := by
    have hlonger := hbuilds.grows.edges.length_le
    simp only [Array.length_toList] at hlonger
    rw [hbuilds.grows.processed]
    exact ha.cursor.trans hlonger
  -- the edges worked off are a prefix of the array, and what is built comes behind them
  worked := by
    obtain ⟨rest, hrest⟩ := hbuilds.grows.edges
    rw [hbuilds.grows.processed, ← hrest,
      List.take_append_of_le_length (by simpa using ha.cursor)]
    exact ha.worked
  arrived := ha.arrived.trans hbuilds.grows.table
  injected := by
    rw [hbuilds.injected]
    exact ha.injected

theorem inject (ha : P.Audited h s) (es : List (Edge φ κ)) :
    P.Audited { h with injected := h.injected ++ es } (s.inject es) :=
  ⟨ha.filed.congr rfl rfl rfl rfl, ha.cursor, ha.worked, ha.arrived, ha.injected⟩

theorem drain (ha : P.Audited h s) :
    P.Audited { h with arrived := h.arrived ∪ s.arrivals P.key } (s.drain P.key) := by
  obtain ⟨m, s', hbuilds, hm, harrivals⟩ := State.drain_builds P.key s
  have hemptied : P.Audited h ({ s with inbox := [] } : State φ κ) :=
    ⟨ha.filed.congr rfl rfl rfl rfl, ha.cursor, ha.worked, ha.arrived, ha.injected⟩
  have hbuilt := hemptied.builds hbuilds
  have hinjected := State.injected_drain P.key s
  rw [hm] at hinjected ⊢
  refine ⟨hbuilt.filed.congr rfl rfl rfl rfl, hbuilt.cursor, hbuilt.worked,
    Set.union_subset hbuilt.arrived harrivals, ?_⟩
  -- what arrived before is in the table, so it does not arrive again
  have hapart : Disjoint h.arrived (s.arrivals P.key) := by
    rw [Set.disjoint_left]
    intro t hbefore hnow
    exact hnow.2 (ha.arrived hbefore)
  rw [Set.encard_union_eq hapart, ha.injected, hinjected]

/-- The cursor moves past a batch. -/
theorem take (ha : P.Audited h s) (most m : Nat) :
    P.Audited { h with worked := h.worked ++ s.batch most }
      { s with processed := s.processed + (s.batch most).length, iterations := m } where
  filed := ha.filed.congr rfl rfl rfl rfl
  cursor := State.length_batch_le most ha.cursor
  worked := by
    rw [← ha.worked]
    exact State.take_batch most
  arrived := ha.arrived
  injected := ha.injected

theorem step (ha : P.Audited h s) {batchSize : Nat} {w w' : σ} {busy : Bool}
    (hstep : (P.step batchSize s).run w = .ok ((s', busy), w')) :
    P.Audited { h with
      worked := h.worked ++ s.taken P.key batchSize
      arrived := h.arrived ∪ s.arrivals P.key } s' := by
  obtain ⟨-, m, hbuilds⟩ := P.ensures_step_builds batchSize _ _ hstep
  exact (ha.drain.take (max batchSize 1) m).builds hbuilds

theorem accounts (ha : P.Audited h s) : P.Accounts h s := by
  -- the cursor cuts the array in two, which is where all the equations come from
  have hlist : h.worked ++ s.worklist = s.edges.toList := by
    rw [← ha.worked]
    exact List.take_append_drop _ _
  have hnodup := ha.filed.nodup
  rw [← hlist, List.map_append, List.nodup_append'] at hnodup
  have htable : s.table = {t | t ∈ s.edges.toList.map (Edge.triple P.key)} := by
    ext t
    show s.holds t.1 t.2.1 t.2.2 = true ↔ _
    rw [ha.filed.coherent.holds_iff, Set.mem_ofPred_eq, List.mem_map]
    simp only [Array.mem_toList_iff, Edge.triple, Prod.ext_iff]
  have hlength : h.worked.length = s.processed := by
    rw [← ha.worked, List.length_take, Array.length_toList]
    have hcursor := ha.cursor
    omega
  have hworklist : s.worklist.length = s.edges.size - s.processed := by
    unfold State.worklist
    rw [List.length_drop, Array.length_toList]
  refine ⟨hnodup.2.1, hnodup.1, hnodup.2.2, ?_, hlength.symm, ?_, ?_, ha.filed.endings,
    ha.injected⟩
  · intro t
    rw [htable, ← hlist, List.map_append, Set.mem_ofPred_eq, List.mem_append]
  · rw [htable, ← List.coe_toFinset, Set.encard_coe_eq_coe_finsetCard,
      List.toFinset_card_of_nodup ha.filed.nodup, List.length_map, Array.length_toList]
    rfl
  · have hcursor := ha.cursor
    show s.edges.size = s.processed + s.worklist.length
    omega

end Audited

theorem Traced.audited {seeds : List (StmtId × φ)} (ht : P.Traced seeds h s) : P.Audited h s := by
  induction ht with
  | start => exact .ofSeeds seeds
  | inject es _ ih => exact ih.inject es
  | step _ hstep ih => exact ih.step hstep

/-! ## Finitely many facts -/

/-- The flow functions lead from facts in `D` to facts in `D`, and so does the zero context. -/
structure StaysWithin (P : Problem φ κ σ) (D : Finset κ) : Prop where
  zero : P.zero ∈ D
  flow : ∀ q f w out w', P.key f ∈ D → (P.ask q f).run w = .ok (out, w') →
    ∀ g ∈ out, P.key g ∈ D

/-- A fault with which a flow function stops at a fact in `D`. -/
def StopsAt (P : Problem φ κ σ) (D : Finset κ) (fault : Fault) : Prop :=
  ∃ q f w, P.key f ∈ D ∧ (P.ask q f).run w = .error fault

/-- Path edges at statements of the program, over the facts in `D`. -/
def regionOver (P : Problem φ κ σ) (p : Program) (D : Finset κ) : Region φ κ σ where
  edges := edgesAt p P.key (· ∈ D)
  worlds := Set.univ
  faults := P.StopsAt D

section

variable {p : Program} {d : Direction} {D : Finset κ} {seeds : List (StmtId × φ)}

omit [DecidableEq κ] in
theorem closed_regionOver (hp : p.Built) (hview : P.view = p.view d) (hD : P.StaysWithin D) :
    (P.regionOver p D).Closed P where
  ask := by
    intro q f l w howes _
    obtain ⟨hf, hlands⟩ := edgesAt_of_owed hp hview hD.zero howes
    refine ⟨?_, fun fault hrun => ⟨q, f, w, hf, hrun⟩⟩
    intro out w' hrun
    refine ⟨trivial, ?_⟩
    intro g hg
    exact hlands g (hD.flow q f w out w' hf hrun g hg)
  enters := by
    intro call callee f w _ _ out w' _ g _
    exact trivial
  ranged e he := by
    left
    rw [hview]
    cases d <;> exact he.1

omit [DecidableEq κ] in
/-- There are as many triples as choices of a context, a statement and a fact. -/
theorem ncard_regionOver (P : Problem φ κ σ) (p : Program) (D : Finset κ) :
    (Edge.triple P.key '' (P.regionOver p D).edges).Finite ∧
    (Edge.triple P.key '' (P.regionOver p D).edges).ncard ≤ p.stmts.size * D.card ^ 2 := by
  -- an edge is determined by its context, its statement and its fact
  have hsub : Edge.triple P.key '' (P.regionOver p D).edges ⊆
      ↑(D ×ˢ (Finset.range p.stmts.size).image StmtId.mk ×ˢ D) := by
    rintro _ ⟨e, ⟨hhas, hcontext, hfact⟩, rfl⟩
    simp only [Finset.coe_product, Set.mem_prod, Finset.mem_coe, Finset.mem_image,
      Finset.mem_range]
    exact ⟨hcontext, ⟨e.node.index, hhas, rfl⟩, hfact⟩
  refine ⟨(Finset.finite_toSet _).subset hsub, ?_⟩
  calc (Edge.triple P.key '' (P.regionOver p D).edges).ncard
      ≤ (D ×ˢ (Finset.range p.stmts.size).image StmtId.mk ×ˢ D).card := by
        rw [← Set.ncard_coe_finset]
        exact Set.ncard_le_ncard hsub (Finset.finite_toSet _)
    _ = D.card * (((Finset.range p.stmts.size).image StmtId.mk).card * D.card) := by
        rw [Finset.card_product, Finset.card_product]
    _ ≤ D.card * (p.stmts.size * D.card) := by
        gcongr
        exact Finset.card_image_le.trans (Finset.card_range _).le
    _ = p.stmts.size * D.card ^ 2 := by rw [Nat.mul_left_comm, Nat.pow_two]

/-- A solver that was given nothing but edges over `D` has found nothing else. -/
theorem Traced.admits (hp : p.Built) (hview : P.view = p.view d) (hD : P.StaysWithin D)
    (hseeds : ∀ r ∈ seeds, p.Has r.1 ∧ P.key r.2 ∈ D) (ht : P.Traced seeds h s)
    (hinjected : ∀ e ∈ h.injected, e ∈ edgesAt p P.key (· ∈ D)) :
    (P.regionOver p D).Admits P s := by
  have hv : P.view.StartsOwned := hview ▸ hp.startsOwned d
  induction ht with
  | start =>
    apply Region.Admits.ofSeeds
    intro r hr
    exact ⟨(hseeds r hr).1, hD.zero, (hseeds r hr).2⟩
  | inject es _ ih =>
    refine (ih fun e he => hinjected e (List.mem_append_left es he)).inject ?_
    intro e he
    exact hinjected e (List.mem_append_right _ he)
  | step _ hstep ih =>
    exact ((Region.safe_step (closed_regionOver hp hview hD) hv (ih hinjected) (Set.mem_univ _)
      _).result _ _ hstep).admits

end

end Problem

/-- With more fuel than there are edges left in a finite region, a solver gets to an idle state,
unless a fault of the region stops it. -/
theorem Region.safe_solve {R : Region φ κ σ} {P : Problem φ κ σ} (hR : R.Closed P)
    (hv : P.view.StartsOwned) (hfinite : (Edge.triple P.key '' R.edges).Finite) (batchSize : Nat)
    {seeds : List (StmtId × φ)} {h : History φ κ} {s : State φ κ} {w : σ} (fuel : Nat)
    (hadmits : R.Admits P s) (hw : w ∈ R.worlds) (ht : P.Traced seeds h s)
    (hfuel : (Edge.triple P.key '' R.edges).ncard < s.processed + fuel) :
    Run.Safe R.faults (P.solve batchSize fuel s) w fun r _ =>
      ∃ s' h', r = some s' ∧ P.Traced seeds h' s' ∧ R.Admits P s' ∧ s'.isIdle = true := by
  -- every step that is busy moves the cursor, and the cursor cannot get past the region
  induction fuel generalizing h s w with
  | zero =>
    have hsize := hadmits.confines.size_le hfinite
    have hcursor := hadmits.cursor
    omega
  | succ fuel ih =>
    have hsafe := Region.safe_step hR hv hadmits hw batchSize
    apply Run.safe_bind
    refine ⟨?_, hsafe.fault⟩
    rintro ⟨s₁, busy⟩ w₁ hstep
    have hstepped := hsafe.result _ _ hstep
    have ht₁ := ht.step hstep
    cases busy with
    | true =>
      -- the step has worked an edge off
      have hless := hstepped.busy rfl
      exact ih hstepped.admits hstepped.world ht₁ (by dsimp only at hless; omega)
    | false =>
      exact Run.safe_pure ⟨s₁, _, rfl, ht₁, hstepped.admits, (hstepped.idle rfl).2.1⟩

/-! ## The books -/

/-- In every state of a solver each path edge of the table has been worked off once or waits once,
and the statistics are right. If flow functions, seeds and injected edges stay within finitely many
facts of a program, solving ends in an idle state, with all edges of the table worked off and no
more of them than there are triples; only a flow function that stops with a fault keeps it from
that. -/
theorem each_edge_worked_once {P : Problem φ κ σ} {seeds : List (StmtId × φ)} {h : History φ κ}
    {s : State φ κ} (ht : P.Traced seeds h s) :
    P.Accounts h s ∧
    ∀ (p : Program) (d : Direction) (D : Finset κ), p.Built → P.view = p.view d →
      P.StaysWithin D → (∀ r ∈ seeds, p.Has r.1 ∧ P.key r.2 ∈ D) →
      (∀ e ∈ h.injected, e ∈ edgesAt p P.key (· ∈ D)) →
      ∀ (batchSize fuel : Nat) (w : σ), p.stmts.size * D.card ^ 2 < fuel →
        (∃ fault, (P.solve batchSize fuel s).run w = .error fault ∧ P.StopsAt D fault) ∨
        ∃ s' h' w', (P.solve batchSize fuel s).run w = .ok (some s', w') ∧ P.Traced seeds h' s' ∧
          s'.isIdle = true ∧ s'.statistics.propagations = s'.statistics.pathEdges ∧
          s'.statistics.pathEdges ≤ p.stmts.size * D.card ^ 2 := by
  refine ⟨ht.audited.accounts, ?_⟩
  intro p d D hp hview hD hseeds hinjected batchSize fuel w hfuel
  have hv : P.view.StartsOwned := hview ▸ hp.startsOwned d
  obtain ⟨hfinite, hcard⟩ := Problem.ncard_regionOver P p D
  have hadmits := ht.admits hp hview hD hseeds hinjected
  have hsafe := Region.safe_solve (Problem.closed_regionOver hp hview hD) hv hfinite batchSize fuel
    hadmits (Set.mem_univ w) ht (by omega)
  cases hrun : (P.solve batchSize fuel s).run w with
  | error fault => exact Or.inl ⟨fault, rfl, hsafe.fault fault hrun⟩
  | ok r =>
    obtain ⟨s', h', hr, ht', hadmits', hidle⟩ := hsafe.result r.1 r.2 hrun
    have hsize := hadmits'.confines.size_le hfinite
    have hdone : s'.processed = s'.edges.size :=
      le_antisymm hadmits'.cursor (isIdle_iff.mp hidle).1
    refine Or.inr ⟨s', h', r.2, ?_, ht', hidle, hdone, hsize.trans hcard⟩
    rw [← hr]

/-- The facts of the two calls, and one that is handed in. -/
def twoFacts.domain : Finset Nat := {0, 1, 2, 7, 10, 20}

theorem twoFacts.staysWithin : twoFacts.problem.StaysWithin twoFacts.domain where
  zero := by decide
  flow := by
    have halong : ∀ s t, twoFacts.rows? (.normal s t) = none ∧
        twoFacts.rows? (.bypass s t) = none :=
      fun _ _ => ⟨rfl, rfl⟩
    have hacross : ∀ place, ∀ f ∈ twoFacts.domain,
        ∀ g ∈ twoFacts.acrossMethods place f, g ∈ twoFacts.domain := by
      intro place
      unfold FlowTable.acrossMethods
      split
      · next rows hrows =>
        obtain ⟨before, after, hlist, -⟩ := List.lookup_eq_some_iff.mp hrows
        have hrow : (place, rows) ∈ before ++ (place, rows) :: after := by simp
        rw [← hlist] at hrow
        simp only [List.mem_cons, Prod.mk.injEq, List.not_mem_nil, or_false] at hrow
        rcases hrow with ⟨-, rfl⟩ | ⟨-, rfl⟩ | ⟨-, rfl⟩ | ⟨-, rfl⟩ <;> decide
      · decide
    intro q f w out w' hf hask g hg
    cases q with
    | normal s t =>
      cases hask
      simp only [FlowTable.alongEdge, halong] at hg
      rwa [List.mem_singleton.mp hg]
    | bypass s t =>
      cases hask
      simp only [FlowTable.alongEdge, halong] at hg
      rwa [List.mem_singleton.mp hg]
    | enter call callee =>
      cases hask
      exact hacross _ f hf g hg
    | leave call callee exit site =>
      cases hask
      exact hacross _ f hf g hg
    | depart method exit =>
      cases hask
      cases hg

/-- Of three edges in the inbox one is known and two are the same. -/
theorem each_edge_worked_once_twoFacts : ∃ h s, twoFacts.problem.Traced [(⟨0⟩, 0)] h s ∧
    s.statistics.propagations = 2 ∧ s.worklist.length = 3 ∧ s.statistics.injected = 1 ∧
    twoFacts.problem.Accounts h s ∧
    ∃ s' h' w', (twoFacts.problem.solve 2 181 s).run 0 = .ok (some s', w') ∧
      twoFacts.problem.Traced [(⟨0⟩, 0)] h' s' ∧ s'.isIdle = true ∧
      s'.statistics.propagations = s'.statistics.pathEdges ∧ s'.statistics.pathEdges ≤ 180 := by
  have hrun : ((twoFacts.problem.step 2
      ((State.ofSeeds id 0 [(⟨0⟩, 0)]).inject [⟨0, ⟨1⟩, 7⟩, ⟨0, ⟨0⟩, 0⟩, ⟨0, ⟨1⟩, 7⟩])).run
      0).toOption.any (fun r => r.1.1.statistics.propagations == 2 &&
        r.1.1.worklist.length == 3 && r.1.1.statistics.injected == 1) = true := by decide +kernel
  obtain ⟨⟨⟨s, busy⟩, w⟩, hstep, hs⟩ := exists_of_any_toOption hrun
  simp only [Bool.and_eq_true, beq_iff_eq] at hs
  have hstart : twoFacts.problem.Traced [(⟨0⟩, 0)] {} (.ofSeeds id 0 [(⟨0⟩, 0)]) := .start
  have ht := (hstart.inject [⟨0, ⟨1⟩, 7⟩, ⟨0, ⟨0⟩, 0⟩, ⟨0, ⟨1⟩, 7⟩]).step hstep
  obtain ⟨haccounts, hsolve⟩ := each_edge_worked_once ht
  refine ⟨_, s, ht, hs.1.1, hs.1.2, hs.2, haccounts, ?_⟩
  have hsize : twoCallsProgram.stmts.size = 5 := by decide +kernel
  have hfirst : twoCallsProgram.Has ⟨0⟩ := by
    show 0 < twoCallsProgram.stmts.size
    omega
  have hsecond : twoCallsProgram.Has ⟨1⟩ := by
    show 1 < twoCallsProgram.stmts.size
    omega
  have hseeds : ∀ r ∈ [(⟨0⟩, 0)],
      twoCallsProgram.Has r.1 ∧ twoFacts.problem.key r.2 ∈ twoFacts.domain := by
    intro r hr
    rw [List.mem_singleton.mp hr]
    exact ⟨hfirst, by decide⟩
  have hinjected : ∀ e ∈ [⟨0, ⟨1⟩, 7⟩, ⟨0, ⟨0⟩, 0⟩, ⟨0, ⟨1⟩, 7⟩],
      e ∈ edgesAt twoCallsProgram twoFacts.problem.key (· ∈ twoFacts.domain) := by
    intro e he
    simp only [List.mem_cons, List.not_mem_nil, or_false] at he
    rcases he with rfl | rfl | rfl
    · exact ⟨hsecond, by decide, by decide⟩
    · exact ⟨hfirst, by decide, by decide⟩
    · exact ⟨hsecond, by decide, by decide⟩
  rcases hsolve twoCallsProgram .forward twoFacts.domain built_twoCallsProgram rfl
    twoFacts.staysWithin hseeds hinjected 2 181 0 (by decide) with
    ⟨fault, -, q, f, w₁, -, hfault⟩ | hdone
  · -- no row of a table is a fault
    cases q <;> cases hfault
  · exact hdone

end TaintFlow.Tabulation
