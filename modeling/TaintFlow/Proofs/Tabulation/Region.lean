import Mathlib.Data.Set.Card
import TaintFlow.Proofs.Program.Mentions
import TaintFlow.Proofs.Tabulation.Invariant

/-!
# Where a tabulation can get

A region says which path edges may be recorded, which contexts a call may bring into a callee, which
worlds flow functions may leave behind, and which faults may stop them. It is closed if asking for
what is owed to its edges stays inside. Every step that starts inside a closed region ends inside it
(`Region.safe_step`), and faults that the region rules out do not occur.

The invariant of a tabulation is about answers that are given once and for all. Here a flow function
may answer the same question in another way each time, so that regions also speak about runs that
are told to stop half-way.

In a region with finitely many path edges a tabulation has finitely many steps to make, since a
table lists no path edge twice and every step works one off.
-/

namespace TaintFlow.Tabulation

variable {φ κ σ : Type}

/-- What tells path edges apart. -/
def Edge.triple (key : φ → κ) (e : Edge φ κ) : κ × StmtId × κ := (e.context, e.node, key e.fact)

/-- A path edge is listed only if it is new. -/
theorem State.Coherent.nodup_propagate [DecidableEq κ] {key : φ → κ} {s : State φ κ}
    (h : s.Coherent key) (hnodup : (s.edges.toList.map (Edge.triple key)).Nodup) (c : κ)
    (n : StmtId) (f : φ) :
    ((s.propagate key c n f).edges.toList.map (Edge.triple key)).Nodup := by
  unfold State.propagate
  split
  · exact hnodup
  · next hnew =>
    have hfresh : Edge.triple key ⟨c, n, f⟩ ∉ s.edges.toList.map (Edge.triple key) := by
      intro hmem
      obtain ⟨e, he, heq⟩ := List.mem_map.mp hmem
      have hc : e.context = c := congrArg Prod.fst heq
      have hn : e.node = n := congrArg (fun t => t.2.1) heq
      have hk : key e.fact = key f := congrArg (fun t => t.2.2) heq
      have hholds := h.holds_of_mem (Array.mem_toList_iff.mp he)
      rw [hc, hn, hk] at hholds
      exact hnew hholds
    simp only [Array.toList_push, List.map_append, List.map_cons, List.map_nil]
    rw [List.nodup_append_comm]
    exact List.nodup_cons.mpr ⟨hfresh, hnodup⟩

structure Region (φ κ σ : Type) where
  edges : Set (Edge φ κ)
  /-- The contexts that a fact before a call may bring into a callee. -/
  enters : StmtId → MethodId → κ → κ → Prop := fun _ _ _ _ => True
  worlds : Set σ
  faults : Fault → Prop

namespace Region

/-- A debt to edges of the region, any of which may be let out into every caller. -/
def Owes (R : Region φ κ σ) (P : Problem φ κ σ) (q : Query) (f : φ) (l : Landing κ) : Prop :=
  Owed P (fun call callee f k => R.enters call callee (P.key f) k) (.full R.edges R.edges) q f l

/-- Asking for what is owed stays inside. -/
structure Closed (R : Region φ κ σ) (P : Problem φ κ σ) : Prop where
  ask : ∀ {q f l w}, R.Owes P q f l → w ∈ R.worlds → Run.Safe R.faults (P.ask q f) w fun out w' =>
    w' ∈ R.worlds ∧ ∀ g ∈ out, ∀ e ∈ l.edge? P.key g, e ∈ R.edges
  enters : ∀ {call callee f w}, R.Owes P (.enter call callee) f .nowhere → w ∈ R.worlds →
    Run.Ensures (P.enter call callee f) w fun out _ =>
      ∀ g ∈ out, R.enters call callee (P.key f) (P.key g)
  ranged : ∀ e ∈ R.edges, e.node.index < P.view.size ∨ R.faults (.unknownStatement e.node)

variable [DecidableEq κ] {R : Region φ κ σ} {P : Problem φ κ σ} {s s' s'' : State φ κ}
  {w w' w'' : σ}

/-! ## States inside a region -/

/-- The table lies in the region and lists no path edge twice, and the rows of the two indices come
from edges of the region. -/
structure Confines (R : Region φ κ σ) (P : Problem φ κ σ) (s : State φ κ) : Prop where
  coherent : s.Coherent P.key
  nodup : (s.edges.toList.map (Edge.triple P.key)).Nodup
  edges : ∀ e ∈ s.edges, e ∈ R.edges
  incoming : ∀ {start c call k}, (c, call, k) ∈ s.incoming.rows start →
    (∃ e ∈ R.edges, e.node = call ∧ P.key e.fact = k) ∧ P.view.isCall call = true ∧
      ∃ m ∈ P.view.calleesOf call, start ∈ P.view.startsOf m ∧ R.enters call m k c
  summaries : ∀ {start c exit f}, (c, exit, f) ∈ s.summaries.rows start →
    (⟨c, exit, f⟩ : Edge φ κ) ∈ R.edges ∧ P.view.isExit exit = true ∧
      start ∈ P.view.startsOf (P.view.ownerOf exit)

namespace Confines

theorem empty : R.Confines P {} where
  coherent := State.coherent_empty
  nodup := by simp
  edges e he := by simp at he
  incoming hrow := by simp [Index.rows_empty] at hrow
  summaries hrow := by simp [Index.rows_empty] at hrow

/-- Confinement reads the table and the two indices and nothing else. -/
theorem congr (h : R.Confines P s) (hedges : s'.edges = s.edges)
    (hcontexts : s'.contexts = s.contexts) (hincoming : s'.incoming = s.incoming)
    (hsummaries : s'.summaries = s.summaries) : R.Confines P s' where
  coherent := by
    apply h.coherent.congr hedges
    intro c n k
    unfold State.holds
    rw [hcontexts]
  nodup := by
    rw [hedges]
    exact h.nodup
  edges := by
    rw [hedges]
    exact h.edges
  incoming := by
    rw [hincoming]
    exact h.incoming
  summaries := by
    rw [hsummaries]
    exact h.summaries

theorem propagate (h : R.Confines P s) {c : κ} {n : StmtId} {f : φ}
    (hedge : (⟨c, n, f⟩ : Edge φ κ) ∈ R.edges) : R.Confines P (s.propagate P.key c n f) where
  coherent := h.coherent.propagate c n f
  nodup := h.coherent.nodup_propagate h.nodup c n f
  edges e he := by
    rcases State.mem_edges_propagate.mp he with hold | ⟨-, rfl⟩
    · exact h.edges e hold
    · exact hedge
  incoming hrow := by
    rw [State.incoming_propagate] at hrow
    exact h.incoming hrow
  summaries hrow := by
    rw [State.summaries_propagate] at hrow
    exact h.summaries hrow

theorem recordAll (h : R.Confines P s) {es : List (Edge φ κ)} (hes : ∀ e ∈ es, e ∈ R.edges) :
    R.Confines P (s.recordAll P.key es) := by
  induction es generalizing s with
  | nil => exact h
  | cons e es ih =>
    have hfirst := h.propagate (hes e (List.mem_cons_self ..))
    exact ih hfirst fun e' he' => hes e' (List.mem_cons_of_mem e he')

theorem addCaller (h : R.Confines P s) {e : Edge φ κ} (he : e ∈ R.edges)
    (hcall : P.view.isCall e.node = true) {callee : MethodId} {start : StmtId} {c : κ}
    (hm : callee ∈ P.view.calleesOf e.node) (hstart : start ∈ P.view.startsOf callee)
    (henters : R.enters e.node callee (P.key e.fact) c) :
    R.Confines P (s.addCaller start c e.node (P.key e.fact)) where
  coherent := h.coherent.congr (State.edges_addCaller ..) fun _ _ _ => State.holds_addCaller ..
  nodup := by
    rw [State.edges_addCaller]
    exact h.nodup
  edges := by
    rw [State.edges_addCaller]
    exact h.edges
  incoming hrow := by
    rcases State.mem_rows_addCaller.mp hrow with hold | ⟨rfl, heq⟩
    · exact h.incoming hold
    · cases heq
      exact ⟨⟨e, he, rfl, rfl⟩, hcall, callee, hm, hstart, henters⟩
  summaries hrow := by
    rw [State.summaries_addCaller] at hrow
    exact h.summaries hrow

theorem addSummary (h : R.Confines P s) {e : Edge φ κ} (he : e ∈ R.edges)
    (hexit : P.view.isExit e.node = true) {start : StmtId}
    (hstart : start ∈ P.view.startsOf (P.view.ownerOf e.node)) :
    R.Confines P (s.addSummary P.key start e.context e.node e.fact) where
  coherent := h.coherent.congr (State.edges_addSummary ..) fun _ _ _ => State.holds_addSummary ..
  nodup := by
    rw [State.edges_addSummary]
    exact h.nodup
  edges := by
    rw [State.edges_addSummary]
    exact h.edges
  incoming hrow := by
    rw [State.incoming_addSummary] at hrow
    exact h.incoming hrow
  summaries hrow := by
    rcases State.mem_rows_addSummary.mp hrow with hold | ⟨rfl, heq, -⟩
    · exact h.summaries hold
    · cases heq
      exact ⟨he, hexit, hstart⟩

/-- A table inside a finite region is no longer than the region is large. -/
theorem size_le (h : R.Confines P s) (hfinite : (Edge.triple P.key '' R.edges).Finite) :
    s.edges.size ≤ (Edge.triple P.key '' R.edges).ncard := by
  classical
  have hsub : ∀ t ∈ s.edges.toList.map (Edge.triple P.key), t ∈ Edge.triple P.key '' R.edges := by
    intro t ht
    obtain ⟨e, he, rfl⟩ := List.mem_map.mp ht
    exact ⟨e, h.edges e (Array.mem_toList_iff.mp he), rfl⟩
  calc s.edges.size = (s.edges.toList.map (Edge.triple P.key)).length := by simp
    _ = (s.edges.toList.map (Edge.triple P.key)).toFinset.card :=
      (List.toFinset_card_of_nodup h.nodup).symm
    _ ≤ (Edge.triple P.key '' R.edges).ncard := by
      rw [← Set.ncard_coe_finset]
      refine Set.ncard_le_ncard ?_ hfinite
      intro t ht
      exact hsub t (by simpa using ht)

end Confines

/-- The state has grown and is still inside. -/
structure Keeps (R : Region φ κ σ) (P : Problem φ κ σ) (s s' : State φ κ) (w' : σ) : Prop where
  confines : R.Confines P s'
  world : w' ∈ R.worlds
  grows : s.Grows s'

theorem Keeps.trans (h : R.Keeps P s s' w') (h' : R.Keeps P s' s'' w'') : R.Keeps P s s'' w'' :=
  ⟨h'.confines, h'.world, h.grows.trans h'.grows⟩

theorem Confines.keeps (h : R.Confines P s) (hw : w ∈ R.worlds) : R.Keeps P s s w :=
  ⟨h, hw, .refl s⟩

theorem Confines.keeps_recordAll (h : R.Confines P s) (hw : w ∈ R.worlds) {es : List (Edge φ κ)}
    (hes : ∀ e ∈ es, e ∈ R.edges) : R.Keeps P s (s.recordAll P.key es) w :=
  ⟨h.recordAll hes, hw, State.grows_recordAll es⟩

/-- The loop rule for states inside a region. -/
theorem safe_loop {α : Type} {f : State φ κ → α → Run σ (State φ κ)} (l : List α)
    (step : ∀ a ∈ l, ∀ s' w', R.Keeps P s s' w' → Run.Safe R.faults (f s' a) w' (R.Keeps P s'))
    (h : R.Confines P s) (hw : w ∈ R.worlds) :
    Run.Safe R.faults (l.foldlM f s) w (R.Keeps P s) := by
  refine Run.safe_foldlM l ?_ (h.keeps hw)
  intro a ha s' w' hkeeps
  exact (step a ha s' w' hkeeps).mono fun _ _ h' => hkeeps.trans h'

/-- Ask for what is owed in one context and record the answer there. -/
theorem safe_record (hR : R.Closed P) (h : R.Confines P s) (hw : w ∈ R.worlds) {q : Query} {f : φ}
    {c : κ} {n : StmtId} (howes : R.Owes P q f (.within c n)) :
    Run.Safe R.faults (do
      let out ← P.ask q f
      return s.propagateAll P.key c n out) w (R.Keeps P s) := by
  apply Run.safe_bind
  refine (hR.ask howes hw).mono ?_
  rintro out w' ⟨hw', hout⟩
  apply Run.safe_pure
  rw [State.propagateAll_eq]
  refine h.keeps_recordAll hw' ?_
  intro e he
  obtain ⟨g, hg, rfl⟩ := List.mem_map.mp he
  exact hout g hg _ rfl

/-! ## Calls -/

section

variable (hR : R.Closed P) (hv : P.view.StartsOwned)

include hR hv

theorem safe_reuseSummaries (h : R.Confines P s) (hw : w ∈ R.worlds) {e : Edge φ κ}
    (he : e ∈ R.edges) (hcall : P.view.isCall e.node = true) {callee : MethodId}
    {start : StmtId} {entry : κ} (hm : callee ∈ P.view.calleesOf e.node)
    (hstart : start ∈ P.view.startsOf callee)
    (henters : R.enters e.node callee (P.key e.fact) entry) :
    Run.Safe R.faults (P.reuseSummaries e callee start entry s) w (R.Keeps P s) := by
  unfold Problem.reuseSummaries
  refine safe_loop _ ?_ h hw
  intro r hr s₁ w₁ hkeeps
  rw [(P.order.summaries.perm s _).mem_iff] at hr
  obtain ⟨hx, hexit, hown⟩ := h.summaries (State.mem_summariesOf.mp hr)
  -- the start belongs to one method only, so the summary is one of this callee
  have hcallee : P.view.ownerOf r.1 = callee := (hv _ _ hown).symm.trans (hv _ _ hstart)
  subst hcallee
  have hcounted : R.Keeps P s₁ { s₁ with reuses := s₁.reuses + 1 } w₁ :=
    ⟨hkeeps.confines.congr rfl rfl rfl rfl, hkeeps.world,
      ⟨rfl, rfl, List.prefix_refl _, id, id, id⟩⟩
  refine (safe_loop _ ?_ hcounted.confines hcounted.world).mono fun _ _ h' => hcounted.trans h'
  intro site hsite s₂ w₂ hkeeps₂
  have howes : R.Owes P (.leave e.node (P.view.ownerOf r.1) r.1 site) r.2
      (.within e.context site) :=
    Owed.leave (c := e) (x := ⟨entry, r.1, r.2⟩) he hcall hm hown henters hx hexit hsite
  exact safe_record hR hkeeps₂.confines hkeeps₂.world howes

theorem safe_enterWith (h : R.Confines P s) (hw : w ∈ R.worlds) {e : Edge φ κ} (he : e ∈ R.edges)
    (hcall : P.view.isCall e.node = true) {callee : MethodId} {start : StmtId} {entry : φ}
    (hm : callee ∈ P.view.calleesOf e.node) (hstart : start ∈ P.view.startsOf callee)
    (henters : R.enters e.node callee (P.key e.fact) (P.key entry))
    (hentry : (⟨P.key entry, start, entry⟩ : Edge φ κ) ∈ R.edges) :
    Run.Safe R.faults (P.enterWith e callee start s entry) w (R.Keeps P s) := by
  unfold Problem.enterWith
  have hentered : R.Keeps P s ((s.propagate P.key (P.key entry) start entry).addCaller start
      (P.key entry) e.node (P.key e.fact)) w :=
    ⟨(h.propagate hentry).addCaller he hcall hm hstart henters, hw,
      (State.grows_propagate ..).trans (State.grows_addCaller ..)⟩
  refine (safe_reuseSummaries hR hv hentered.confines hw he hcall hm hstart henters).mono ?_
  intro s' w' hkeeps
  exact hentered.trans hkeeps

omit [DecidableEq κ] hv in
/-- The facts that enter a callee do so in the contexts that the region allows, at every start. -/
theorem safe_enter (hw : w ∈ R.worlds) {e : Edge φ κ} (he : e ∈ R.edges)
    (hcall : P.view.isCall e.node = true) {callee : MethodId}
    (hm : callee ∈ P.view.calleesOf e.node) :
    Run.Safe R.faults (P.enter e.node callee e.fact) w fun out w' => w' ∈ R.worlds ∧
      ∀ g ∈ out, R.enters e.node callee (P.key e.fact) (P.key g) ∧
        ∀ start ∈ P.view.startsOf callee, (⟨P.key g, start, g⟩ : Edge φ κ) ∈ R.edges := by
  have hcalled : R.Owes P (.enter e.node callee) e.fact .nowhere := Owed.call he hcall hm
  refine ⟨?_, (hR.ask hcalled hw).fault⟩
  intro out w' hrun
  refine ⟨((hR.ask hcalled hw).result out w' hrun).1, ?_⟩
  intro g hg
  refine ⟨hR.enters hcalled hw out w' hrun g hg, ?_⟩
  intro start hstart
  have howes : R.Owes P (.enter e.node callee) e.fact (.anew start) :=
    Owed.enter he hcall hm hstart
  exact ((hR.ask howes hw).result out w' hrun).2 g hg _ rfl

theorem safe_enterCallee (h : R.Confines P s) (hw : w ∈ R.worlds) {e : Edge φ κ}
    (he : e ∈ R.edges) (hcall : P.view.isCall e.node = true) {callee : MethodId}
    (hm : callee ∈ P.view.calleesOf e.node) :
    Run.Safe R.faults (P.enterCallee e s callee) w (R.Keeps P s) := by
  unfold Problem.enterCallee
  apply Run.safe_bind
  refine (safe_enter hR hw he hcall hm).mono ?_
  rintro entries w₁ ⟨hw₁, hentries⟩
  refine safe_loop _ ?_ h hw₁
  intro start hstart s₂ w₂ hkeeps₂
  refine safe_loop _ ?_ hkeeps₂.confines hkeeps₂.world
  intro g hg s₃ w₃ hkeeps₃
  obtain ⟨henters, hlands⟩ := hentries g hg
  exact safe_enterWith hR hv hkeeps₃.confines hkeeps₃.world he hcall hm hstart henters
    (hlands start hstart)

theorem safe_passCall (h : R.Confines P s) (hw : w ∈ R.worlds) {e : Edge φ κ} (he : e ∈ R.edges)
    (hcall : P.view.isCall e.node = true) :
    Run.Safe R.faults (P.passCall e s) w (R.Keeps P s) := by
  unfold Problem.passCall
  apply Run.safe_bind
  have hcallees : Run.Safe R.faults ((P.view.calleesOf e.node).foldlM (P.enterCallee e) s) w
      (R.Keeps P s) := by
    refine safe_loop _ ?_ h hw
    intro callee hm s₁ w₁ hkeeps
    exact safe_enterCallee hR hv hkeeps.confines hkeeps.world he hcall hm
  refine hcallees.mono ?_
  intro s₁ w₁ hkeeps₁
  refine (safe_loop _ ?_ hkeeps₁.confines hkeeps₁.world).mono fun _ _ h' => hkeeps₁.trans h'
  intro site hsite s₂ w₂ hkeeps₂
  have howes : R.Owes P (.bypass e.node site) e.fact (.within e.context site) :=
    Owed.bypass he hcall hsite
  exact safe_record hR hkeeps₂.confines hkeeps₂.world howes

/-! ## Exits -/

omit hv in
/-- Return to a call that brought the context of `x` in: the answer may land in the context of any
edge at that call which does so. -/
theorem safe_returnTo (h : R.Confines P s) (hw : w ∈ R.worlds) {x : Edge φ κ} (hx : x ∈ R.edges)
    (hexit : P.view.isExit x.node = true) {call start : StmtId} {facts : List κ}
    (hstart : start ∈ P.view.startsOf (P.view.ownerOf x.node))
    (hcall : P.view.isCall call = true) (hm : P.view.ownerOf x.node ∈ P.view.calleesOf call)
    (hclaim : ∃ e ∈ R.edges, e.node = call ∧
      R.enters call (P.view.ownerOf x.node) (P.key e.fact) x.context)
    (hfacts : ∀ k ∈ facts, R.enters call (P.view.ownerOf x.node) k x.context) :
    Run.Safe R.faults (P.returnTo x (P.view.ownerOf x.node) call facts s) w (R.Keeps P s) := by
  unfold Problem.returnTo
  refine safe_loop _ ?_ h hw
  intro site hsite s₁ w₁ hkeeps₁
  have howes : ∀ e ∈ R.edges, e.node = call →
      R.enters call (P.view.ownerOf x.node) (P.key e.fact) x.context →
      R.Owes P (.leave call (P.view.ownerOf x.node) x.node site) x.fact
        (.within e.context site) := by
    rintro e he rfl henters
    exact Owed.leave he hcall hm hstart henters hx hexit hsite
  obtain ⟨e₀, he₀, hnode₀, henters₀⟩ := hclaim
  have hask := hR.ask (howes e₀ he₀ hnode₀ henters₀) hkeeps₁.world
  apply Run.safe_bind
  refine ⟨?_, hask.fault⟩
  intro out w₂ hrun
  have hw₂ := (hask.result out w₂ hrun).1
  have hlands : ∀ e ∈ R.edges, e.node = call →
      R.enters call (P.view.ownerOf x.node) (P.key e.fact) x.context →
      ∀ g ∈ out, (⟨e.context, site, g⟩ : Edge φ κ) ∈ R.edges := by
    intro e he hnode henters g hg
    exact ((hR.ask (howes e he hnode henters) hkeeps₁.world).result out w₂ hrun).2 g hg _ rfl
  apply Run.safe_pure
  -- both loops only record edges, each in a context that is on file for a fact at the call
  have hcontexts : ∀ k ∈ facts, ∀ s', R.Keeps P s₁ s' w₂ → R.Keeps P s₁
      ((P.order.facts.lineUp s' (s'.contextsOf call k)).foldl
        (fun s c => s.propagateAll P.key c site out) s') w₂ := by
    intro k hk s' hkeeps'
    refine List.foldlRecOn (motive := fun s => R.Keeps P s₁ s w₂) _ _ hkeeps' ?_
    intro s'' hkeeps'' c hc
    rw [(P.order.facts.perm s' _).mem_iff, State.mem_contextsOf,
      hkeeps'.confines.coherent.holds_iff] at hc
    obtain ⟨e, he, rfl, hnode, rfl⟩ := hc
    rw [State.propagateAll_eq]
    refine hkeeps''.trans (hkeeps''.confines.keeps_recordAll hw₂ ?_)
    intro e' he'
    obtain ⟨g, hg, rfl⟩ := List.mem_map.mp he'
    exact hlands e (hkeeps'.confines.edges e he) hnode (hfacts _ hk) g hg
  refine List.foldlRecOn (motive := fun s => R.Keeps P s₁ s w₂) _ _
    (hkeeps₁.confines.keeps hw₂) ?_
  intro s' hkeeps' k hk
  exact hcontexts k hk s' hkeeps'

theorem safe_returnFrom (h : R.Confines P s) (hw : w ∈ R.worlds) {x : Edge φ κ} (hx : x ∈ R.edges)
    (hexit : P.view.isExit x.node = true) {start : StmtId}
    (hstart : start ∈ P.view.startsOf (P.view.ownerOf x.node)) :
    Run.Safe R.faults (P.returnFrom x (P.view.ownerOf x.node) s start) w (R.Keeps P s) := by
  unfold Problem.returnFrom
  have hfiled : R.Keeps P s (s.addSummary P.key start x.context x.node x.fact) w :=
    ⟨h.addSummary hx hexit hstart, hw, State.grows_addSummary ..⟩
  dsimp only
  refine (safe_loop _ ?_ hfiled.confines hw).mono fun _ _ h' => hfiled.trans h'
  intro call hcalls s₁ w₁ hkeeps₁
  rw [(P.order.calls.perm _ _).mem_iff, State.mem_callsInto] at hcalls
  -- a start belongs to one method only, so every claim on file is one on the method being left
  have hclaims : ∀ k, (x.context, call, k) ∈
      (s.addSummary P.key start x.context x.node x.fact).incoming.rows start →
      (∃ e ∈ R.edges, e.node = call ∧ P.key e.fact = k) ∧ P.view.isCall call = true ∧
      P.view.ownerOf x.node ∈ P.view.calleesOf call ∧
      R.enters call (P.view.ownerOf x.node) k x.context := by
    intro k hrow
    obtain ⟨hedge, hcall, m, hm, hstart', henters⟩ := hfiled.confines.incoming hrow
    have hmethod : m = P.view.ownerOf x.node := (hv _ _ hstart').symm.trans (hv _ _ hstart)
    subst hmethod
    exact ⟨hedge, hcall, hm, henters⟩
  obtain ⟨k₀, hrow₀⟩ := hcalls
  obtain ⟨⟨e₀, he₀, hnode₀, hkey₀⟩, hcall, hm, henters₀⟩ := hclaims k₀ hrow₀
  rw [← hkey₀] at henters₀
  refine safe_returnTo hR hkeeps₁.confines hkeeps₁.world hx hexit hstart hcall hm
    ⟨e₀, he₀, hnode₀, henters₀⟩ ?_
  intro k hk
  rw [(P.order.facts.perm _ _).mem_iff, State.mem_factsInto] at hk
  exact (hclaims k hk).2.2.2

omit hv in
theorem safe_returnUnbalanced (h : R.Confines P s) (hw : w ∈ R.worlds) {x : Edge φ κ}
    (hx : x ∈ R.edges) (hexit : P.view.isExit x.node = true) (hun : P.unbalanced = true) :
    Run.Safe R.faults (P.returnUnbalanced x (P.view.ownerOf x.node) s) w (R.Keeps P s) := by
  unfold Problem.returnUnbalanced
  have hreleased : x ∈ (Progress.full R.edges R.edges).released := ⟨hx, hx⟩
  split
  · next hnone =>
    have howes : R.Owes P (.depart (P.view.ownerOf x.node) x.node) x.fact .nowhere :=
      Owed.release hun hreleased hexit (.departure hnone)
    have hask := hR.ask howes hw
    apply Run.safe_bind
    refine ⟨?_, ?_⟩
    · intro u w₁ hrun
      apply Run.safe_pure
      -- asking for a departure is departing and answering with nothing
      have hasked : (P.ask (.depart (P.view.ownerOf x.node) x.node) x.fact).run w =
          .ok ([], w₁) := by
        unfold Problem.ask
        rw [StateT.run_bind, hrun]
        rfl
      exact h.keeps (hask.result [] w₁ hasked).1
    · intro fault hrun
      apply hask.fault
      unfold Problem.ask
      rw [StateT.run_bind, hrun]
      rfl
  · refine safe_loop _ ?_ h hw
    intro call hcall s₁ w₁ hkeeps₁
    refine safe_loop _ ?_ hkeeps₁.confines hkeeps₁.world
    intro site hsite s₂ w₂ hkeeps₂
    have howes : R.Owes P (.leave call (P.view.ownerOf x.node) x.node site) x.fact
        (if P.isZero x.context then .within P.zero site else .anew site) :=
      Owed.release hun hreleased hexit (.toCaller hcall hsite)
    apply Run.safe_bind
    refine (hR.ask howes hkeeps₂.world).mono ?_
    rintro out w₃ ⟨hw₃, hlands⟩
    apply Run.safe_pure
    refine List.foldlRecOn (motive := fun s => R.Keeps P s₂ s w₃) _ _
      (hkeeps₂.confines.keeps hw₃) ?_
    intro s' hkeeps' g hg
    have hedge : (⟨if P.isZero x.context then P.zero else P.key g, site, g⟩ : Edge φ κ) ∈
        R.edges := by
      apply hlands g hg
      split <;> rfl
    exact hkeeps'.trans ⟨hkeeps'.confines.propagate hedge, hw₃, State.grows_propagate ..⟩

theorem safe_passExit (h : R.Confines P s) (hw : w ∈ R.worlds) {x : Edge φ κ} (hx : x ∈ R.edges)
    (hexit : P.view.isExit x.node = true) :
    Run.Safe R.faults (P.passExit x s) w (R.Keeps P s) := by
  unfold Problem.passExit
  dsimp only
  apply Run.safe_bind
  have hstarts : Run.Safe R.faults ((P.view.startsOf (P.view.ownerOf x.node)).foldlM
      (P.returnFrom x (P.view.ownerOf x.node)) s) w (R.Keeps P s) := by
    refine safe_loop _ ?_ h hw
    intro start hstart s₁ w₁ hkeeps
    exact safe_returnFrom hR hv hkeeps.confines hkeeps.world hx hexit hstart
  refine hstarts.mono ?_
  intro s₁ w₁ hkeeps₁
  split
  · next hfree =>
    rw [Bool.and_eq_true] at hfree
    refine (safe_returnUnbalanced hR hkeeps₁.confines hkeeps₁.world hx hexit hfree.1).mono ?_
    intro s₂ w₂ hkeeps₂
    exact hkeeps₁.trans hkeeps₂
  · exact Run.safe_pure hkeeps₁

/-! ## Steps -/

theorem safe_cross (h : R.Confines P s) (hw : w ∈ R.worlds) {e : Edge φ κ} (he : e ∈ R.edges) :
    Run.Safe R.faults (P.cross s e) w (R.Keeps P s) := by
  -- what is left to do once the call, if it is one, has been passed
  have hexit : ∀ s₁ w₁, R.Keeps P s s₁ w₁ → Run.Safe R.faults
      (if P.view.isExit e.node = true then P.passExit e s₁ else pure s₁) w₁ (R.Keeps P s) := by
    intro s₁ w₁ hkeeps₁
    split
    · next hexit =>
      refine (safe_passExit hR hv hkeeps₁.confines hkeeps₁.world he hexit).mono ?_
      intro s₂ w₂ hkeeps₂
      exact hkeeps₁.trans hkeeps₂
    · exact Run.safe_pure hkeeps₁
  unfold Problem.cross
  by_cases hsize : P.view.size ≤ e.node.index
  · simp only [hsize, if_true]
    -- an edge outside the program is a fault that the region allows
    have hfault : R.faults (.unknownStatement e.node) := by
      rcases hR.ranged e he with hin | hfault
      · omega
      · exact hfault
    exact Run.safe_bind (Run.safe_throw hfault)
  · simp only [hsize, if_false]
    by_cases hcall : P.view.isCall e.node = true
    · simp only [hcall, if_true]
      exact Run.safe_bind ((safe_passCall hR hv h hw he hcall).mono hexit)
    · simp only [hcall]
      exact Run.safe_bind (Run.safe_pure (hexit s w (h.keeps hw)))

omit hv in
theorem safe_advance (h : R.Confines P s) (hw : w ∈ R.worlds) {batch : List (Edge φ κ)}
    (hbatch : ∀ e ∈ batch, e ∈ R.edges) :
    Run.Safe R.faults (P.advance batch s) w (R.Keeps P s) := by
  unfold Problem.advance
  apply Run.safe_bind
  refine (Run.safe_collect (J := (· ∈ R.worlds))
    (A := fun m out _ => ∀ d ∈ out, (⟨m.edge.context, m.succ, d⟩ : Edge φ κ) ∈ R.edges)
    (fun i hi => P.order.mem_schedule s hi) ?_ hw).mono ?_
  · intro m hm w₁ hw₁
    obtain ⟨he, hcall, hsucc⟩ := Problem.mem_flowsOf.mp hm
    have howes : R.Owes P (.normal m.edge.node m.succ) m.edge.fact
        (.within m.edge.context m.succ) :=
      Owed.normal (hbatch _ he) hcall hsucc
    refine (hR.ask howes hw₁).mono ?_
    rintro out w₂ ⟨hw₂, hlands⟩
    exact ⟨hw₂, fun d hd => hlands d hd _ rfl, fun _ _ hout => hout⟩
  · rintro answers w' ⟨hw', hanswers⟩
    apply Run.safe_pure
    rw [Problem.land_eq]
    refine h.keeps_recordAll hw' ?_
    intro e he
    obtain ⟨m, -, out, hlands, d, hd, rfl⟩ := exists_of_mem_landings hanswers he
    exact hlands d hd

end

/-- The table inside the region and its inbox, with the cursor inside the table. -/
structure Admits (R : Region φ κ σ) (P : Problem φ κ σ) (s : State φ κ) : Prop where
  confines : R.Confines P s
  inbox : ∀ e ∈ s.inbox, e ∈ R.edges
  cursor : s.processed ≤ s.edges.size

theorem Admits.empty : R.Admits P {} := ⟨.empty, nofun, le_refl 0⟩

theorem Admits.ofSeeds {zero : κ} {seeds : List (StmtId × φ)}
    (h : ∀ r ∈ seeds, (⟨zero, r.1, r.2⟩ : Edge φ κ) ∈ R.edges) :
    R.Admits P (State.ofSeeds P.key zero seeds) := by
  rw [State.ofSeeds_eq]
  have hgrows : ({} : State φ κ).Grows (State.recordAll P.key {}
      (seeds.map fun r => (⟨zero, r.1, r.2⟩ : Edge φ κ))) := State.grows_recordAll _
  refine ⟨Confines.empty.recordAll ?_, ?_, ?_⟩
  · intro e he
    obtain ⟨r, hr, rfl⟩ := List.mem_map.mp he
    exact h r hr
  · rw [hgrows.inbox]
    exact nofun
  · rw [hgrows.processed]
    exact Nat.zero_le _

theorem Admits.inject (h : R.Admits P s) {es : List (Edge φ κ)} (hes : ∀ e ∈ es, e ∈ R.edges) :
    R.Admits P (s.inject es) := by
  refine ⟨h.confines.congr rfl rfl rfl rfl, ?_, h.cursor⟩
  intro e he
  rcases List.mem_append.mp he with hold | hnew
  · exact h.inbox e hold
  · exact hes e hnew

/-- What a step from `s` in the world `w` comes to. -/
structure Stepped (R : Region φ κ σ) (P : Problem φ κ σ) (s : State φ κ) (w : σ)
    (r : State φ κ × Bool) (w' : σ) : Prop where
  admits : R.Admits P r.1
  world : w' ∈ R.worlds
  emptied : r.1.inbox = []
  /-- A busy step works an edge off. -/
  busy : r.2 = true → s.processed < r.1.processed
  /-- A step that is not busy has nothing left to do, and has asked nothing. -/
  idle : r.2 = false → r.1.processed = s.processed ∧ r.1.isIdle = true ∧ w' = w

/-- Draining moves the inbox into the table. -/
theorem Admits.drain (h : R.Admits P s) : R.Admits P (s.drain P.key) ∧
    (s.drain P.key).inbox = [] ∧ (s.drain P.key).processed = s.processed := by
  obtain ⟨m, hm⟩ : ∃ m, s.drain P.key =
      { ({ s with inbox := [] } : State φ κ).recordAll P.key s.inbox with injected := m } :=
    State.drain_eq
  have hempty : R.Confines P ({ s with inbox := [] } : State φ κ) :=
    h.confines.congr rfl rfl rfl rfl
  have hgrows : ({ s with inbox := [] } : State φ κ).Grows
      (({ s with inbox := [] } : State φ κ).recordAll P.key s.inbox) := State.grows_recordAll _
  refine ⟨⟨?_, ?_, ?_⟩, State.inbox_drain, State.processed_drain⟩
  · rw [hm]
    exact (hempty.recordAll h.inbox).congr rfl rfl rfl rfl
  · rw [State.inbox_drain]
    exact nofun
  · rw [State.processed_drain, hm]
    have hlonger := hgrows.edges.length_le
    simp only [Array.length_toList] at hlonger
    exact h.cursor.trans hlonger

/-- Working a batch off keeps the state inside. -/
theorem safe_batch (hR : R.Closed P) (hv : P.view.StartsOwned) (h : R.Confines P s)
    (hw : w ∈ R.worlds) {batch : List (Edge φ κ)} (hbatch : ∀ e ∈ batch, e ∈ R.edges) :
    Run.Safe R.faults (do
      let s ← batch.foldlM P.cross s
      P.advance batch s) w (R.Keeps P s) := by
  apply Run.safe_bind
  have hcross : Run.Safe R.faults (batch.foldlM P.cross s) w (R.Keeps P s) := by
    refine safe_loop _ ?_ h hw
    intro e he s₁ w₁ hkeeps
    exact safe_cross hR hv hkeeps.confines hkeeps.world (hbatch e he)
  refine hcross.mono ?_
  intro s₁ w₁ hkeeps₁
  exact (safe_advance hR hkeeps₁.confines hkeeps₁.world hbatch).mono fun _ _ h' =>
    hkeeps₁.trans h'

theorem safe_step (hR : R.Closed P) (hv : P.view.StartsOwned) (h : R.Admits P s)
    (hw : w ∈ R.worlds) (batchSize : Nat) :
    Run.Safe R.faults (P.step batchSize s) w (R.Stepped P s w) := by
  unfold Problem.step
  obtain ⟨hdrained, hinbox, hprocessed⟩ := h.drain
  generalize s.drain P.key = s₁ at hdrained hinbox hprocessed
  dsimp only
  split
  · next hempty =>
    apply Run.safe_pure
    have hdone := State.size_le_of_batch_isEmpty (by omega) hempty
    refine ⟨hdrained, hw, hinbox, nofun, fun _ => ⟨hprocessed, ?_, rfl⟩⟩
    unfold State.isIdle
    rw [hinbox]
    simpa using hdone
  · next hbusy =>
    have hmoved := State.length_batch_le (max batchSize 1) hdrained.cursor
    have hmem : ∀ e ∈ s₁.batch (max batchSize 1), e ∈ R.edges := fun e he =>
      hdrained.confines.edges e (State.mem_edges_of_mem_batch he)
    have hnonempty : 0 < (s₁.batch (max batchSize 1)).length := by
      rw [List.length_pos_iff, ← List.isEmpty_eq_false_iff]
      simpa using hbusy
    have hstarted : R.Confines P { s₁ with
        processed := s₁.processed + (s₁.batch (max batchSize 1)).length
        iterations := s₁.iterations + 1 } :=
      hdrained.confines.congr rfl rfl rfl rfl
    have hwork := safe_batch hR hv hstarted hw hmem
    rw [← bind_assoc]
    apply Run.safe_bind
    refine hwork.mono ?_
    intro s₂ w₂ hkeeps
    apply Run.safe_pure
    have hgrown := hkeeps.grows.edges.length_le
    simp only [Array.length_toList] at hgrown
    have hprocessed₂ := hkeeps.grows.processed
    have hinbox₂ := hkeeps.grows.inbox
    refine ⟨⟨hkeeps.confines, ?_, ?_⟩, hkeeps.world, ?_, fun _ => ?_, nofun⟩
    · rw [hinbox₂]
      exact hdrained.inbox
    · rw [hprocessed₂]
      exact hmoved.trans hgrown
    · rw [hinbox₂]
      exact hinbox
    · rw [hprocessed₂]
      dsimp only
      omega

end Region

/-! ## Keys everywhere -/

/-- Path edges at statements of the program, with a property of keys for contexts and facts. -/
def edgesAt (p : Program) (key : φ → κ) (Q : κ → Prop) : Set (Edge φ κ) :=
  {e | p.Has e.node ∧ Q e.context ∧ Q (key e.fact)}

/-- What is asked about such edges is asked about a fact with the property, and lands at a statement
of the program in a context with the property. -/
theorem edgesAt_of_owed {p : Program} (hp : p.Built) {d : Direction} {P : Problem φ κ σ}
    (hview : P.view = p.view d) {Q : κ → Prop} (hzero : Q P.zero)
    {enters : StmtId → MethodId → φ → κ → Prop} {R : Set (Edge φ κ)} {q : Query} {f : φ}
    {l : Landing κ} (howed : Owed P enters (.full (edgesAt p P.key Q) R) q f l) :
    Q (P.key f) ∧ ∀ g : φ, Q (P.key g) → ∀ e ∈ l.edge? P.key g, e ∈ edgesAt p P.key Q := by
  have hsucc : ∀ {s t : StmtId}, t ∈ P.view.succsOf s → p.Has t := by
    intro s t ht
    rw [hview] at ht
    exact hp.has_of_mem_succsOf ht
  have hwithin : ∀ {context : κ} {site : StmtId}, Q context → p.Has site →
      ∀ g : φ, Q (P.key g) → ∀ e ∈ (Landing.within context site).edge? P.key g,
        e ∈ edgesAt p P.key Q := by
    intro context site hcontext hsite g hg e he
    cases he
    exact ⟨hsite, hcontext, hg⟩
  have hanew : ∀ {site : StmtId}, p.Has site → ∀ g : φ, Q (P.key g) →
      ∀ e ∈ (Landing.anew site).edge? P.key g, e ∈ edgesAt p P.key Q := by
    intro site hsite g hg e he
    cases he
    exact ⟨hsite, hg, hg⟩
  have hnowhere : ∀ g : φ, Q (P.key g) →
      ∀ e ∈ Landing.nowhere.edge? P.key g, e ∈ edgesAt p P.key Q := by
    intro g _ e he
    cases he
  cases howed with
  | normal he _ hs => exact ⟨he.2.2, hwithin he.2.1 (hsucc hs)⟩
  | bypass he _ hs => exact ⟨he.2.2, hwithin he.2.1 (hsucc hs)⟩
  | call he _ _ => exact ⟨he.2.2, hnowhere⟩
  | enter he _ _ hs =>
    rw [hview] at hs
    exact ⟨he.2.2, hanew (hp.has_of_mem_startsOf hs)⟩
  | leave hc _ _ _ _ hx _ hs => exact ⟨hx.2.2, hwithin hc.2.1 (hsucc hs)⟩
  | release _ hx _ hrel =>
    refine ⟨hx.1.2.2, ?_⟩
    cases hrel with
    | toCaller _ hs =>
      split
      · exact hwithin hzero (hsucc hs)
      · exact hanew (hsucc hs)
    | departure _ => exact hnowhere

end TaintFlow.Tabulation
