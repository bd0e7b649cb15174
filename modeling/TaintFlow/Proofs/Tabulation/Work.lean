import TaintFlow.Proofs.Program.Built
import TaintFlow.Proofs.Tabulation.Owed

/-!
# What each part of a step does

One lemma for every function of the solver. Each says the same three things of the states and worlds
before and after:

* `Valid`: the state is sane, and every path edge in it is justified;
* `Extends`: nothing was lost;
* which debts are settled.

A path edge is justified if it lies in every set that contains the edges at the start of the step
and is closed under the answers to what is owed. The world is taken along, so that a closed set may
also constrain what flow functions do to it.
-/

namespace TaintFlow.Tabulation

variable {φ κ σ : Type}

/-- Answers to what is owed to edges in `I` stay in `I`, and stay within the worlds `W`. The edges
in `R` may be let out into every caller. -/
def Ledger.Closed {P : Problem φ κ σ} (L : Ledger P) (R I : Set (Edge φ κ)) (W : Set σ) : Prop :=
  ∀ q f l w out w', Owed P L.EntersAlike (.full I R) q f l → w ∈ W →
    (P.ask q f).run w = .ok (out, w') → w' ∈ W ∧ ∀ d ∈ out, ∀ e ∈ l.edge? P.key d, e ∈ I

/-- Fewer edges let out ask for less. -/
theorem Ledger.Closed.anti {P : Problem φ κ σ} {L : Ledger P} {R R' I : Set (Edge φ κ)} {W : Set σ}
    (h : L.Closed R' I W) (hR : R ⊆ R') : L.Closed R I W := by
  intro q f l w out w' howed hw hask
  have hle : (Progress.full I R).Le (.full I R') := Progress.full_le (subset_refl I) hR
  exact h q f l w out w' (howed.mono hle fun _ _ _ _ h => h) hw hask

/-- What a stretch of work starts from: the edges that may be let out, the edges recorded already,
and the world. -/
structure Base (φ κ σ : Type) where
  released : Set (Edge φ κ)
  edges : Set (Edge φ κ)
  world : σ

namespace Base

variable {P : Problem φ κ σ} (b : Base φ κ σ) (L : Ledger P)

/-- The edges in every closed set that contains the base. -/
def justified : Set (Edge φ κ) :=
  {e | ∀ I W, L.Closed b.released I W → b.edges ⊆ I → b.world ∈ W → e ∈ I}

/-- The worlds in every closed set that contains the base. -/
def worlds : Set σ :=
  {w | ∀ I W, L.Closed b.released I W → b.edges ⊆ I → b.world ∈ W → w ∈ W}

/-- A debt to justified edges. -/
def Owes (q : Query) (f : φ) (l : Landing κ) : Prop :=
  Owed P L.EntersAlike (.full (b.justified L) b.released) q f l

variable {b L}

theorem mem_justified {e : Edge φ κ} (he : e ∈ b.edges) : e ∈ b.justified L :=
  fun _ _ _ hedges _ => hedges he

theorem mem_worlds : b.world ∈ b.worlds L := fun _ _ _ _ hworld => hworld

theorem justified_closed : L.Closed b.released (b.justified L) (b.worlds L) := by
  intro q f l w out w' howed hw hask
  have hstep : ∀ I W, L.Closed b.released I W → b.edges ⊆ I → b.world ∈ W →
      w' ∈ W ∧ ∀ d ∈ out, ∀ e ∈ l.edge? P.key d, e ∈ I := by
    intro I W hclosed hedges hworld
    have hsub : b.justified L ⊆ I := fun e he => he I W hclosed hedges hworld
    have howed' : Owed P L.EntersAlike (.full I b.released) q f l :=
      howed.mono (Progress.full_le hsub (subset_refl _)) fun _ _ _ _ h => h
    exact hclosed q f l w out w' howed' (hw I W hclosed hedges hworld) hask
  constructor
  · intro I W hclosed hedges hworld
    exact (hstep I W hclosed hedges hworld).1
  · intro d hd e he I W hclosed hedges hworld
    exact (hstep I W hclosed hedges hworld).2 d hd e he

end Base

variable [DecidableEq κ] {P : Problem φ κ σ}

/-- The state is sane, and it and the world are justified. -/
structure Valid (L : Ledger P) (b : Base φ κ σ) (s : State φ κ) (w : σ) : Prop where
  sane : Sane L s
  edges : ∀ e ∈ s.edges, e ∈ b.justified L
  world : w ∈ b.worlds L

section

variable {L : Ledger P} {b : Base φ κ σ} {s : State φ κ} {w : σ}

theorem Valid.recordAll (h : Valid L b s w) {es : List (Edge φ κ)}
    (hes : ∀ e ∈ es, e ∈ b.justified L) : Valid L b (s.recordAll P.key es) w where
  sane := h.sane.recordAll es
  edges e he := by
    rcases State.mem_edges_recordAll he with hold | hnew
    · exact h.edges e hold
    · exact hes e hnew
  world := h.world

/-- Letting more edges out justifies no less. -/
theorem Valid.release (h : Valid L b s w) {R : Set (Edge φ κ)} (hR : b.released ⊆ R) :
    Valid L { b with released := R } s w where
  sane := h.sane
  edges e he I W hclosed := h.edges e he I W (hclosed.anti hR)
  world I W hclosed := h.world I W (hclosed.anti hR)

/-! ## Asking -/

/-- An answer to something owed keeps the world valid, goes on record, and justifies the edges by
which its facts land wherever it is owed. -/
theorem ensures_ask (h : Valid L b s w) {q : Query} {f : φ} {l : Landing κ}
    (howed : b.Owes L q f l) :
    Run.Ensures (P.ask q f) w fun out w' => Valid L b s w' ∧ Extends L s w s w' ∧
      L.Answered w' q f out ∧
      ∀ l', b.Owes L q f l' → ∀ d ∈ out, ∀ e ∈ l'.edge? P.key d, e ∈ b.justified L := by
  intro out w' hask
  refine ⟨⟨h.sane, h.edges, ?_⟩, ⟨.refl s, ?_⟩, L.answered hask, ?_⟩
  · exact (Base.justified_closed q f l w out w' howed h.world hask).1
  · intro q' f' out' hold
    exact L.kept hask hold
  · intro l' howed'
    exact (Base.justified_closed q f l' w out w' howed' h.world hask).2

/-- Record an answer where it is owed. -/
theorem settled_recordAll {q : Query} {f : φ} {l : Landing κ} {out : List φ}
    (hout : L.Answered w q f out) {es : List (Edge φ κ)}
    (hes : ∀ d ∈ out, ∀ e ∈ l.edge? P.key d, e ∈ es) :
    Settled L (s.recordAll P.key es) w q f l := by
  refine ⟨out, hout, ?_⟩
  intro d hd e he
  exact State.holds_recordAll.mpr (Or.inr ⟨e, hes d hd e he, rfl, rfl, rfl⟩)

theorem extends_recordAll (s : State φ κ) (w : σ) (es : List (Edge φ κ)) :
    Extends L s w (s.recordAll P.key es) w :=
  ⟨State.grows_recordAll es, fun _ _ _ h => h⟩

/-- Ask one question and record its answer where it lands. -/
theorem ensures_settleBy (h : Valid L b s w) {q : Query} {f : φ} {l : Landing κ}
    (howed : b.Owes L q f l) {toEdge : φ → Edge φ κ}
    (hlands : ∀ d, l.edge? P.key d = some (toEdge d)) :
    Run.Ensures (do
      let out ← P.ask q f
      return s.recordAll P.key (out.map toEdge)) w fun s' w' =>
        Valid L b s' w' ∧ Extends L s w s' w' ∧ Settled L s' w' q f l := by
  apply Run.ensures_bind
  refine (ensures_ask h howed).mono ?_
  rintro out w' ⟨hvalid, hext, hout, hjust⟩
  apply Run.ensures_pure
  refine ⟨hvalid.recordAll ?_, hext.trans (extends_recordAll s w' _), settled_recordAll hout ?_⟩
  · intro e he
    obtain ⟨d, hd, rfl⟩ := List.mem_map.mp he
    exact hjust _ howed d hd _ (hlands d)
  · intro d hd e he
    rw [hlands d] at he
    cases he
    exact List.mem_map_of_mem hd

/-- The common case: the answer lands in one context. -/
theorem ensures_settle (h : Valid L b s w) {q : Query} {f : φ} {c : κ} {n : StmtId}
    (howed : b.Owes L q f (.within c n)) :
    Run.Ensures (do
      let out ← P.ask q f
      return s.propagateAll P.key c n out) w fun s' w' =>
        Valid L b s' w' ∧ Extends L s w s' w' ∧ Settled L s' w' q f (.within c n) := by
  simp only [State.propagateAll_eq]
  exact ensures_settleBy h howed fun _ => rfl

/-- The loop rule for solver states. -/
theorem ensures_loop {α : Type} {f : State φ κ → α → Run σ (State φ κ)}
    {D : α → State φ κ → σ → Prop} (l : List α)
    (stable : ∀ a s w s' w', Extends L s w s' w' → D a s w → D a s' w')
    (step : ∀ a ∈ l, ∀ s' w', Valid L b s' w' → Extends L s w s' w' →
      Run.Ensures (f s' a) w' fun s'' w'' =>
        Valid L b s'' w'' ∧ Extends L s' w' s'' w'' ∧ D a s'' w'')
    (h : Valid L b s w) :
    Run.Ensures (l.foldlM f s) w fun s' w' =>
      Valid L b s' w' ∧ Extends L s w s' w' ∧ ∀ a ∈ l, D a s' w' :=
  Run.ensures_foldlM l Extends.refl (fun _ _ _ _ _ _ h h' => h.trans h') stable step h

/-! ## Calls -/

/-- Counters are no part of what is valid. -/
theorem Valid.count (h : Valid L b s w) (m : Nat) : Valid L b { s with reuses := m } w :=
  ⟨h.sane.congr rfl rfl rfl rfl, h.edges, h.world⟩

theorem extends_count (s : State φ κ) (w : σ) (m : Nat) :
    Extends L s w { s with reuses := m } w :=
  ⟨⟨rfl, rfl, List.prefix_refl _, id, id, id⟩, fun _ _ _ h => h⟩

theorem ensures_reuseSummaries (hv : P.view.StartsOwned) (h : Valid L b s w) {e : Edge φ κ}
    (he : e ∈ b.justified L) (hcall : P.view.isCall e.node = true) {callee : MethodId}
    {start : StmtId} {entry : κ} (hm : callee ∈ P.view.calleesOf e.node)
    (hstart : start ∈ P.view.startsOf callee) (hent : L.Enters e.node callee e.fact entry) :
    Run.Ensures (P.reuseSummaries e callee start entry s) w fun s' w' =>
      Valid L b s' w' ∧ Extends L s w s' w' ∧
      ∀ exit f, (entry, exit, f) ∈ s.summaries.rows start → ∀ site ∈ P.view.returnSitesOf e.node,
        Settled L s' w' (.leave e.node callee exit site) f (.within e.context site) := by
  unfold Problem.reuseSummaries
  refine Run.Ensures.mono (ensures_loop
    (D := fun r s' w' => ∀ site ∈ P.view.returnSitesOf e.node,
      Settled L s' w' (.leave e.node callee r.1 site) r.2 (.within e.context site)) _ ?_ ?_ h) ?_
  · intro r s₁ w₁ s₂ w₂ hext hdone site hsite
    exact (hdone site hsite).mono hext
  · rintro ⟨exit, f⟩ hr s₁ w₁ hvalid hext
    rw [(P.order.summaries.perm s _).mem_iff] at hr
    obtain ⟨hx, hexit, hown⟩ := h.sane.summaries (State.mem_summariesOf.mp hr)
    -- the start belongs to one method only, so the summary is one of this callee
    have hcallee : P.view.ownerOf exit = callee := (hv _ _ hown).symm.trans (hv _ _ hstart)
    subst hcallee
    refine Run.Ensures.mono (ensures_loop
      (D := fun site s' w' => Settled L s' w' (.leave e.node (P.view.ownerOf exit) exit site) f
        (.within e.context site)) _ ?_ ?_ (hvalid.count _)) ?_
    · intro site s₁ w₁ s₂ w₂ hext hdone
      exact hdone.mono hext
    · intro site hsite s₂ w₂ hvalid₂ _
      have howed : b.Owes L (.leave e.node (P.view.ownerOf exit) exit site) f
          (.within e.context site) :=
        Owed.leave (c := e) (x := ⟨entry, exit, f⟩) he hcall hm hown ⟨e.fact, rfl, hent⟩
          (h.edges _ hx) hexit hsite
      exact ensures_settle hvalid₂ howed
    · rintro s₂ w₂ ⟨hvalid₂, hext₂, hdone⟩
      exact ⟨hvalid₂, (extends_count s₁ w₁ _).trans hext₂, hdone⟩
  · rintro s' w' ⟨hvalid, hext, hdone⟩
    refine ⟨hvalid, hext, ?_⟩
    intro exit f hrow
    apply hdone (exit, f)
    rw [(P.order.summaries.perm s _).mem_iff]
    exact State.mem_summariesOf.mpr hrow

end

/-- The call edge `e` has brought the context `k` to `start`, and has followed the summaries that
were on file in `s`. -/
structure Brought (L : Ledger P) (s : State φ κ) (e : Edge φ κ) (callee : MethodId) (start : StmtId)
    (k : κ) (s' : State φ κ) (w' : σ) : Prop where
  holds : s'.holds k start k = true
  row : (k, e.node, P.key e.fact) ∈ s'.incoming.rows start
  reused : ∀ exit f, (k, exit, f) ∈ s.summaries.rows start →
    ∀ site ∈ P.view.returnSitesOf e.node,
      Settled L s' w' (.leave e.node callee exit site) f (.within e.context site)

section

variable {L : Ledger P} {b : Base φ κ σ} {s : State φ κ} {w : σ}

theorem Brought.mono {e : Edge φ κ} {callee : MethodId} {start : StmtId} {k : κ}
    {s' s'' : State φ κ} {w' w'' : σ} (h : Brought L s e callee start k s' w')
    (hext : Extends L s' w' s'' w'') : Brought L s e callee start k s'' w'' where
  holds := hext.grows.holds h.holds
  row := hext.grows.incoming h.row
  reused exit f hrow site hsite := (h.reused exit f hrow site hsite).mono hext

/-- Summaries that were on file earlier are still on file. -/
theorem Brought.since {e : Edge φ κ} {callee : MethodId} {start : StmtId} {k : κ}
    {s₁ s' : State φ κ} {w' : σ} (h : Brought L s₁ e callee start k s' w') (hs : s.Grows s₁) :
    Brought L s e callee start k s' w' where
  holds := h.holds
  row := h.row
  reused exit f hrow := h.reused exit f (hs.summaries hrow)

theorem Sane.addCaller (h : Sane L s) {e : Edge φ κ} (he : e ∈ s.edges)
    (hcall : P.view.isCall e.node = true) {callee : MethodId} {start : StmtId} {k : κ}
    (hm : callee ∈ P.view.calleesOf e.node) (hstart : start ∈ P.view.startsOf callee)
    (hent : L.Enters e.node callee e.fact k) :
    Sane L (s.addCaller start k e.node (P.key e.fact)) where
  coherent := h.coherent.congr (State.edges_addCaller ..) (State.holds_addCaller start k _ _)
  incoming hrow := by
    rw [State.edges_addCaller]
    rcases State.mem_rows_addCaller.mp hrow with hold | ⟨rfl, heq⟩
    · exact h.incoming hold
    · cases heq
      exact ⟨e, he, rfl, rfl, hcall, callee, hm, hstart, hent⟩
  summaries hrow := by
    rw [State.edges_addCaller]
    rw [State.summaries_addCaller] at hrow
    exact h.summaries hrow

theorem ensures_enterWith (hv : P.view.StartsOwned) (h : Valid L b s w) {e : Edge φ κ}
    (he : e ∈ s.edges) (hcall : P.view.isCall e.node = true) {callee : MethodId}
    {start : StmtId} {entry : φ} (hm : callee ∈ P.view.calleesOf e.node)
    (hstart : start ∈ P.view.startsOf callee) (hent : L.Enters e.node callee e.fact (P.key entry))
    (hjust : (⟨P.key entry, start, entry⟩ : Edge φ κ) ∈ b.justified L) :
    Run.Ensures (P.enterWith e callee start s entry) w fun s' w' =>
      Valid L b s' w' ∧ Extends L s w s' w' ∧
      Brought L s e callee start (P.key entry) s' w' := by
  unfold Problem.enterWith
  have hrec : s.propagate P.key (P.key entry) start entry =
      s.recordAll P.key [⟨P.key entry, start, entry⟩] := rfl
  have hvalid₁ : Valid L b (s.propagate P.key (P.key entry) start entry) w := by
    rw [hrec]
    apply h.recordAll
    intro e' he'
    rw [List.mem_singleton.mp he']
    exact hjust
  have hgrows₁ : s.Grows (s.propagate P.key (P.key entry) start entry) :=
    State.grows_propagate _ _ _
  have hvalid₂ : Valid L b ((s.propagate P.key (P.key entry) start entry).addCaller start
      (P.key entry) e.node (P.key e.fact)) w := by
    refine ⟨hvalid₁.sane.addCaller (hgrows₁.mem_edges he) hcall hm hstart hent, ?_, h.world⟩
    rw [State.edges_addCaller]
    exact hvalid₁.edges
  have hgrows₂ : s.Grows ((s.propagate P.key (P.key entry) start entry).addCaller start
      (P.key entry) e.node (P.key e.fact)) := hgrows₁.trans (State.grows_addCaller _ _ _ _)
  refine (ensures_reuseSummaries hv hvalid₂ (h.edges e he) hcall hm hstart hent).mono ?_
  rintro s' w' ⟨hvalid, hext, hreused⟩
  refine ⟨hvalid, ⟨hgrows₂.trans hext.grows, hext.kept⟩, ?_, ?_, ?_⟩
  · apply hext.grows.holds
    rw [State.holds_addCaller]
    exact State.holds_propagate.mpr (Or.inr ⟨rfl, rfl, rfl⟩)
  · exact hext.grows.incoming (State.mem_rows_addCaller.mpr (Or.inr ⟨rfl, rfl⟩))
  · intro exit f hrow
    exact hreused exit f (hgrows₂.summaries hrow)

/-- Entering a callee asks the call flow once and brings every entry fact to every start. -/
theorem ensures_enterCallee (hv : P.view.StartsOwned) (h : Valid L b s w) {e : Edge φ κ}
    (he : e ∈ s.edges) (hcall : P.view.isCall e.node = true) {callee : MethodId}
    (hm : callee ∈ P.view.calleesOf e.node) :
    Run.Ensures (P.enterCallee e s callee) w fun s' w' =>
      Valid L b s' w' ∧ Extends L s w s' w' ∧
      (∃ out, L.Answered w' (.enter e.node callee) e.fact out) ∧
      ∀ k, L.Enters e.node callee e.fact k → ∀ start ∈ P.view.startsOf callee,
        Brought L s e callee start k s' w' := by
  unfold Problem.enterCallee
  apply Run.ensures_bind
  -- the question is owed even if the callee has no start at which its answer could land
  have hcallOwed : b.Owes L (.enter e.node callee) e.fact .nowhere :=
    Owed.call (h.edges e he) hcall hm
  refine (ensures_ask h hcallOwed).mono ?_
  rintro entries w₁ ⟨hvalid₁, hext₁, hout, hjust⟩
  refine Run.Ensures.mono (ensures_loop
    (D := fun start s' w' => ∀ entry ∈ entries, Brought L s e callee start (P.key entry) s' w')
    _ ?_ ?_ hvalid₁) ?_
  · intro start s₂ w₂ s₃ w₃ hext hdone entry hentry
    exact (hdone entry hentry).mono hext
  · intro start hstart s₂ w₂ hvalid₂ hext₂
    refine ensures_loop
      (D := fun entry s' w' => Brought L s e callee start (P.key entry) s' w') _ ?_ ?_ hvalid₂
    · intro entry s₃ w₃ s₄ w₄ hext hdone
      exact hdone.mono hext
    · intro entry hentry s₃ w₃ hvalid₃ hext₃
      have hgrows : s.Grows s₃ := hext₂.grows.trans hext₃.grows
      have hent : L.Enters e.node callee e.fact (P.key entry) :=
        (L.enters_iff hout).mpr ⟨entry, hentry, rfl⟩
      have hlands : (⟨P.key entry, start, entry⟩ : Edge φ κ) ∈ b.justified L :=
        hjust (.anew start) (Owed.enter (h.edges e he) hcall hm hstart) entry hentry _ rfl
      have he₃ := hgrows.mem_edges he
      refine (ensures_enterWith hv hvalid₃ he₃ hcall hm hstart hent hlands).mono ?_
      rintro s₄ w₄ ⟨hvalid₄, hext₄, hbrought⟩
      exact ⟨hvalid₄, hext₄, hbrought.since hgrows⟩
  · rintro s' w' ⟨hvalid, hext, hdone⟩
    refine ⟨hvalid, hext₁.trans hext, ⟨entries, hext.kept _ _ _ hout⟩, ?_⟩
    intro k hk start hstart
    obtain ⟨entry, hentry, rfl⟩ := (L.enters_iff hout).mp hk
    exact hdone start hstart entry hentry

/-- What is done for a call edge once it has been passed. -/
structure Passed (L : Ledger P) (s : State φ κ) (e : Edge φ κ) (s' : State φ κ) (w' : σ) :
    Prop where
  bypassed : ∀ site ∈ P.view.returnSitesOf e.node,
    Settled L s' w' (.bypass e.node site) e.fact (.within e.context site)
  asked : ∀ callee ∈ P.view.calleesOf e.node, ∃ out, L.Answered w' (.enter e.node callee) e.fact out
  brought : ∀ callee ∈ P.view.calleesOf e.node, ∀ k, L.Enters e.node callee e.fact k →
    ∀ start ∈ P.view.startsOf callee, Brought L s e callee start k s' w'

theorem ensures_passCall (hv : P.view.StartsOwned) (h : Valid L b s w) {e : Edge φ κ}
    (he : e ∈ s.edges) (hcall : P.view.isCall e.node = true) :
    Run.Ensures (P.passCall e s) w fun s' w' =>
      Valid L b s' w' ∧ Extends L s w s' w' ∧ Passed L s e s' w' := by
  unfold Problem.passCall
  apply Run.ensures_bind
  refine Run.Ensures.mono (ensures_loop
    (D := fun callee s' w' => (∃ out, L.Answered w' (.enter e.node callee) e.fact out) ∧
      ∀ k, L.Enters e.node callee e.fact k → ∀ start ∈ P.view.startsOf callee,
        Brought L s e callee start k s' w') _ ?_ ?_ h) ?_
  · rintro callee s₁ w₁ s₂ w₂ hext ⟨⟨out, hout⟩, hbrought⟩
    refine ⟨⟨out, hext.kept _ _ _ hout⟩, ?_⟩
    intro k hk start hstart
    exact (hbrought k hk start hstart).mono hext
  · intro callee hm s₁ w₁ hvalid₁ hext₁
    refine (ensures_enterCallee hv hvalid₁ (hext₁.grows.mem_edges he) hcall hm).mono ?_
    rintro s₂ w₂ ⟨hvalid₂, hext₂, hasked, hbrought⟩
    exact ⟨hvalid₂, hext₂, hasked, fun k hk start hstart =>
      (hbrought k hk start hstart).since hext₁.grows⟩
  · rintro s₁ w₁ ⟨hvalid₁, hext₁, hcallees⟩
    refine Run.Ensures.mono (ensures_loop
      (D := fun site s' w' => Settled L s' w' (.bypass e.node site) e.fact (.within e.context site))
      _ (fun _ _ _ _ _ hext hdone => hdone.mono hext) ?_ hvalid₁) ?_
    · intro site hsite s₂ w₂ hvalid₂ _
      have howed : b.Owes L (.bypass e.node site) e.fact (.within e.context site) :=
        Owed.bypass (h.edges e he) hcall hsite
      exact ensures_settle hvalid₂ howed
    · rintro s₂ w₂ ⟨hvalid₂, hext₂, hsites⟩
      refine ⟨hvalid₂, hext₁.trans hext₂, hsites, ?_, ?_⟩
      · intro callee hm
        obtain ⟨out, hout⟩ := (hcallees callee hm).1
        exact ⟨out, hext₂.kept _ _ _ hout⟩
      · intro callee hm k hk start hstart
        exact ((hcallees callee hm).2 k hk start hstart).mono hext₂

/-! ## Exits -/

/-- An exit edge is owed to every edge at a call that brought its context to a start. -/
theorem Valid.owes_leave (hv : P.view.StartsOwned) (h : Valid L b s w) {x : Edge φ κ}
    (hx : x ∈ s.edges) (hexit : P.view.isExit x.node = true) {start call : StmtId} {k : κ}
    (hstart : start ∈ P.view.startsOf (P.view.ownerOf x.node))
    (hrow : (x.context, call, k) ∈ s.incoming.rows start) {c : Edge φ κ} (hc : c ∈ b.justified L)
    (hnode : c.node = call) (hkey : P.key c.fact = k) {site : StmtId}
    (hsite : site ∈ P.view.returnSitesOf call) :
    b.Owes L (.leave call (P.view.ownerOf x.node) x.node site) x.fact (.within c.context site) := by
  -- the row was filed by an edge at this call; `c` may be another one with an equal fact
  obtain ⟨e, -, -, hek, hcall, m, hm, hstart', hent⟩ := h.sane.incoming hrow
  have hm' : m = P.view.ownerOf x.node := (hv _ _ hstart').symm.trans (hv _ _ hstart)
  subst hm' hnode
  exact Owed.leave hc hcall hm hstart ⟨e.fact, hek.trans hkey.symm, hent⟩ (h.edges x hx) hexit hsite

/-- Record an answer in every context of every one of `facts` before `call`. -/
theorem ensures_landInContexts (h : Valid L b s w) {call site : StmtId} {facts : List κ}
    {out : List φ}
    (hjust : ∀ k ∈ facts, ∀ c ∈ b.justified L, c.node = call → P.key c.fact = k → ∀ d ∈ out,
      (⟨c.context, site, d⟩ : Edge φ κ) ∈ b.justified L) :
    Run.Ensures (pure (facts.foldl (fun s fact =>
      (P.order.facts.lineUp s (s.contextsOf call fact)).foldl (fun s context =>
        s.propagateAll P.key context site out) s) s) : Run σ (State φ κ)) w fun s' w' =>
      Valid L b s' w' ∧ Extends L s w s' w' ∧
      ∀ k ∈ facts, ∀ c, s.holds c call k = true → ∀ d ∈ out, s'.holds c site (P.key d) = true := by
  rw [← List.foldlM_pure]
  refine ensures_loop (D := fun k s' _ => ∀ c, s.holds c call k = true → ∀ d ∈ out,
    s'.holds c site (P.key d) = true) _ ?_ ?_ h
  · intro k s₁ w₁ s₂ w₂ hext hdone c hc d hd
    exact hext.grows.holds (hdone c hc d hd)
  · intro k hk s₁ w₁ hvalid₁ hext₁
    rw [← List.foldlM_pure]
    refine Run.Ensures.mono (ensures_loop (D := fun c s' _ => ∀ d ∈ out,
      s'.holds c site (P.key d) = true) _ ?_ ?_ hvalid₁) ?_
    · intro c s₂ w₂ s₃ w₃ hext hdone d hd
      exact hext.grows.holds (hdone d hd)
    · intro c hc s₂ w₂ hvalid₂ _
      rw [(P.order.facts.perm s₁ _).mem_iff, State.mem_contextsOf,
        hvalid₁.sane.coherent.holds_iff] at hc
      obtain ⟨e, he, rfl, hnode, hkey⟩ := hc
      apply Run.ensures_pure
      rw [State.propagateAll_eq]
      refine ⟨hvalid₂.recordAll ?_, extends_recordAll s₂ w₂ _, ?_⟩
      · intro e' he'
        obtain ⟨d, hd, rfl⟩ := List.mem_map.mp he'
        exact hjust k hk e (hvalid₁.edges e he) hnode hkey d hd
      · intro d hd
        exact State.holds_recordAll.mpr
          (Or.inr ⟨⟨e.context, site, d⟩, List.mem_map_of_mem hd, rfl, rfl, rfl⟩)
    · rintro s₂ w₂ ⟨hvalid₂, hext₂, hdone⟩
      refine ⟨hvalid₂, hext₂, ?_⟩
      intro c hc
      apply hdone c
      rw [(P.order.facts.perm s₁ _).mem_iff, State.mem_contextsOf]
      exact hext₁.grows.holds hc

theorem ensures_returnTo (hv : P.view.StartsOwned) (h : Valid L b s w) {x : Edge φ κ}
    (hx : x ∈ s.edges) (hexit : P.view.isExit x.node = true) {start call : StmtId}
    (hstart : start ∈ P.view.startsOf (P.view.ownerOf x.node)) {facts : List κ} {k₀ : κ}
    (hk₀ : k₀ ∈ facts) (hrows : ∀ k ∈ facts, (x.context, call, k) ∈ s.incoming.rows start) :
    Run.Ensures (P.returnTo x (P.view.ownerOf x.node) call facts s) w fun s' w' =>
      Valid L b s' w' ∧ Extends L s w s' w' ∧
      ∀ site ∈ P.view.returnSitesOf call, ∀ k ∈ facts, ∀ c, s.holds c call k = true →
        Settled L s' w' (.leave call (P.view.ownerOf x.node) x.node site) x.fact
          (.within c site) := by
  unfold Problem.returnTo
  refine ensures_loop (D := fun site s' w' => ∀ k ∈ facts, ∀ c, s.holds c call k = true →
    Settled L s' w' (.leave call (P.view.ownerOf x.node) x.node site) x.fact (.within c site))
    _ ?_ ?_ h
  · intro site s₁ w₁ s₂ w₂ hext hdone k hk c hc
    exact (hdone k hk c hc).mono hext
  · intro site hsite s₁ w₁ hvalid₁ hext₁
    apply Run.ensures_bind
    have howes : ∀ k ∈ facts, ∀ c ∈ b.justified L, c.node = call → P.key c.fact = k →
        b.Owes L (.leave call (P.view.ownerOf x.node) x.node site) x.fact
          (.within c.context site) := by
      intro k hk c hc hnode hkey
      exact h.owes_leave hv hx hexit hstart (hrows k hk) hc hnode hkey hsite
    -- some edge at the call brought the context in, so the question is owed at all
    obtain ⟨e₀, he₀, hnode₀, hkey₀, -⟩ := h.sane.incoming (hrows k₀ hk₀)
    refine (ensures_ask hvalid₁ (howes k₀ hk₀ e₀ (h.edges e₀ he₀) hnode₀ hkey₀)).mono ?_
    rintro out w₂ ⟨hvalid₂, hext₂, hout, hjust⟩
    refine (ensures_landInContexts hvalid₂ ?_).mono ?_
    · intro k hk c hc hnode hkey d hd
      exact hjust _ (howes k hk c hc hnode hkey) d hd _ rfl
    · rintro s₃ w₃ ⟨hvalid₃, hext₃, hlanded⟩
      refine ⟨hvalid₃, hext₂.trans hext₃, ?_⟩
      intro k hk c hc
      refine ⟨out, hext₃.kept _ _ _ hout, ?_⟩
      intro d hd e he
      cases he
      exact hlanded k hk c (hext₁.grows.holds hc) d hd

theorem Sane.addSummary (h : Sane L s) {x : Edge φ κ} (hx : x ∈ s.edges)
    (hexit : P.view.isExit x.node = true) {start : StmtId}
    (hstart : start ∈ P.view.startsOf (P.view.ownerOf x.node)) :
    Sane L (s.addSummary P.key start x.context x.node x.fact) where
  coherent := h.coherent.congr (State.edges_addSummary ..) (State.holds_addSummary start _ _ _)
  incoming hrow := by
    rw [State.edges_addSummary]
    rw [State.incoming_addSummary] at hrow
    exact h.incoming hrow
  summaries hrow := by
    rw [State.edges_addSummary]
    rcases State.mem_rows_addSummary.mp hrow with hold | ⟨rfl, heq, -⟩
    · exact h.summaries hold
    · cases heq
      exact ⟨hx, hexit, hstart⟩

/-- The exit edge itself is on file, not merely one with an equal fact. -/
theorem Sane.row_addSummary (h : Sane L s) {x : Edge φ κ} (hx : x ∈ s.edges) (start : StmtId) :
    (x.context, x.node, x.fact) ∈
      (s.addSummary P.key start x.context x.node x.fact).summaries.rows start := by
  rw [State.mem_rows_addSummary]
  by_cases hnew : ∀ g, (x.context, x.node, g) ∈ s.summaries.rows start → P.key g ≠ P.key x.fact
  · exact Or.inr ⟨rfl, rfl, hnew⟩
  · push Not at hnew
    obtain ⟨g, hg, hkey⟩ := hnew
    -- path edges are unique up to keys, so a summary with an equal fact is this one
    have hsame := h.coherent.unique _ (h.summaries hg).1 x hx rfl rfl hkey
    left
    rw [← hsame]
    exact hg

/-- The exit edge `x` is summarized at `start` and has returned to every call that had brought its
context there in `s`. -/
structure Returned (L : Ledger P) (s : State φ κ) (x : Edge φ κ) (start : StmtId) (s' : State φ κ)
    (w' : σ) : Prop where
  row : (x.context, x.node, x.fact) ∈ s'.summaries.rows start
  settled : ∀ call k, (x.context, call, k) ∈ s.incoming.rows start →
    ∀ c, s.holds c call k = true → ∀ site ∈ P.view.returnSitesOf call,
      Settled L s' w' (.leave call (P.view.ownerOf x.node) x.node site) x.fact (.within c site)

theorem Returned.mono {x : Edge φ κ} {start : StmtId} {s' s'' : State φ κ} {w' w'' : σ}
    (h : Returned L s x start s' w') (hext : Extends L s' w' s'' w'') :
    Returned L s x start s'' w'' where
  row := hext.grows.summaries h.row
  settled call k hrow c hc site hsite := (h.settled call k hrow c hc site hsite).mono hext

theorem Returned.since {x : Edge φ κ} {start : StmtId} {s₁ s' : State φ κ} {w' : σ}
    (h : Returned L s₁ x start s' w') (hs : s.Grows s₁) : Returned L s x start s' w' where
  row := h.row
  settled call k hrow c hc := h.settled call k (hs.incoming hrow) c (hs.holds hc)

theorem ensures_returnFrom (hv : P.view.StartsOwned) (h : Valid L b s w) {x : Edge φ κ}
    (hx : x ∈ s.edges) (hexit : P.view.isExit x.node = true) {start : StmtId}
    (hstart : start ∈ P.view.startsOf (P.view.ownerOf x.node)) :
    Run.Ensures (P.returnFrom x (P.view.ownerOf x.node) s start) w fun s' w' =>
      Valid L b s' w' ∧ Extends L s w s' w' ∧ Returned L s x start s' w' := by
  unfold Problem.returnFrom
  have hvalid₁ : Valid L b (s.addSummary P.key start x.context x.node x.fact) w := by
    refine ⟨h.sane.addSummary hx hexit hstart, ?_, h.world⟩
    rw [State.edges_addSummary]
    exact h.edges
  have hgrows₁ : s.Grows (s.addSummary P.key start x.context x.node x.fact) :=
    State.grows_addSummary _ _ _ _
  have hrow₁ := h.sane.row_addSummary hx start
  generalize s.addSummary P.key start x.context x.node x.fact = s₁ at hvalid₁ hgrows₁ hrow₁ ⊢
  refine Run.Ensures.mono (ensures_loop
    (D := fun call s' w' => ∀ k, (x.context, call, k) ∈ s₁.incoming.rows start →
      ∀ c, s₁.holds c call k = true → ∀ site ∈ P.view.returnSitesOf call,
        Settled L s' w' (.leave call (P.view.ownerOf x.node) x.node site) x.fact (.within c site))
    _ ?_ ?_ hvalid₁) ?_
  · intro call s₂ w₂ s₃ w₃ hext hdone k hrow c hc site hsite
    exact (hdone k hrow c hc site hsite).mono hext
  · intro call hcall s₂ w₂ hvalid₂ hext₂
    -- the facts before this call that brought the context in
    have hfacts : ∀ k, k ∈ P.order.facts.lineUp s₁
        (((s₁.callersInto start x.context).filter (·.1 == call)).map Prod.snd) ↔
        (x.context, call, k) ∈ s₁.incoming.rows start := by
      intro k
      rw [(P.order.facts.perm s₁ _).mem_iff, State.mem_factsInto]
    rw [(P.order.calls.perm s₁ _).mem_iff, State.mem_callsInto] at hcall
    obtain ⟨k₀, hrow₀⟩ := hcall
    have hk₀ := (hfacts k₀).mpr hrow₀
    have hrows : ∀ k ∈ P.order.facts.lineUp s₁
        (((s₁.callersInto start x.context).filter (·.1 == call)).map Prod.snd),
        (x.context, call, k) ∈ s₂.incoming.rows start := by
      intro k hk
      exact hext₂.grows.incoming ((hfacts k).mp hk)
    have hx₂ : x ∈ s₂.edges := hext₂.grows.mem_edges (hgrows₁.mem_edges hx)
    refine (ensures_returnTo hv hvalid₂ hx₂ hexit hstart hk₀ hrows).mono ?_
    rintro s₃ w₃ ⟨hvalid₃, hext₃, hdone⟩
    refine ⟨hvalid₃, hext₃, ?_⟩
    intro k hrow c hc site hsite
    exact hdone site hsite k ((hfacts k).mpr hrow) c (hext₂.grows.holds hc)
  · rintro s' w' ⟨hvalid, hext, hdone⟩
    refine ⟨hvalid, ⟨hgrows₁.trans hext.grows, hext.kept⟩, hext.grows.summaries hrow₁, ?_⟩
    intro call k hrow c hc site hsite
    have hrow' := hgrows₁.incoming hrow
    refine hdone call ?_ k hrow' c (hgrows₁.holds hc) site hsite
    rw [(P.order.calls.perm s₁ _).mem_iff, State.mem_callsInto]
    exact ⟨k, hrow'⟩

/-- Everything by which the exit edge `x` is let out of its method is settled. -/
def Released (L : Ledger P) (x : Edge φ κ) (s : State φ κ) (w : σ) : Prop :=
  ∀ q l, Release P x q l → Settled L s w q x.fact l

theorem ensures_returnUnbalanced (h : Valid L b s w) {x : Edge φ κ} (hx : x ∈ s.edges)
    (hexit : P.view.isExit x.node = true) (hun : P.unbalanced = true) (hrel : x ∈ b.released) :
    Run.Ensures (P.returnUnbalanced x (P.view.ownerOf x.node) s) w fun s' w' =>
      Valid L b s' w' ∧ Extends L s w s' w' ∧ Released L x s' w' := by
  have howes : ∀ q l, Release P x q l → b.Owes L q x.fact l := by
    intro q l hql
    exact Owed.release hun ⟨h.edges x hx, hrel⟩ hexit hql
  unfold Problem.returnUnbalanced
  split
  · -- nothing calls the method
    next hnone =>
    apply Run.ensures_bind
    intro u w₁ hrun
    have hask : (P.ask (.depart (P.view.ownerOf x.node) x.node) x.fact).run w = .ok ([], w₁) := by
      unfold Problem.ask
      rw [StateT.run_bind, hrun]
      rfl
    obtain ⟨hvalid₁, hext₁, hout, -⟩ :=
      ensures_ask h (howes _ _ (.departure hnone)) [] w₁ hask
    apply Run.ensures_pure
    refine ⟨hvalid₁, hext₁, ?_⟩
    intro q l hql
    cases hql with
    | toCaller hcall _ =>
      rw [hnone] at hcall
      cases hcall
    | departure _ =>
      refine ⟨[], hout, ?_⟩
      intro d hd
      cases hd
  · next callers hcallers =>
    refine Run.Ensures.mono (ensures_loop
      (D := fun call s' w' => ∀ site ∈ P.view.returnSitesOf call, Settled L s' w'
        (.leave call (P.view.ownerOf x.node) x.node site) x.fact
        (if P.isZero x.context then .within P.zero site else .anew site)) _ ?_ ?_ h) ?_
    · intro call s₁ w₁ s₂ w₂ hext hdone site hsite
      exact (hdone site hsite).mono hext
    · intro call hcall s₁ w₁ hvalid₁ _
      refine ensures_loop (D := fun site s' w' => Settled L s' w'
        (.leave call (P.view.ownerOf x.node) x.node site) x.fact
        (if P.isZero x.context then .within P.zero site else .anew site)) _
        (fun _ _ _ _ _ hext hdone => hdone.mono hext) ?_ hvalid₁
      intro site hsite s₂ w₂ hvalid₂ _
      have hrec : ∀ out : List φ, out.foldl (fun s fact =>
          s.propagate P.key (if P.isZero x.context then P.zero else P.key fact) site fact) s₂ =
          s₂.recordAll P.key (out.map fun d =>
            ⟨if P.isZero x.context then P.zero else P.key d, site, d⟩) := by
        intro out
        unfold State.recordAll
        rw [List.foldl_map]
      have hlands : ∀ d, (if P.isZero x.context then Landing.within P.zero site
          else .anew site).edge? P.key d =
          some ⟨if P.isZero x.context then P.zero else P.key d, site, d⟩ := by
        intro d
        split <;> rfl
      simp only [hrec]
      exact ensures_settleBy hvalid₂ (howes _ _ (.toCaller hcall hsite)) hlands
    · rintro s₁ w₁ ⟨hvalid₁, hext₁, hdone⟩
      refine ⟨hvalid₁, hext₁, ?_⟩
      intro q l hql
      cases hql with
      | toCaller hcall hsite => exact hdone _ hcall _ hsite
      | departure hnone => exact absurd hnone hcallers

/-- No call has brought the context of `x` to its method yet. -/
def Unclaimed (P : Problem φ κ σ) (s : State φ κ) (x : Edge φ κ) : Prop :=
  ∀ start ∈ P.view.startsOf (P.view.ownerOf x.node), ∀ call k,
    (x.context, call, k) ∉ s.incoming.rows start

/-- Claims are never given up. -/
theorem Unclaimed.anti {x : Edge φ κ} {s' : State φ κ} (h : Unclaimed P s' x)
    (hgrows : s.Grows s') : Unclaimed P s x := by
  intro start hstart call k hrow
  exact h start hstart call k (hgrows.incoming hrow)

theorem unclaimed_iff {x : Edge φ κ} :
    Unclaimed P s x ↔ (P.view.startsOf (P.view.ownerOf x.node)).any
      (fun start => !(s.callersInto start x.context).isEmpty) = false := by
  unfold Unclaimed
  rw [List.any_eq_false]
  simp only [Bool.not_eq_true', Bool.not_eq_false, List.isEmpty_iff, List.eq_nil_iff_forall_not_mem]
  constructor
  · rintro h start hstart ⟨call, k⟩ hmem
    exact h start hstart call k (State.mem_callersInto.mp hmem)
  · intro h start hstart call k hrow
    exact h start hstart (call, k) (State.mem_callersInto.mpr hrow)

/-- Passing an exit returns to the calls that claimed its context. If none did, an unbalanced
problem lets the edge out; `b` has to allow for that. -/
theorem ensures_passExit (hv : P.view.StartsOwned) (h : Valid L b s w) {x : Edge φ κ}
    (hx : x ∈ s.edges) (hexit : P.view.isExit x.node = true)
    (hrel : P.unbalanced = true → Unclaimed P s x → x ∈ b.released) :
    Run.Ensures (P.passExit x s) w fun s' w' =>
      Valid L b s' w' ∧ Extends L s w s' w' ∧
      (∀ start ∈ P.view.startsOf (P.view.ownerOf x.node), Returned L s x start s' w') ∧
      (P.unbalanced = true → Unclaimed P s x → Released L x s' w') := by
  unfold Problem.passExit
  apply Run.ensures_bind
  refine Run.Ensures.mono (ensures_loop
    (D := fun start s' w' => Returned L s x start s' w') _ ?_ ?_ h) ?_
  · intro start s₁ w₁ s₂ w₂ hext hdone
    exact hdone.mono hext
  · intro start hstart s₁ w₁ hvalid₁ hext₁
    refine (ensures_returnFrom hv hvalid₁ (hext₁.grows.mem_edges hx) hexit hstart).mono ?_
    rintro s₂ w₂ ⟨hvalid₂, hext₂, hdone⟩
    exact ⟨hvalid₂, hext₂, hdone.since hext₁.grows⟩
  · rintro s₁ w₁ ⟨hvalid₁, hext₁, hreturned⟩
    split
    · next hcond =>
      simp only [Bool.and_eq_true, Bool.not_eq_true'] at hcond
      have hunclaimed : Unclaimed P s x := unclaimed_iff.mpr hcond.2
      refine (ensures_returnUnbalanced hvalid₁ (hext₁.grows.mem_edges hx) hexit hcond.1
        (hrel hcond.1 hunclaimed)).mono ?_
      rintro s₂ w₂ ⟨hvalid₂, hext₂, hreleased⟩
      exact ⟨hvalid₂, hext₁.trans hext₂, fun start hstart => (hreturned start hstart).mono hext₂,
        fun _ _ => hreleased⟩
    · next hcond =>
      apply Run.ensures_pure
      refine ⟨hvalid₁, hext₁, hreturned, ?_⟩
      intro hun hunclaimed
      simp [hun, unclaimed_iff.mp hunclaimed] at hcond

/-! ## Normal flow -/

/-- The answer to a normal flow is on record, and its facts land on justified edges. -/
structure Arrives (L : Ledger P) (b : Base φ κ σ) (m : NormalFlow φ κ) (out : List φ) (w : σ) :
    Prop where
  answered : L.Answered w (.normal m.edge.node m.succ) m.edge.fact out
  justified : ∀ d ∈ out, (⟨m.edge.context, m.succ, d⟩ : Edge φ κ) ∈ b.justified L

/-- Every normal flow of a batch is followed, whatever the schedule. -/
theorem ensures_follow (h : Valid L b s w) {batch : List (Edge φ κ)}
    (hbatch : ∀ e ∈ batch, e ∈ s.edges) :
    Run.Ensures (Run.collect P.follow (P.flowsOf batch)
      (P.order.schedule.lineUp s (List.range (P.flowsOf batch).length))) w fun answers w' =>
        (Valid L b s w' ∧ Extends L s w s w') ∧
        List.Forall₂ (fun m out => Arrives L b m out w') (P.flowsOf batch) answers := by
  refine Run.ensures_collect (J := fun w' => Valid L b s w' ∧ Extends L s w s w')
    (A := Arrives L b) (fun i hi => P.order.mem_schedule s hi) ?_ ⟨h, .refl s w⟩
  rintro m hm w₁ ⟨hvalid₁, hext₁⟩
  obtain ⟨he, hcall, hsucc⟩ := Problem.mem_flowsOf.mp hm
  have howed : b.Owes L (.normal m.edge.node m.succ) m.edge.fact
      (.within m.edge.context m.succ) :=
    Owed.normal (h.edges _ (hbatch _ he)) hcall hsucc
  refine (ensures_ask hvalid₁ howed).mono ?_
  rintro out w₂ ⟨hvalid₂, hext₂, hout, hjust⟩
  refine ⟨⟨hvalid₂, hext₁.trans hext₂⟩, ⟨hout, fun d hd => hjust _ howed d hd _ rfl⟩, ?_⟩
  intro m' out' hold
  exact ⟨hext₂.kept _ _ _ hold.answered, hold.justified⟩

theorem ensures_advance (h : Valid L b s w) {batch : List (Edge φ κ)}
    (hbatch : ∀ e ∈ batch, e ∈ s.edges) :
    Run.Ensures (P.advance batch s) w fun s' w' =>
      Valid L b s' w' ∧ Extends L s w s' w' ∧
      ∀ e ∈ batch, P.view.isCall e.node = false → ∀ succ ∈ P.view.succsOf e.node,
        Settled L s' w' (.normal e.node succ) e.fact (.within e.context succ) := by
  unfold Problem.advance
  apply Run.ensures_bind
  refine (ensures_follow h hbatch).mono ?_
  rintro answers w' ⟨⟨hvalid, hext⟩, hanswers⟩
  apply Run.ensures_pure
  rw [Problem.land_eq]
  refine ⟨hvalid.recordAll ?_, hext.trans (extends_recordAll s w' _), ?_⟩
  · intro e he
    obtain ⟨m, -, out, hout, d, hd, rfl⟩ := exists_of_mem_landings hanswers he
    exact hout.justified d hd
  · intro e he hcall succ hsucc
    have hm : (⟨e, succ⟩ : NormalFlow φ κ) ∈ P.flowsOf batch :=
      Problem.mem_flowsOf.mpr ⟨he, hcall, hsucc⟩
    obtain ⟨out, hout, hlands⟩ := exists_landings hanswers hm
    refine settled_recordAll hout.answered ?_
    intro d hd e' he'
    cases he'
    exact hlands d hd

end

end TaintFlow.Tabulation
