import TaintFlow.Proofs.Tabulation.Work

/-!
# The invariant of a tabulation

For the edges worked off so far every debt is settled, every call edge has filed its claim at the
callee's starts, and every exit edge has filed its summary there. Claims and summaries are what lets
the later of a call edge and an exit edge find the earlier one, whichever comes first.

`ensures_step` is the main result. A step keeps the invariant, and it adds nothing but what follows
from the edges and the inbox before it.
-/

namespace TaintFlow.Tabulation

variable {φ κ σ : Type} [DecidableEq κ] {P : Problem φ κ σ}

structure Invariant (L : Ledger P) (g : Progress φ κ) (s : State φ κ) (w : σ) : Prop where
  sane : Sane L s
  entered : ∀ e ∈ g.entered, e ∈ s.edges
  left : ∀ e ∈ g.left, e ∈ s.edges
  released : ∀ e ∈ g.released, e ∈ s.edges
  settled : ∀ q f l, Owed P L.Enters g q f l → Settled L s w q f l
  claimed : ∀ e ∈ g.entered, P.view.isCall e.node = true → ∀ m ∈ P.view.calleesOf e.node,
    ∀ k, L.Enters e.node m e.fact k → ∀ start ∈ P.view.startsOf m,
      (k, e.node, P.key e.fact) ∈ s.incoming.rows start
  summarized : ∀ x ∈ g.left, P.view.isExit x.node = true →
    ∀ start ∈ P.view.startsOf (P.view.ownerOf x.node),
      (x.context, x.node, x.fact) ∈ s.summaries.rows start
  unclaimed : P.unbalanced = true → ∀ x ∈ g.left, P.view.isExit x.node = true →
    Unclaimed P s x → x ∈ g.released

namespace Invariant

variable {L : Ledger P} {g : Progress φ κ} {s s' : State φ κ} {w w' : σ}

/-- What was settled stays settled. -/
theorem settled_extend (h : Invariant L g s w) (hext : Extends L s w s' w') {q : Query} {f : φ}
    {l : Landing κ} (howed : Owed P L.Enters g q f l) : Settled L s' w' q f l :=
  (h.settled q f l howed).mono hext

/-- The invariant survives growth of the state. -/
theorem extend (h : Invariant L g s w) (hext : Extends L s w s' w') (hsane : Sane L s') :
    Invariant L g s' w' where
  sane := hsane
  entered e he := hext.grows.mem_edges (h.entered e he)
  left e he := hext.grows.mem_edges (h.left e he)
  released e he := hext.grows.mem_edges (h.released e he)
  settled _ _ _ howed := h.settled_extend hext howed
  claimed e he hcall m hm k hk start hstart :=
    hext.grows.incoming (h.claimed e he hcall m hm k hk start hstart)
  summarized x hx hexit start hstart :=
    hext.grows.summaries (h.summarized x hx hexit start hstart)
  unclaimed hun x hx hexit hnone := h.unclaimed hun x hx hexit (hnone.anti hext.grows)

/-- Counters, worklist and inbox are no part of the invariant. -/
theorem congr (h : Invariant L g s w) (hedges : s'.edges = s.edges)
    (hcontexts : s'.contexts = s.contexts) (hincoming : s'.incoming = s.incoming)
    (hsummaries : s'.summaries = s.summaries) : Invariant L g s' w where
  sane := h.sane.congr hedges hcontexts hincoming hsummaries
  entered := by
    rw [hedges]
    exact h.entered
  left := by
    rw [hedges]
    exact h.left
  released := by
    rw [hedges]
    exact h.released
  settled q f l howed := by
    obtain ⟨out, hout, hholds⟩ := h.settled q f l howed
    refine ⟨out, hout, ?_⟩
    unfold State.holds at hholds ⊢
    rw [hcontexts]
    exact hholds
  claimed := by
    rw [hincoming]
    exact h.claimed
  summarized := by
    rw [hsummaries]
    exact h.summarized
  unclaimed := by
    unfold Unclaimed
    rw [hincoming]
    exact h.unclaimed

/-- The invariant carries over to another ledger that knows of the same answers and entries. -/
theorem transfer (h : Invariant L g s w) {L' : Ledger P} (henters : L'.Enters = L.Enters)
    (hanswered : ∀ q f out, L.Answered w q f out → L'.Answered w' q f out) :
    Invariant L' g s w' where
  sane := ⟨h.sane.coherent, henters ▸ h.sane.incoming, h.sane.summaries⟩
  entered := h.entered
  left := h.left
  released := h.released
  settled q f l howed := by
    obtain ⟨out, hout, hholds⟩ := h.settled q f l (henters ▸ howed)
    exact ⟨out, hanswered q f out hout, hholds⟩
  claimed := henters ▸ h.claimed
  summarized := h.summarized
  unclaimed := h.unclaimed

/-! ## One edge further -/

/-- A call edge that has been passed. -/
theorem pass (h : Invariant L g s w) {e : Edge φ κ} (he : e ∈ s.edges)
    (hext : Extends L s w s' w') (hsane : Sane L s')
    (hpassed : P.view.isCall e.node = true → Passed L s e s' w') :
    Invariant L { g with entered := insert e g.entered } s' w' :=
  { h.extend hext hsane with
    entered := by
      rintro e' (rfl | he')
      · exact hext.grows.mem_edges he
      · exact hext.grows.mem_edges (h.entered e' he')
    settled := by
      intro q f l howed
      cases howed with
      | normal he' hcall hsucc => exact h.settled_extend hext (.normal he' hcall hsucc)
      | bypass he' hcall hsite =>
        rcases he' with rfl | he'
        · exact (hpassed hcall).bypassed _ hsite
        · exact h.settled_extend hext (.bypass he' hcall hsite)
      | call he' hcall hm =>
        rcases he' with rfl | he'
        · obtain ⟨out, hout⟩ := (hpassed hcall).asked _ hm
          refine ⟨out, hout, ?_⟩
          intro d hd e' he'
          cases he'
        · exact h.settled_extend hext (.call he' hcall hm)
      | enter he' hcall hm hstart =>
        rcases he' with rfl | he'
        · obtain ⟨out, hout⟩ := (hpassed hcall).asked _ hm
          refine ⟨out, hout, ?_⟩
          intro d hd e' he'
          cases he'
          have hk := (L.enters_iff hout).mpr ⟨d, hd, rfl⟩
          exact ((hpassed hcall).brought _ hm _ hk _ hstart).holds
        · exact h.settled_extend hext (.enter he' hcall hm hstart)
      | leave hc hcall hm hstart hent hx hexit hsite =>
        rcases hc with rfl | hc
        · -- the exit edge came first, so its summary is on file
          have hrow := h.summarized _ hx hexit _ hstart
          exact ((hpassed hcall).brought _ hm _ hent _ hstart).reused _ _ hrow _ hsite
        · exact h.settled_extend hext (.leave hc hcall hm hstart hent hx hexit hsite)
      | release hun hx hexit hrel => exact h.settled_extend hext (.release hun hx hexit hrel)
    claimed := by
      rintro e' (rfl | he') hcall m hm k hk start hstart
      · exact ((hpassed hcall).brought m hm k hk start hstart).row
      · exact hext.grows.incoming (h.claimed e' he' hcall m hm k hk start hstart) }

/-- An exit edge that has been passed, and possibly let out. -/
theorem exit (h : Invariant L g s w) {x : Edge φ κ} (hx : x ∈ s.edges)
    (hext : Extends L s w s' w') (hsane : Sane L s') {R : Set (Edge φ κ)}
    (hR : ∀ y, y ∈ R ↔ y ∈ g.released ∨ (y = x ∧ P.view.isExit x.node = true ∧
      P.unbalanced = true ∧ Unclaimed P s x))
    (hreturned : P.view.isExit x.node = true →
      ∀ start ∈ P.view.startsOf (P.view.ownerOf x.node), Returned L s x start s' w')
    (hreleased : P.view.isExit x.node = true → P.unbalanced = true → Unclaimed P s x →
      Released L x s' w') :
    Invariant L { g with left := insert x g.left, released := R } s' w' :=
  { h.extend hext hsane with
    left := by
      rintro x' (rfl | hx')
      · exact hext.grows.mem_edges hx
      · exact hext.grows.mem_edges (h.left x' hx')
    released := by
      intro y hy
      rcases (hR y).mp hy with hy | ⟨rfl, -⟩
      · exact hext.grows.mem_edges (h.released y hy)
      · exact hext.grows.mem_edges hx
    settled := by
      intro q f l howed
      cases howed with
      | normal he hcall hsucc => exact h.settled_extend hext (.normal he hcall hsucc)
      | bypass he hcall hsite => exact h.settled_extend hext (.bypass he hcall hsite)
      | call he hcall hm => exact h.settled_extend hext (.call he hcall hm)
      | enter he hcall hm hstart => exact h.settled_extend hext (.enter he hcall hm hstart)
      | leave hc hcall hm hstart hent hx' hexit hsite =>
        rcases hx' with rfl | hx'
        · -- the call edge came first, so its claim is on file
          have hrow := h.claimed _ hc hcall _ hm _ hent _ hstart
          have hholds := h.sane.coherent.holds_of_mem (h.entered _ hc)
          exact (hreturned hexit _ hstart).settled _ _ hrow _ hholds _ hsite
        · exact h.settled_extend hext (.leave hc hcall hm hstart hent hx' hexit hsite)
      | release hun hy hexit hrel =>
        rcases (hR _).mp hy with hy | ⟨rfl, -, -, hnone⟩
        · exact h.settled_extend hext (.release hun hy hexit hrel)
        · exact hreleased hexit hun hnone _ _ hrel
    summarized := by
      rintro x' (rfl | hx') hexit start hstart
      · exact (hreturned hexit start hstart).row
      · exact hext.grows.summaries (h.summarized x' hx' hexit start hstart)
    unclaimed := by
      -- claims are never given up, so an edge without one now had none before
      intro hun x' hx' hexit hnone
      rw [hR]
      rcases hx' with rfl | hx'
      · exact Or.inr ⟨rfl, hexit, hun, hnone.anti hext.grows⟩
      · exact Or.inl (h.unclaimed hun x' hx' hexit (hnone.anti hext.grows)) }

/-- Edges that normal flow has moved on. -/
theorem advance (h : Invariant L g s w) {es : List (Edge φ κ)} (hext : Extends L s w s' w')
    (hsane : Sane L s')
    (hadvanced : ∀ e ∈ es, P.view.isCall e.node = false → ∀ succ ∈ P.view.succsOf e.node,
      Settled L s' w' (.normal e.node succ) e.fact (.within e.context succ)) :
    Invariant L { g with advanced := g.advanced ∪ {e | e ∈ es} } s' w' :=
  { h.extend hext hsane with
    settled := by
      intro q f l howed
      cases howed with
      | normal he hcall hsucc =>
        rcases he with he | he
        · exact h.settled_extend hext (.normal he hcall hsucc)
        · exact hadvanced _ he hcall _ hsucc
      | bypass he hcall hsite => exact h.settled_extend hext (.bypass he hcall hsite)
      | call he hcall hm => exact h.settled_extend hext (.call he hcall hm)
      | enter he hcall hm hstart => exact h.settled_extend hext (.enter he hcall hm hstart)
      | leave hc hcall hm hstart hent hx hexit hsite =>
        exact h.settled_extend hext (.leave hc hcall hm hstart hent hx hexit hsite)
      | release hun hx hexit hrel => exact h.settled_extend hext (.release hun hx hexit hrel) }

end Invariant

/-! ## Batches -/

theorem union_mem_concat {α : Type} (A : Set α) (done : List α) (a : α) :
    A ∪ {x | x ∈ done ++ [a]} = insert a (A ∪ {x | x ∈ done}) := by
  ext x
  simp only [Set.mem_union, Set.mem_ofPred_eq, List.mem_append, List.mem_singleton]
  rw [← or_assoc, or_comm]
  rfl

section

variable {L : Ledger P} {b : Base φ κ σ} {g : Progress φ κ} {s : State φ κ} {w : σ}

/-- Crossing an edge may let it out, in which case it joins the released edges. -/
theorem ensures_cross (hv : P.view.StartsOwned) (h : Valid L b s w) (hinv : Invariant L g s w)
    (hb : b.released = g.released) {e : Edge φ κ} (he : e ∈ s.edges) :
    Run.Ensures (P.cross s e) w fun s' w' => ∃ R, g.released ⊆ R ∧
      Valid L { b with released := R } s' w' ∧ Extends L s w s' w' ∧
      Invariant L ⟨insert e g.entered, insert e g.left, g.advanced, R⟩ s' w' := by
  -- what is left to do once the call, if it is one, has been passed
  have hexit : ∀ s₁ w₁, Valid L b s₁ w₁ → Extends L s w s₁ w₁ →
      (P.view.isCall e.node = true → Passed L s e s₁ w₁) →
      Run.Ensures (if P.view.isExit e.node = true then P.passExit e s₁ else pure s₁) w₁
        fun s' w' => ∃ R, g.released ⊆ R ∧
          Valid L { b with released := R } s' w' ∧ Extends L s w s' w' ∧
          Invariant L ⟨insert e g.entered, insert e g.left, g.advanced, R⟩ s' w' := by
    intro s₁ w₁ hvalid₁ hext₁ hpassed
    have hinv₁ := hinv.pass he hext₁ hvalid₁.sane hpassed
    have he₁ := hext₁.grows.mem_edges he
    let R : Set (Edge φ κ) := {y | y ∈ g.released ∨ (y = e ∧ P.view.isExit e.node = true ∧
      P.unbalanced = true ∧ Unclaimed P s₁ e)}
    have hsub : g.released ⊆ R := fun y hy => Or.inl hy
    have hvalidR : Valid L { b with released := R } s₁ w₁ := hvalid₁.release (hb ▸ hsub)
    split
    · next hx =>
      refine (ensures_passExit hv hvalidR he₁ hx ?_).mono ?_
      · intro hun hnone
        exact Or.inr ⟨rfl, hx, hun, hnone⟩
      · rintro s₂ w₂ ⟨hvalid₂, hext₂, hreturned, hreleased⟩
        refine ⟨R, hsub, hvalid₂, hext₁.trans hext₂, ?_⟩
        exact hinv₁.exit he₁ hext₂ hvalid₂.sane (fun y => Iff.rfl) (fun _ => hreturned)
          (fun _ => hreleased)
    · next hx =>
      apply Run.ensures_pure
      refine ⟨R, hsub, hvalidR, hext₁, ?_⟩
      exact hinv₁.exit he₁ (.refl s₁ w₁) hvalid₁.sane (fun y => Iff.rfl)
        (fun hx' => absurd hx' hx) (fun hx' => absurd hx' hx)
  unfold Problem.cross
  by_cases hsize : P.view.size ≤ e.node.index
  · simp only [hsize, if_true]
    exact Run.ensures_bind Run.ensures_throw
  · simp only [hsize, if_false]
    by_cases hcall : P.view.isCall e.node = true
    · simp only [hcall, if_true]
      apply Run.ensures_bind
      refine (ensures_passCall hv h he hcall).mono ?_
      rintro s₁ w₁ ⟨hvalid₁, hext₁, hpassed⟩
      exact hexit s₁ w₁ hvalid₁ hext₁ fun _ => hpassed
    · simp only [hcall]
      apply Run.ensures_bind
      apply Run.ensures_pure
      exact hexit s w h (.refl s w) fun hcall' => absurd hcall' hcall

theorem ensures_crossAll (hv : P.view.StartsOwned) (h : Valid L b s w) (hinv : Invariant L g s w)
    (hb : b.released = g.released) {es : List (Edge φ κ)} (hes : ∀ e ∈ es, e ∈ s.edges) :
    Run.Ensures (es.foldlM P.cross s) w fun s' w' => ∃ R, g.released ⊆ R ∧
      Valid L { b with released := R } s' w' ∧ Extends L s w s' w' ∧
      Invariant L ⟨g.entered ∪ {e | e ∈ es}, g.left ∪ {e | e ∈ es}, g.advanced, R⟩ s' w' := by
  refine Run.ensures_foldlM_prefix (I := fun done s' w' => ∃ R, g.released ⊆ R ∧
    Valid L { b with released := R } s' w' ∧ Extends L s w s' w' ∧
    Invariant L ⟨g.entered ∪ {e | e ∈ done}, g.left ∪ {e | e ∈ done}, g.advanced, R⟩ s' w')
    es ?_ ?_
  · rintro done e rest rfl s₁ w₁ ⟨R₁, hR₁, hvalid₁, hext₁, hinv₁⟩
    have he : e ∈ s₁.edges := hext₁.grows.mem_edges (hes e (by simp))
    refine (ensures_cross hv hvalid₁ hinv₁ rfl he).mono ?_
    rintro s₂ w₂ ⟨R₂, hR₂, hvalid₂, hext₂, hinv₂⟩
    refine ⟨R₂, hR₁.trans hR₂, hvalid₂, hext₁.trans hext₂, ?_⟩
    rw [union_mem_concat, union_mem_concat]
    exact hinv₂
  · refine ⟨g.released, subset_refl _, ?_, .refl s w, ?_⟩
    · rw [← hb]
      exact h
    · simpa using hinv

end

/-! ## Steps -/

namespace State

omit [DecidableEq κ]

variable {s : State φ κ}

/-- The path edges behind the cursor. -/
def worked (s : State φ κ) : Set (Edge φ κ) := {e | e ∈ s.edges.toList.take s.processed}

theorem worked_of_size_le (h : s.edges.size ≤ s.processed) : s.worked = {e | e ∈ s.edges} := by
  ext e
  unfold worked
  rw [List.take_of_length_le (by simpa using h)]
  exact Array.mem_toList_iff

/-- Edges that are added do not get behind the cursor. -/
theorem worked_of_prefix {s' : State φ κ} (hp : s.edges.toList <+: s'.edges.toList)
    (hprocessed : s'.processed = s.processed) (hcursor : s.processed ≤ s.edges.size) :
    s'.worked = s.worked := by
  obtain ⟨rest, hrest⟩ := hp
  unfold worked
  rw [hprocessed, ← hrest, List.take_append_of_le_length (by simpa using hcursor)]

theorem batch_eq (most : Nat) : s.batch most = (s.edges.toList.drop s.processed).take most := by
  unfold batch
  rw [Array.toList_extract, List.extract_eq_take_drop]
  congr 1
  omega

theorem mem_edges_of_mem_batch {most : Nat} {e : Edge φ κ} (he : e ∈ s.batch most) :
    e ∈ s.edges := by
  rw [batch_eq] at he
  exact Array.mem_toList_iff.mp (List.mem_of_mem_drop (List.mem_of_mem_take he))

/-- The cursor moves past the batch and no further. -/
theorem take_batch (most : Nat) :
    s.edges.toList.take (s.processed + (s.batch most).length) =
      s.edges.toList.take s.processed ++ s.batch most := by
  rw [List.take_add, batch_eq, List.length_take, List.take_eq_take_min]
  congr 1
  rw [List.take_eq_take_iff]
  omega

theorem length_batch_le (most : Nat) (h : s.processed ≤ s.edges.size) :
    s.processed + (s.batch most).length ≤ s.edges.size := by
  rw [batch_eq, List.length_take, List.length_drop, Array.length_toList]
  omega

/-- A batch of at least one edge is empty only if nothing is left. -/
theorem size_le_of_batch_isEmpty {most : Nat} (hmost : 0 < most)
    (h : (s.batch most).isEmpty = true) : s.edges.size ≤ s.processed := by
  rw [List.isEmpty_iff, ← List.length_eq_zero_iff, batch_eq, List.length_take, List.length_drop,
    Array.length_toList] at h
  omega

end State

/-- What holds between steps: all work is done for the edges behind the cursor, and those in `R`
have been let out. -/
structure Standing (L : Ledger P) (R : Set (Edge φ κ)) (s : State φ κ) (w : σ) : Prop where
  invariant : Invariant L ⟨s.worked, s.worked, s.worked, R⟩ s w
  cursor : s.processed ≤ s.edges.size

/-- What a step from `s` makes of it. -/
structure Stepped (L : Ledger P) (R : Set (Edge φ κ)) (s : State φ κ) (w : σ) (s' : State φ κ)
    (w' : σ) : Prop where
  standing : Standing L R s' w'
  /-- Everything new follows from the edges and the inbox before. -/
  valid : Valid L ⟨R, {e | e ∈ s.edges ∨ e ∈ s.inbox}, w⟩ s' w'
  kept : ∀ q f out, L.Answered w q f out → L.Answered w' q f out
  holds : ∀ {c n k}, s.holds c n k = true → s'.holds c n k = true
  mem_edges : ∀ {e}, e ∈ s.edges → e ∈ s'.edges
  received : ∀ e ∈ s.inbox, s'.holds e.context e.node (P.key e.fact) = true
  emptied : s'.inbox = []

section

variable {L : Ledger P} {R : Set (Edge φ κ)} {s : State φ κ} {w : σ}

/-- Work done for the edges behind the cursor stays done when edges are added in front of it. -/
theorem Standing.of_longer {s' : State φ κ} (hp : s.edges.toList <+: s'.edges.toList)
    (hprocessed : s'.processed = s.processed) (hcursor : s.processed ≤ s.edges.size)
    (hinv : Invariant L ⟨s.worked, s.worked, s.worked, R⟩ s' w) : Standing L R s' w := by
  refine ⟨?_, ?_⟩
  · rw [State.worked_of_prefix hp hprocessed hcursor]
    exact hinv
  · have hle := hp.length_le
    rw [Array.length_toList, Array.length_toList] at hle
    omega

/-- Nothing is owed before the first step. -/
theorem Standing.of_unprocessed (hsane : Sane L s) (hprocessed : s.processed = 0) :
    Standing L ∅ s w := by
  have hworked : s.worked = ∅ := by
    unfold State.worked
    rw [hprocessed]
    ext e
    simp
  refine ⟨?_, by omega⟩
  rw [hworked]
  refine ⟨hsane, nofun, nofun, nofun, ?_, nofun, nofun, fun _ => nofun⟩
  intro q f l howed
  cases howed with
  | normal he => cases he
  | bypass he => cases he
  | call he => cases he
  | enter he => cases he
  | leave he => cases he
  | release _ he => cases he

theorem Sane.empty : Sane L {} where
  coherent := State.coherent_empty
  incoming hrow := by simp [Index.rows_empty] at hrow
  summaries hrow := by simp [Index.rows_empty] at hrow

theorem Standing.ofSeeds (seeds : List (StmtId × φ)) :
    Standing L ∅ (State.ofSeeds P.key P.zero seeds) w := by
  rw [State.ofSeeds_eq]
  exact .of_unprocessed (Sane.empty.recordAll _) (State.grows_recordAll _).processed

/-- The inbox is no part of what holds between steps. -/
theorem Standing.inject (h : Standing L R s w) (es : List (Edge φ κ)) :
    Standing L R (s.inject es) w :=
  ⟨h.invariant.congr rfl rfl rfl rfl, h.cursor⟩

theorem Standing.transfer (h : Standing L R s w) {L' : Ledger P} {w' : σ}
    (henters : L'.Enters = L.Enters)
    (hanswered : ∀ q f out, L.Answered w q f out → L'.Answered w' q f out) :
    Standing L' R s w' :=
  ⟨h.invariant.transfer henters hanswered, h.cursor⟩

/-- Once nothing is left to work off, every debt to every path edge is settled. -/
theorem Standing.settled (h : Standing L R s w) (hdone : s.edges.size ≤ s.processed) {q : Query}
    {f : φ} {l : Landing κ}
    (howed : Owed P L.Enters ⟨{e | e ∈ s.edges}, {e | e ∈ s.edges}, {e | e ∈ s.edges}, R⟩ q f l) :
    Settled L s w q f l := by
  apply h.invariant.settled
  rw [State.worked_of_size_le hdone]
  exact howed

/-- Draining the inbox is the first part of every step. -/
theorem Standing.drain (h : Standing L R s w) : Stepped L R s w (s.drain P.key) w := by
  obtain ⟨s₀, hs₀⟩ : ∃ s₀ : State φ κ, s₀ = { s with inbox := [] } := ⟨_, rfl⟩
  obtain ⟨m, hm⟩ : ∃ m, s.drain P.key = { s₀.recordAll P.key s.inbox with injected := m } := by
    rw [hs₀]
    exact State.drain_eq
  have hedges : s₀.edges = s.edges := by rw [hs₀]
  have hholds : ∀ c n k, s₀.holds c n k = s.holds c n k := by
    intro c n k
    rw [hs₀]
    rfl
  have hinv₀ : Invariant L ⟨s.worked, s.worked, s.worked, R⟩ s₀ w := by
    rw [hs₀]
    exact h.invariant.congr rfl rfl rfl rfl
  have hext := extends_recordAll (L := L) s₀ w s.inbox
  -- the state grows from the one with an empty inbox, not from `s` itself
  have hgrows : s₀.Grows (s.drain P.key) := by
    rw [hm]
    exact ⟨hext.grows.processed, hext.grows.inbox, hext.grows.edges, hext.grows.holds,
      hext.grows.incoming, hext.grows.summaries⟩
  have hinv : Invariant L ⟨s.worked, s.worked, s.worked, R⟩ (s.drain P.key) w := by
    rw [hm]
    exact (hinv₀.extend hext (hinv₀.sane.recordAll _)).congr rfl rfl rfl rfl
  have hprocessed : (s.drain P.key).processed = s.processed := by
    rw [hgrows.processed, hs₀]
  have hprefix : s.edges.toList <+: (s.drain P.key).edges.toList := hedges ▸ hgrows.edges
  refine ⟨.of_longer hprefix hprocessed h.cursor hinv, ⟨hinv.sane, ?_, Base.mem_worlds⟩,
    fun _ _ _ hold => hold, ?_, ?_, ?_, ?_⟩
  · intro e he
    rw [hm] at he
    have hmem := State.mem_edges_recordAll he
    rw [hedges] at hmem
    exact Base.mem_justified hmem
  · intro c n k hold
    exact hgrows.holds ((hholds c n k).trans hold)
  · intro e he
    exact hgrows.mem_edges (hedges ▸ he)
  · intro e he
    rw [hm]
    exact State.holds_recordAll.mpr (Or.inr ⟨e, he, rfl, rfl, rfl⟩)
  · rw [hgrows.inbox, hs₀]

/-- Working off a batch, once the cursor has been moved past it. -/
theorem ensures_batch (hv : P.view.StartsOwned) {b : Base φ κ σ} (hvalid : Valid L b s w)
    {E : Set (Edge φ κ)} (hinv : Invariant L ⟨E, E, E, b.released⟩ s w)
    (hcursor : s.processed ≤ s.edges.size) {batch : List (Edge φ κ)}
    (hbatch : ∀ e ∈ batch, e ∈ s.edges) (hworked : s.worked = E ∪ {e | e ∈ batch}) :
    Run.Ensures (batch.foldlM P.cross s >>= P.advance batch) w fun s' w' =>
      ∃ R, b.released ⊆ R ∧ Standing L R s' w' ∧ Valid L { b with released := R } s' w' ∧
        Extends L s w s' w' := by
  apply Run.ensures_bind
  refine (ensures_crossAll hv hvalid hinv rfl hbatch).mono ?_
  rintro s₁ w₁ ⟨R, hR, hvalid₁, hext₁, hinv₁⟩
  refine (ensures_advance hvalid₁ fun e he => hext₁.grows.mem_edges (hbatch e he)).mono ?_
  rintro s₂ w₂ ⟨hvalid₂, hext₂, hadvanced⟩
  have hinv₂ := hinv₁.advance hext₂ hvalid₂.sane hadvanced
  have hext := hext₁.trans hext₂
  rw [← hworked] at hinv₂
  exact ⟨R, hR, .of_longer hext.grows.edges hext.grows.processed hcursor hinv₂, hvalid₂, hext⟩

/-- A step keeps what holds between steps. More edges may have been let out after it. -/
theorem ensures_step (hv : P.view.StartsOwned) (h : Standing L R s w) (batchSize : Nat) :
    Run.Ensures (P.step batchSize s) w fun r w' => ∃ R', R ⊆ R' ∧ Stepped L R' s w r.1 w' ∧
      (r.2 = false → r.1.edges.size ≤ r.1.processed) := by
  unfold Problem.step
  have hdrain := h.drain
  generalize s.drain P.key = s₁ at hdrain ⊢
  dsimp only
  split
  · next hempty =>
    apply Run.ensures_pure
    exact ⟨R, subset_refl R, hdrain, fun _ => State.size_le_of_batch_isEmpty (by omega) hempty⟩
  · have hbatch : ∀ e ∈ s₁.batch (max batchSize 1), e ∈ s₁.edges :=
      fun e he => State.mem_edges_of_mem_batch he
    have htake := s₁.take_batch (max batchSize 1)
    have hbound := s₁.length_batch_le (max batchSize 1) hdrain.standing.cursor
    generalize s₁.batch (max batchSize 1) = batch at hbatch htake hbound ⊢
    -- the cursor moves first, so edges found on the way wait for a later batch
    have hvalid₂ : Valid L ⟨R, {e | e ∈ s.edges ∨ e ∈ s.inbox}, w⟩ { s₁ with
        processed := s₁.processed + batch.length
        iterations := s₁.iterations + 1 } w :=
      ⟨hdrain.valid.sane.congr rfl rfl rfl rfl, hdrain.valid.edges, hdrain.valid.world⟩
    have hworked₂ : State.worked { s₁ with
        processed := s₁.processed + batch.length
        iterations := s₁.iterations + 1 } = s₁.worked ∪ {e | e ∈ batch} := by
      unfold State.worked
      rw [htake]
      ext e
      exact List.mem_append
    rw [← bind_assoc]
    apply Run.ensures_bind
    refine (ensures_batch hv hvalid₂ (hdrain.standing.invariant.congr rfl rfl rfl rfl) hbound
      hbatch hworked₂).mono ?_
    rintro s₃ w₃ ⟨R₃, hR₃, hstanding₃, hvalid₃, hext₃⟩
    apply Run.ensures_pure
    refine ⟨R₃, hR₃, ⟨hstanding₃, hvalid₃, ?_, ?_, ?_, ?_, ?_⟩, nofun⟩
    · intro q f out hold
      exact hext₃.kept q f out (hdrain.kept q f out hold)
    · intro c n k hold
      exact hext₃.grows.holds (hdrain.holds hold)
    · intro e he
      exact hext₃.grows.mem_edges (hdrain.mem_edges he)
    · intro e he
      exact hext₃.grows.holds (hdrain.received e he)
    · exact hext₃.grows.inbox.trans hdrain.emptied

end

end TaintFlow.Tabulation
