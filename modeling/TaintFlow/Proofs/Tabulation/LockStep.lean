import Mathlib.Data.List.Forall2
import TaintFlow.Proofs.Run
import TaintFlow.Tabulation.Solve

/-!
# Solvers in lock step

Two data-flow problems agree if their flow functions answer alike, up to what facts carry beyond
their keys, if sets are gone through in the same order, and if the flows of a batch are evaluated by
the same schedule. Solvers of such problems work in lock step: from states that are the same up to
bookkeeping they step to states that are, or stop with the same fault (`Problem.Agrees.step`).

That states are the same up to bookkeeping is said by erasing it. Facts are their own keys in an
erased state, and every update of a state commutes with erasure.
-/

namespace TaintFlow

/-- Both sides come to results that are related, or both stop with the same error. -/
inductive InStep {ε α β : Type} (R : α → β → Prop) : Except ε α → Except ε β → Prop
  | result {a b} : R a b → InStep R (.ok a) (.ok b)
  | stop (e) : InStep R (.error e) (.error e)

namespace InStep

variable {ε α β γ δ : Type} {R : α → β → Prop} {S : γ → δ → Prop}

theorem mono {m : Except ε α} {m' : Except ε β} (h : InStep R m m') {R' : α → β → Prop}
    (hR : ∀ a b, R a b → R' a b) : InStep R' m m' := by
  cases h with
  | result hab => exact .result (hR _ _ hab)
  | stop e => exact .stop e

theorem bind {m : Except ε α} {m' : Except ε β} {k : α → Except ε γ} {k' : β → Except ε δ}
    (h : InStep R m m') (hk : ∀ a b, R a b → InStep S (k a) (k' b)) :
    InStep S (m >>= k) (m' >>= k') := by
  cases h with
  | result hab => exact hk _ _ hab
  | stop e => exact .stop e

end InStep

namespace Tabulation

/-! ## Runs in lock step -/

namespace Run

variable {σ α β γ δ : Type} {W : σ → σ → Prop} {R : α → β → Prop} {S : γ → δ → Prop}

/-- From worlds related by `W`, the runs come to results related by `R` and to worlds related by
`W`, or both stop with the same fault. -/
def InStep (W : σ → σ → Prop) (R : α → β → Prop) (m : Run σ α) (m' : Run σ β) : Prop :=
  ∀ w w', W w w' → TaintFlow.InStep (fun r r' => R r.1 r'.1 ∧ W r.2 r'.2) (m.run w) (m'.run w')

theorem inStep_pure {a : α} {b : β} (h : R a b) : InStep W R (pure a) (pure b) := by
  intro w w' hw
  exact .result ⟨h, hw⟩

theorem inStep_throw (e : Fault) : InStep W R (throw e) (throw e) := by
  intro w w' _
  exact .stop e

theorem inStep_bind {m : Run σ α} {m' : Run σ β} {k : α → Run σ γ} {k' : β → Run σ δ}
    (h : InStep W R m m') (hk : ∀ a b, R a b → InStep W S (k a) (k' b)) :
    InStep W S (m >>= k) (m' >>= k') := by
  intro w w' hw
  rw [StateT.run_bind, StateT.run_bind]
  exact (h w w' hw).bind fun r r' hr => hk r.1 r'.1 hr.1 r.2 r'.2 hr.2

/-- The rule for loops over lists whose elements are related one by one. -/
theorem inStep_foldlM {f : γ → α → Run σ γ} {f' : δ → β → Run σ δ} {l : List α} {l' : List β}
    (hl : List.Forall₂ R l l')
    (step : ∀ s s' a b, S s s' → R a b → InStep W S (f s a) (f' s' b)) {s : γ} {s' : δ}
    (start : S s s') : InStep W S (l.foldlM f s) (l'.foldlM f' s') := by
  induction hl generalizing s s' with
  | nil => exact inStep_pure start
  | cons hab _ ih =>
    rw [List.foldlM_cons, List.foldlM_cons]
    exact inStep_bind (step s s' _ _ start hab) fun t t' ht => ih ht

/-- The rule for two loops over one list. -/
theorem inStep_foldlM_same {f : γ → α → Run σ γ} {f' : δ → α → Run σ δ} (l : List α)
    (step : ∀ s s' a, S s s' → InStep W S (f s a) (f' s' a)) {s : γ} {s' : δ}
    (start : S s s') : InStep W S (l.foldlM f s) (l.foldlM f' s') := by
  refine inStep_foldlM (R := Eq) (List.forall₂_refl l) ?_ start
  rintro s s' a b hs rfl
  exact step s s' a hs

theorem forall₂_getElem? {l : List α} {l' : List β} (h : List.Forall₂ R l l') (i : Nat) :
    (l[i]? = none ∧ l'[i]? = none) ∨ ∃ a b, l[i]? = some a ∧ l'[i]? = some b ∧ R a b := by
  induction h generalizing i with
  | nil => exact Or.inl ⟨rfl, rfl⟩
  | @cons a b _ _ hab _ ih =>
    cases i with
    | zero => exact Or.inr ⟨a, b, rfl, rfl, hab⟩
    | succ i => exact ih i

theorem forall₂_set {l : List α} {l' : List β} (h : List.Forall₂ R l l') (i : Nat) {a : α} {b : β}
    (hab : R a b) : List.Forall₂ R (l.set i a) (l'.set i b) := by
  induction h generalizing i with
  | nil => exact .nil
  | cons hfirst hrest ih =>
    cases i with
    | zero => exact .cons hab hrest
    | succ i => exact .cons hfirst (ih i)

/-- The rule for questions asked in turns. Both sides ask in the same order. -/
theorem inStep_collect {ask : α → Run σ (List γ)} {ask' : β → Run σ (List δ)} {l : List α}
    {l' : List β} {T : List γ → List δ → Prop} (hnone : T [] []) (hl : List.Forall₂ R l l')
    (step : ∀ a b, R a b → InStep W T (ask a) (ask' b)) (turns : List Nat) :
    InStep W (List.Forall₂ T) (collect ask l turns) (collect ask' l' turns) := by
  have hstart : List.Forall₂ T (l.map fun _ => []) (l'.map fun _ => []) := by
    rw [List.forall₂_map_left_iff, List.forall₂_map_right_iff]
    exact hl.imp fun _ _ _ => hnone
  refine inStep_foldlM_same turns ?_ hstart
  intro answers answers' i hanswers
  unfold answerAt
  -- a turn names a question of both lists or of neither
  rcases forall₂_getElem? hl i with ⟨hi, hi'⟩ | ⟨a, b, hi, hi', hab⟩
  · simp only [hi, hi']
    exact inStep_pure hanswers
  · simp only [hi, hi']
    refine inStep_bind (step a b hab) ?_
    intro out out' hout
    exact inStep_pure (forall₂_set hanswers i hout)

end Run

/-! ## Erasure -/

theorem forall₂_of_map_eq {α β : Type} {F : α → β} {l l' : List α} (h : l.map F = l'.map F) :
    List.Forall₂ (fun a b => F a = F b) l l' := by
  rwa [← List.forall₂_eq_eq_eq, List.forall₂_map_left_iff, List.forall₂_map_right_iff] at h

section

variable {φ κ β γ : Type} (key : φ → κ)

def Edge.erase (e : Edge φ κ) : Edge κ κ := ⟨e.context, e.node, key e.fact⟩

theorem Edge.exists_of_erase_eq {e e' : Edge φ κ} (h : e.erase key = e'.erase key) :
    ∃ f', e' = ⟨e.context, e.node, f'⟩ ∧ key e.fact = key f' := by
  obtain ⟨context, node, fact⟩ := e
  obtain ⟨context', node', fact'⟩ := e'
  unfold erase at h
  rw [Edge.mk.injEq] at h
  obtain ⟨rfl, rfl, hfact⟩ := h
  exact ⟨fact', rfl, hfact⟩

namespace Index

def map (F : β → γ) (ix : Index β) : Index γ := ⟨ix.entries.map fun e => (e.1, e.2.map F)⟩

theorem rows_map (F : β → γ) (ix : Index β) (s : StmtId) :
    (ix.map F).rows s = (ix.rows s).map F := by
  unfold rows map
  dsimp only
  induction ix.entries with
  | nil => rfl
  | cons e es ih =>
    simp only [List.map_cons, rowsIn]
    split
    · rfl
    · exact ih

theorem map_add (F : β → γ) (ix : Index β) (s : StmtId) (b : β) :
    (ix.add s b).map F = (ix.map F).add s (F b) := by
  unfold add map
  dsimp only
  congr 1
  induction ix.entries with
  | nil => rfl
  | cons e es ih =>
    simp only [List.map_cons, addTo]
    split
    · rfl
    · rw [List.map_cons, ih]

end Index

namespace State

/-- A row of the summaries, with the fact replaced by its key. -/
def eraseRow (r : StmtId × φ) : StmtId × κ := (r.1, key r.2)

/-- The state without the bookkeeping of its facts. -/
def erase (s : State φ κ) : State κ κ where
  edges := s.edges.map (Edge.erase key)
  processed := s.processed
  contexts := s.contexts
  incoming := s.incoming
  summaries := s.summaries.map fun r => (r.1, eraseRow key r.2)
  inbox := s.inbox.map (Edge.erase key)
  injected := s.injected
  summaryCount := s.summaryCount
  reuses := s.reuses
  iterations := s.iterations

variable (s : State φ κ)

theorem erase_inject (edges : List (Edge φ κ)) :
    (s.inject edges).erase key = (s.erase key).inject (edges.map (Edge.erase key)) := by
  simp [inject, erase]

theorem batch_erase (most : Nat) :
    (s.erase key).batch most = (s.batch most).map (Edge.erase key) := by
  unfold batch erase
  simp

theorem isIdle_erase : (s.erase key).isIdle = s.isIdle := by
  simp [isIdle, erase]

theorem statistics_erase : (s.erase key).statistics = s.statistics := by
  simp [statistics, erase]

variable [BEq κ]

theorem erase_propagate (context : κ) (node : StmtId) (fact : φ) :
    (s.propagate key context node fact).erase key =
      (s.erase key).propagate id context node (key fact) := by
  unfold propagate
  change _ = if s.holds context node (key fact) then _ else _
  split
  · rfl
  · simp [erase, Edge.erase]

theorem erase_propagateAll (context : κ) (node : StmtId) (facts : List φ) :
    (s.propagateAll key context node facts).erase key =
      (s.erase key).propagateAll id context node (facts.map key) := by
  unfold propagateAll
  induction facts generalizing s with
  | nil => rfl
  | cons fact facts ih =>
    rw [List.foldl_cons, List.map_cons, List.foldl_cons, ih, erase_propagate]

theorem erase_receive (e : Edge φ κ) :
    (s.receive key e).erase key = (s.erase key).receive id (e.erase key) := by
  unfold receive
  change _ = if s.holds e.context e.node (key e.fact) then _ else _
  split
  · rfl
  · have hpropagate := s.erase_propagate key e.context e.node e.fact
    change { (s.propagate key e.context e.node e.fact).erase key with
      injected := s.injected + 1 } = _
    rw [hpropagate]
    rfl

theorem erase_drain : (s.drain key).erase key = (s.erase key).drain id := by
  unfold drain
  have hfold : ∀ (l : List (Edge φ κ)) (t : State φ κ),
      (l.foldl (fun t e => t.receive key e) t).erase key =
        (l.map (Edge.erase key)).foldl (fun t e => t.receive id e) (t.erase key) := by
    intro l
    induction l with
    | nil => exact fun t => rfl
    | cons e l ih =>
      intro t
      rw [List.foldl_cons, List.map_cons, List.foldl_cons, ih, erase_receive]
  exact hfold s.inbox { s with inbox := [] }

theorem erase_addCaller (start : StmtId) (context : κ) (call : StmtId) (fact : κ) :
    (s.addCaller start context call fact).erase key =
      (s.erase key).addCaller start context call fact := by
  unfold addCaller
  change _ = if (s.incoming.rows start).contains (context, call, fact) then _ else _
  split <;> rfl

theorem summariesOf_erase (start : StmtId) (context : κ) :
    (s.erase key).summariesOf start context =
      (s.summariesOf start context).map (eraseRow key) := by
  unfold summariesOf
  change (((s.summaries.map _).rows start).filter _).map _ = _
  rw [Index.rows_map, List.filter_map, List.map_map, List.map_map]
  rfl

theorem erase_addSummary (start : StmtId) (context : κ) (exit : StmtId) (fact : φ) :
    (s.addSummary key start context exit fact).erase key =
      (s.erase key).addSummary id start context exit (key fact) := by
  unfold addSummary
  rw [summariesOf_erase, List.any_map]
  split
  · next hknown => exact (if_pos hknown).symm
  · next hnew =>
    refine Eq.trans ?_ (if_neg hnew).symm
    simp only [erase, Index.map_add]
    rfl

end State

end

/-! ## Problems that agree -/

section

variable {φ κ σ : Type}

/-- The orders go through sets alike and have the same schedule, in states that are the same up to
bookkeeping. -/
structure Order.Agrees (key : φ → κ) (o o' : Order φ κ) : Prop where
  calls : ∀ {s s'}, s.erase key = s'.erase key → ∀ rows,
    o.calls.lineUp s rows = o'.calls.lineUp s' rows
  facts : ∀ {s s'}, s.erase key = s'.erase key → ∀ rows,
    o.facts.lineUp s rows = o'.facts.lineUp s' rows
  summaries : ∀ {s s'}, s.erase key = s'.erase key → ∀ {rows rows'},
    rows.map (State.eraseRow key) = rows'.map (State.eraseRow key) →
    (o.summaries.lineUp s rows).map (State.eraseRow key) =
      (o'.summaries.lineUp s' rows').map (State.eraseRow key)
  schedule : ∀ {s s'}, s.erase key = s'.erase key → ∀ turns,
    o.schedule.lineUp s turns = o'.schedule.lineUp s' turns

theorem Order.agrees_asFiled (key : φ → κ) : ({} : Order φ κ).Agrees key {} where
  calls _ _ := rfl
  facts _ _ := rfl
  summaries _ _ _ h := h
  schedule _ _ := rfl

theorem Order.Agrees.sequential {key : φ → κ} {o o' : Order φ κ} (h : o.Agrees key o') :
    o.sequential.Agrees key o'.sequential :=
  { h with schedule := fun _ _ => rfl }

/-- Facts with the same keys, in the same order. -/
def SameKeys (key : φ → κ) (fs gs : List φ) : Prop := fs.map key = gs.map key

/-- States that are the same up to bookkeeping. -/
def SameErasure (key : φ → κ) (s s' : State φ κ) : Prop := s.erase key = s'.erase key

namespace SameErasure

variable [BEq κ] {key : φ → κ} {s s' : State φ κ} (h : SameErasure key s s')

include h

theorem propagate {f g : φ} (hfg : key f = key g) (context : κ) (node : StmtId) :
    SameErasure key (s.propagate key context node f) (s'.propagate key context node g) := by
  unfold SameErasure at h ⊢
  rw [State.erase_propagate, State.erase_propagate, h, hfg]

theorem propagateAll {fs gs : List φ} (hfs : SameKeys key fs gs) (context : κ) (node : StmtId) :
    SameErasure key (s.propagateAll key context node fs)
      (s'.propagateAll key context node gs) := by
  unfold SameErasure SameKeys at *
  rw [State.erase_propagateAll, State.erase_propagateAll, h, hfs]

theorem addCaller {fact fact' : κ} (hfact : fact = fact') (start : StmtId) (context : κ)
    (call : StmtId) :
    SameErasure key (s.addCaller start context call fact)
      (s'.addCaller start context call fact') := by
  unfold SameErasure at h ⊢
  rw [State.erase_addCaller, State.erase_addCaller, h, hfact]

theorem addSummary {f g : φ} (hfg : key f = key g) (start : StmtId) (context : κ)
    (exit : StmtId) :
    SameErasure key (s.addSummary key start context exit f)
      (s'.addSummary key start context exit g) := by
  unfold SameErasure at h ⊢
  rw [State.erase_addSummary, State.erase_addSummary, h, hfg]

theorem drain : SameErasure key (s.drain key) (s'.drain key) := by
  unfold SameErasure at h ⊢
  rw [State.erase_drain, State.erase_drain, h]

theorem callersInto (start : StmtId) (context : κ) :
    s.callersInto start context = s'.callersInto start context :=
  congrArg (fun u : State κ κ => u.callersInto start context) h

theorem contextsOf (node : StmtId) (fact : κ) : s.contextsOf node fact = s'.contextsOf node fact :=
  congrArg (fun u : State κ κ => u.contextsOf node fact) h

end SameErasure

/-- The problems are about one program and answer alike: facts with the same key lead to facts with
the same keys, and to worlds that are related if they were before. -/
structure Problem.Agrees (W : σ → σ → Prop) (P P' : Problem φ κ σ) : Prop where
  view : P'.view = P.view
  key : P'.key = P.key
  zero : P'.zero = P.zero
  isZero : P'.isZero = P.isZero
  unbalanced : P'.unbalanced = P.unbalanced
  order : P.order.Agrees P.key P'.order
  normal : ∀ s t {f f'}, P.key f = P.key f' →
    Run.InStep W (SameKeys P.key) (P.normal s t f) (P'.normal s t f')
  enter : ∀ call callee {f f'}, P.key f = P.key f' →
    Run.InStep W (SameKeys P.key) (P.enter call callee f) (P'.enter call callee f')
  leave : ∀ call callee exit site {f f'}, P.key f = P.key f' →
    Run.InStep W (SameKeys P.key) (P.leave call callee exit site f)
      (P'.leave call callee exit site f')
  bypass : ∀ call site {f f'}, P.key f = P.key f' →
    Run.InStep W (SameKeys P.key) (P.bypass call site f) (P'.bypass call site f')
  depart : ∀ method exit {f f'}, P.key f = P.key f' →
    Run.InStep W Eq (P.depart method exit f) (P'.depart method exit f')

namespace Problem.Agrees

variable [BEq κ] {W : σ → σ → Prop} {P P' : Problem φ κ σ} (h : P.Agrees W P')
  {s s' : State φ κ} {e e' : Edge φ κ}

/-- An answer, recorded in one context. -/
theorem record {m m' : Run σ (List φ)} (hm : Run.InStep W (SameKeys P.key) m m')
    (hs : SameErasure P.key s s') (context : κ) (node : StmtId) :
    Run.InStep W (SameErasure P.key) (do return s.propagateAll P.key context node (← m))
      (do return s'.propagateAll P.key context node (← m')) := by
  refine Run.inStep_bind hm ?_
  intro out out' hout
  exact Run.inStep_pure (hs.propagateAll hout context node)

include h

theorem reuseSummaries (he : e.erase P.key = e'.erase P.key) (callee : MethodId)
    (start : StmtId) (entry : κ) (hs : SameErasure P.key s s') :
    Run.InStep W (SameErasure P.key) (P.reuseSummaries e callee start entry s)
      (P'.reuseSummaries e' callee start entry s') := by
  obtain ⟨f', rfl, hf⟩ := Edge.exists_of_erase_eq P.key he
  have hrows : (s.summariesOf start entry).map (State.eraseRow P.key) =
      (s'.summariesOf start entry).map (State.eraseRow P.key) := by
    rw [← State.summariesOf_erase, ← State.summariesOf_erase, hs]
  -- the rows are lined up alike, so that the loops meet matching summaries in each turn
  have hlined := h.order.summaries hs hrows
  unfold Problem.reuseSummaries
  rw [h.view, h.key]
  refine Run.inStep_foldlM (forall₂_of_map_eq hlined) ?_ hs
  rintro t t' ⟨exit, f⟩ ⟨exit', f'⟩ ht hrow
  obtain ⟨rfl, hfact⟩ : exit = exit' ∧ P.key f = P.key f' := Prod.mk.inj hrow
  have hcounted : SameErasure P.key { t with reuses := t.reuses + 1 }
      { t' with reuses := t'.reuses + 1 } := by
    unfold SameErasure at ht ⊢
    exact congrArg (fun u : State κ κ => { u with reuses := u.reuses + 1 }) ht
  refine Run.inStep_foldlM_same _ ?_ hcounted
  intro t t' site ht
  exact record (h.leave e.node callee exit site hfact) ht e.context site

theorem enterWith (he : e.erase P.key = e'.erase P.key) (callee : MethodId) (start : StmtId)
    (hs : SameErasure P.key s s') {entry entry' : φ} (hentry : P.key entry = P.key entry') :
    Run.InStep W (SameErasure P.key) (P.enterWith e callee start s entry)
      (P'.enterWith e' callee start s' entry') := by
  unfold Problem.enterWith
  rw [h.key, ← hentry]
  refine h.reuseSummaries he callee start _ ?_
  obtain ⟨f', rfl, hf⟩ := Edge.exists_of_erase_eq P.key he
  exact (hs.propagate hentry _ start).addCaller hf start _ e.node

theorem enterCallee (he : e.erase P.key = e'.erase P.key) (hs : SameErasure P.key s s')
    (callee : MethodId) :
    Run.InStep W (SameErasure P.key) (P.enterCallee e s callee) (P'.enterCallee e' s' callee) := by
  obtain ⟨f', rfl, hf⟩ := Edge.exists_of_erase_eq P.key he
  unfold Problem.enterCallee
  rw [h.view]
  refine Run.inStep_bind (h.enter e.node callee hf) ?_
  intro entries entries' hentries
  refine Run.inStep_foldlM_same _ ?_ hs
  intro t t' start ht
  refine Run.inStep_foldlM (forall₂_of_map_eq hentries) ?_ ht
  intro t t' entry entry' ht hentry
  exact h.enterWith he callee start ht hentry

theorem passCall (he : e.erase P.key = e'.erase P.key) (hs : SameErasure P.key s s') :
    Run.InStep W (SameErasure P.key) (P.passCall e s) (P'.passCall e' s') := by
  obtain ⟨f', rfl, hf⟩ := Edge.exists_of_erase_eq P.key he
  unfold Problem.passCall
  rw [h.view, h.key]
  refine Run.inStep_bind (Run.inStep_foldlM_same _ (fun t t' m ht => h.enterCallee he ht m) hs) ?_
  intro t t' ht
  refine Run.inStep_foldlM_same _ ?_ ht
  intro t t' site ht
  exact record (h.bypass e.node site hf) ht e.context site

/-! ### Exits -/

theorem returnTo (he : e.erase P.key = e'.erase P.key) (method : MethodId) (call : StmtId)
    (facts : List κ) (hs : SameErasure P.key s s') :
    Run.InStep W (SameErasure P.key) (P.returnTo e method call facts s)
      (P'.returnTo e' method call facts s') := by
  obtain ⟨f', rfl, hf⟩ := Edge.exists_of_erase_eq P.key he
  unfold Problem.returnTo
  rw [h.view, h.key]
  refine Run.inStep_foldlM_same _ ?_ hs
  intro t t' site ht
  refine Run.inStep_bind (h.leave call method e.node site hf) ?_
  intro out out' hout
  apply Run.inStep_pure
  refine List.foldl_rel ht ?_
  intro fact _ t t' ht
  -- the contexts at the call are looked up anew for every fact, in states that have grown alike
  rw [ht.contextsOf, h.order.facts ht]
  refine List.foldl_rel ht ?_
  intro context _ t t' ht
  exact ht.propagateAll hout context site

theorem returnFrom (he : e.erase P.key = e'.erase P.key) (method : MethodId)
    (hs : SameErasure P.key s s') (start : StmtId) :
    Run.InStep W (SameErasure P.key) (P.returnFrom e method s start)
      (P'.returnFrom e' method s' start) := by
  obtain ⟨f', rfl, hf⟩ := Edge.exists_of_erase_eq P.key he
  unfold Problem.returnFrom
  rw [h.key]
  have hfiled := hs.addSummary hf start e.context e.node
  generalize s.addSummary P.key start e.context e.node e.fact = t at hfiled ⊢
  generalize s'.addSummary P.key start e.context e.node f' = t' at hfiled ⊢
  dsimp only
  -- the callers are looked up in the state with the summary, which is why that is generalized first
  rw [hfiled.callersInto, h.order.calls hfiled]
  refine Run.inStep_foldlM_same _ ?_ hfiled
  intro u u' call hu
  rw [h.order.facts hfiled]
  exact h.returnTo he method call _ hu

theorem returnUnbalanced (he : e.erase P.key = e'.erase P.key) (method : MethodId)
    (hs : SameErasure P.key s s') :
    Run.InStep W (SameErasure P.key) (P.returnUnbalanced e method s)
      (P'.returnUnbalanced e' method s') := by
  obtain ⟨f', rfl, hf⟩ := Edge.exists_of_erase_eq P.key he
  unfold Problem.returnUnbalanced
  rw [h.view, h.key, h.zero, h.isZero]
  split
  · -- nothing calls the method, so that only the world can change
    refine Run.inStep_bind (h.depart method e.node hf) ?_
    intro _ _ _
    exact Run.inStep_pure hs
  -- the facts that come out start contexts of their own, as the entry of the method is not known
  · refine Run.inStep_foldlM_same _ ?_ hs
    intro t t' call ht
    refine Run.inStep_foldlM_same _ ?_ ht
    intro t t' site ht
    refine Run.inStep_bind (h.leave call method e.node site hf) ?_
    intro out out' hout
    apply Run.inStep_pure
    refine List.rel_foldl (R := fun f g => P.key f = P.key g) ?_ ht (forall₂_of_map_eq hout)
    intro t t' ht f g hfg
    dsimp only
    rw [hfg]
    exact ht.propagate hfg _ site

theorem passExit (he : e.erase P.key = e'.erase P.key) (hs : SameErasure P.key s s') :
    Run.InStep W (SameErasure P.key) (P.passExit e s) (P'.passExit e' s') := by
  obtain ⟨f', rfl, hf⟩ := Edge.exists_of_erase_eq P.key he
  unfold Problem.passExit
  rw [h.view, h.unbalanced]
  simp only [hs.callersInto]
  refine Run.inStep_bind
    (Run.inStep_foldlM_same _ (fun t t' start ht => h.returnFrom he _ ht start) hs) ?_
  intro t t' ht
  split
  · exact h.returnUnbalanced he _ ht
  · exact Run.inStep_pure ht

/-! ### Steps -/

theorem cross (hs : SameErasure P.key s s') (he : e.erase P.key = e'.erase P.key) :
    Run.InStep W (SameErasure P.key) (P.cross s e) (P'.cross s' e') := by
  obtain ⟨f', rfl, -⟩ := Edge.exists_of_erase_eq P.key he
  have hexit : ∀ t t', SameErasure P.key t t' → Run.InStep W (SameErasure P.key)
      (if P.view.isExit e.node = true then P.passExit e t else pure t)
      (if P.view.isExit e.node = true then P'.passExit ⟨e.context, e.node, f'⟩ t'
        else pure t') := by
    intro t t' ht
    split
    · exact h.passExit he ht
    · exact Run.inStep_pure ht
  unfold Problem.cross
  rw [h.view]
  -- the edges are at one node, so both are outside the program, or both at a call, or neither
  by_cases hsize : P.view.size ≤ e.node.index
  · simp only [hsize, if_true]
    exact Run.inStep_bind (R := fun _ _ => False) (Run.inStep_throw _)
      fun _ _ hfalse => hfalse.elim
  · simp only [hsize, if_false]
    by_cases hcall : P.view.isCall e.node = true
    · simp only [hcall, if_true]
      exact Run.inStep_bind (h.passCall he hs) hexit
    · simp only [hcall]
      exact Run.inStep_bind (Run.inStep_pure hs) hexit

omit [BEq κ] in
/-- Batches that are the same up to bookkeeping ask for matching flows. -/
theorem flowsOf {batch batch' : List (Edge φ κ)}
    (hbatch : List.Forall₂ (fun e e' => e.erase P.key = e'.erase P.key) batch batch') :
    List.Forall₂ (fun m m' => m.edge.erase P.key = m'.edge.erase P.key ∧ m.succ = m'.succ)
      (P.flowsOf batch) (P'.flowsOf batch') := by
  unfold Problem.flowsOf
  rw [h.view]
  -- over both batches at once, so that a call on the one side is left out on the other
  induction hbatch with
  | nil => exact .nil
  | @cons e e' _ _ he _ ih =>
    obtain ⟨f', rfl, hf⟩ := Edge.exists_of_erase_eq P.key he
    by_cases hcall : P.view.isCall e.node = true
    · simp only [List.filter_cons, hcall]
      exact ih
    · simp only [List.filter_cons, hcall]
      refine List.rel_append ?_ ih
      rw [List.forall₂_map_left_iff, List.forall₂_map_right_iff]
      exact List.forall₂_same.mpr fun succ _ => ⟨he, rfl⟩

omit [BEq κ] in
theorem follow {m m' : NormalFlow φ κ} (hedge : m.edge.erase P.key = m'.edge.erase P.key)
    (hsucc : m.succ = m'.succ) :
    Run.InStep W (SameKeys P.key) (P.follow m) (P'.follow m') := by
  obtain ⟨e, succ⟩ := m
  obtain ⟨e', succ'⟩ := m'
  obtain ⟨f', rfl, hf⟩ := Edge.exists_of_erase_eq P.key hedge
  cases hsucc
  exact h.normal e.node succ hf

theorem land (hs : SameErasure P.key s s') {flows flows' : List (NormalFlow φ κ)}
    (hflows : List.Forall₂ (fun m m' => m.edge.erase P.key = m'.edge.erase P.key ∧
      m.succ = m'.succ) flows flows') {answers answers' : List (List φ)}
    (hanswers : List.Forall₂ (SameKeys P.key) answers answers') :
    SameErasure P.key (P.land s flows answers) (P'.land s' flows' answers') := by
  unfold Problem.land
  rw [h.key]
  -- answers and flows run out together, and what has landed so far stays the same up to bookkeeping
  induction hflows generalizing s s' answers answers' with
  | nil => exact hs
  | @cons m m' _ _ hm _ ih =>
    obtain ⟨e, succ⟩ := m
    obtain ⟨e', succ'⟩ := m'
    obtain ⟨hedge, hsucc⟩ := hm
    obtain ⟨f', rfl, -⟩ := Edge.exists_of_erase_eq P.key hedge
    cases hsucc
    cases hanswers with
    | nil => exact hs
    | cons hout hrest => exact ih (hs.propagateAll hout e.context succ) hrest

theorem advance (hs : SameErasure P.key s s') {batch batch' : List (Edge φ κ)}
    (hbatch : List.Forall₂ (fun e e' => e.erase P.key = e'.erase P.key) batch batch') :
    Run.InStep W (SameErasure P.key) (P.advance batch s) (P'.advance batch' s') := by
  have hflows := h.flowsOf hbatch
  unfold Problem.advance
  dsimp only
  -- the flows match one by one, so that a schedule of positions is one for both
  rw [← hflows.length_eq, h.order.schedule hs]
  refine Run.inStep_bind (Run.inStep_collect (T := SameKeys P.key) rfl hflows
    (fun m m' hm => h.follow hm.1 hm.2) _) ?_
  intro answers answers' hanswers
  exact Run.inStep_pure (h.land hs hflows hanswers)

/-- From states that are the same up to bookkeeping, both solvers step to such states, and both were
busy or neither. -/
theorem step (hs : SameErasure P.key s s') (batchSize : Nat) :
    Run.InStep W (fun r r' => SameErasure P.key r.1 r'.1 ∧ r.2 = r'.2) (P.step batchSize s)
      (P'.step batchSize s') := by
  have hdrained := hs.drain
  unfold Problem.step
  rw [h.key]
  generalize s.drain P.key = t at hdrained ⊢
  generalize s'.drain P.key = t' at hdrained ⊢
  have hbatch : (t.batch (max batchSize 1)).map (Edge.erase P.key) =
      (t'.batch (max batchSize 1)).map (Edge.erase P.key) := by
    rw [← State.batch_erase, ← State.batch_erase, hdrained]
  dsimp only
  generalize t.batch (max batchSize 1) = batch at hbatch ⊢
  generalize t'.batch (max batchSize 1) = batch' at hbatch ⊢
  -- the counters are bookkeeping of the solver itself and have to agree, not only be forgotten
  have hlength : batch.length = batch'.length := by simpa using congrArg List.length hbatch
  have hbusy : batch.isEmpty = batch'.isEmpty := by simpa using congrArg List.isEmpty hbatch
  rw [hbusy]
  split
  · exact Run.inStep_pure ⟨hdrained, rfl⟩
  · have hstarted : SameErasure P.key
        { t with processed := t.processed + batch.length, iterations := t.iterations + 1 }
        { t' with processed := t'.processed + batch'.length, iterations := t'.iterations + 1 } := by
      rw [hlength]
      exact congrArg (fun u : State κ κ => { u with
        processed := u.processed + batch'.length, iterations := u.iterations + 1 }) hdrained
    -- first the calls and exits of the batch, edge by edge, then its normal flows together
    refine Run.inStep_bind
      (Run.inStep_foldlM (forall₂_of_map_eq hbatch) (fun _ _ _ _ => h.cross) hstarted) ?_
    intro u u' hu
    refine Run.inStep_bind (h.advance hu (forall₂_of_map_eq hbatch)) ?_
    intro u u' hu
    exact Run.inStep_pure ⟨hu, rfl⟩

end Problem.Agrees

end

end Tabulation

end TaintFlow
