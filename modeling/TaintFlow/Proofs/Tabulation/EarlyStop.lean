import Mathlib.Data.List.Basic
import TaintFlow.Proofs.Tabulation.Invariant

/-!
# Solvers that stop early

Let every world have a log. One run curtails another if both are the same run until something is
logged, and if the first does nothing more from then on: it comes to a result and leaves the world
as it is. So its log is the beginning of what the other run logs, and it is empty only if the other
one is.

A problem curtails another if its flow functions do, and then so does its solver, wherever in a
batch the first entry is made (`Problem.Curtails.step`). A solver that has stopped goes on with its
worklist, but it finds no further path edges.
-/

namespace TaintFlow

/-- Both sides are the same and nothing is logged, or the first is a result whose log is the
beginning of any log to which the second may come. -/
inductive Curtails {ε α τ : Type} (log : α → List τ) : Except ε α → Except ε α → Prop
  | same {m} : (∀ a, m = .ok a → log a = []) → Curtails log m m
  | short {a m} : log a ≠ [] → (∀ b, m = .ok b → log a <+: log b) → Curtails log (.ok a) m

namespace Curtails

variable {ε α β τ : Type} {log : α → List τ} {log' : β → List τ} {m m' : Except ε α}

theorem refl (m : Except ε α) : Curtails log m m := by
  cases m with
  | error e =>
    refine .same ?_
    intro a ha
    cases ha
  | ok a =>
    by_cases hlog : log a = []
    · refine .same ?_
      intro b hb
      cases hb
      exact hlog
    · refine .short hlog ?_
      intro b hb
      cases hb
      exact List.prefix_refl _

theorem eq_error {e : ε} (h : Curtails log (.error e) m') : m' = .error e := by
  cases h with
  | same _ => rfl

theorem eq_ok {a : α} (h : Curtails log (.ok a) m') (hlog : log a = []) : m' = .ok a := by
  cases h with
  | same _ => rfl
  | short hsome _ => exact absurd hlog hsome

theorem exists_ok {b : α} (h : Curtails log m (.ok b)) : ∃ a, m = .ok a := by
  cases h with
  | same _ => exact ⟨b, rfl⟩
  | short _ _ => exact ⟨_, rfl⟩

theorem log_begins {a b : α} (h : Curtails log (.ok a : Except ε α) (.ok b)) : log a <+: log b := by
  cases h with
  | same _ => exact List.prefix_refl _
  | short _ hbegins => exact hbegins b rfl

/-- If the first side stops in the first part, the second part must leave its log alone. -/
theorem bind {k k' : α → Except ε β} (h : Curtails log m m')
    (hsame : ∀ a, m = .ok a → m' = .ok a → log a = [] → Curtails log' (k a) (k' a))
    (hshort : ∀ a, m = .ok a → log a ≠ [] → ∃ b, k a = .ok b ∧ log' b = log a)
    (hgrows : ∀ a b, m' = .ok a → k' a = .ok b → log a <+: log' b) :
    Curtails log' (m >>= k) (m' >>= k') := by
  cases h with
  | same hnone =>
    cases m with
    | error e => exact refl (.error e)
    | ok a => exact hsame a rfl rfl (hnone a rfl)
  | @short a _ hlog hbegins =>
    obtain ⟨b, hb, heq⟩ := hshort a rfl hlog
    change Curtails log' (k a) _
    rw [hb]
    refine .short (heq ▸ hlog) ?_
    intro b' hb'
    obtain ⟨a', ha', hk⟩ := exists_of_bind_eq_ok hb'
    rw [heq]
    exact (hbegins a' ha').trans (hgrows a' b' ha' hk)

end Curtails

namespace Tabulation

/-! ## Runs -/

namespace Run

variable {σ τ α β : Type} {log : σ → List τ} {Q : α → Prop} {R : β → Prop}

/-- `m` is `m'` until something is logged. Then it leaves the world alone and comes to a result that
satisfies `Q`. -/
structure Curtails (log : σ → List τ) (Q : α → Prop) (m m' : Run σ α) : Prop where
  silent : ∀ w, log w ≠ [] → ∃ a, m.run w = .ok (a, w) ∧ Q a
  grows : ∀ w, Ensures m' w fun _ w' => log w <+: log w'
  together : ∀ w, log w = [] → TaintFlow.Curtails (fun r => log r.2) (m.run w) (m'.run w)

theorem Curtails.mono {m m' : Run σ α} (h : Curtails log Q m m') {Q' : α → Prop}
    (hQ : ∀ a, Q a → Q' a) : Curtails log Q' m m' where
  silent w hw := by
    obtain ⟨a, ha, hQa⟩ := h.silent w hw
    exact ⟨a, ha, hQ a hQa⟩
  grows := h.grows
  together := h.together

theorem curtails_pure {a : α} (h : Q a) : Curtails log Q (pure a) (pure a) where
  silent _ _ := ⟨a, rfl, h⟩
  grows _ := ensures_pure (List.prefix_refl _)
  together _ _ := .refl _

theorem curtails_bind {m m' : Run σ α} {k k' : α → Run σ β} (h : Curtails log Q m m')
    (hk : ∀ a, Curtails log (fun b => Q a → R b) (k a) (k' a)) :
    Curtails log R (m >>= k) (m' >>= k') where
  silent w hw := by
    obtain ⟨a, ha, hQ⟩ := h.silent w hw
    obtain ⟨b, hb, hR⟩ := (hk a).silent w hw
    refine ⟨b, ?_, hR hQ⟩
    rw [StateT.run_bind, ha]
    exact hb
  grows w := by
    apply ensures_bind
    refine (h.grows w).mono ?_
    intro a w₁ hbegins
    exact ((hk a).grows w₁).mono fun _ _ hbegins' => hbegins.trans hbegins'
  together w hw := by
    rw [StateT.run_bind, StateT.run_bind]
    refine (h.together w hw).bind ?_ ?_ ?_
    · intro r _ _ hr
      exact (hk r.1).together r.2 hr
    · intro r _ hr
      obtain ⟨b, hb, -⟩ := (hk r.1).silent r.2 hr
      exact ⟨(b, r.2), hb, rfl⟩
    · intro r r' _ hr'
      exact (hk r.1).grows r.2 r'.1 r'.2 hr'

/-- The rule for loops: what every turn keeps when it is silent, the loop keeps. -/
theorem curtails_foldlM {S : β → β → Prop} (refl : ∀ b, S b b)
    (trans : ∀ {a b c}, S a b → S b c → S a c) {f f' : β → α → Run σ β} (l : List α)
    (step : ∀ a ∈ l, ∀ b, Curtails log (S b) (f b a) (f' b a)) (b : β) :
    Curtails log (S b) (l.foldlM f b) (l.foldlM f' b) := by
  induction l generalizing b with
  | nil => exact curtails_pure (refl b)
  | cons a l ih =>
    rw [List.foldlM_cons, List.foldlM_cons]
    refine curtails_bind (step a (List.mem_cons_self ..) b) ?_
    intro b₁
    refine (ih (fun a' ha' => step a' (List.mem_cons_of_mem a ha')) b₁).mono ?_
    intro b₂ hlater hfirst
    exact trans hfirst hlater

/-- An answer that is recorded. A silent run has no answer to record. -/
theorem curtails_record {φ : Type} {m m' : Run σ (List φ)} (h : Curtails log (· = []) m m')
    {record : List φ → β} (hnone : R (record [])) :
    Curtails log R (do return record (← m)) (do return record (← m')) := by
  refine curtails_bind h ?_
  intro out
  refine curtails_pure ?_
  rintro rfl
  exact hnone

/-- There is no fact among the answers. -/
def Empty {φ : Type} (answers : List (List φ)) : Prop := ∀ out ∈ answers, out = []

/-- Questions asked in turns. From the first entry on, every turn that is left comes to nothing. -/
theorem curtails_collect {φ : Type} {ask ask' : α → Run σ (List φ)} {questions : List α}
    (step : ∀ q ∈ questions, Curtails log (· = []) (ask q) (ask' q)) (turns : List Nat) :
    Curtails log Empty (collect ask questions turns) (collect ask' questions turns) := by
  have hturn : ∀ i ∈ turns, ∀ answers, Curtails log (fun later => Empty answers → Empty later)
      (answerAt ask questions answers i) (answerAt ask' questions answers i) := by
    intro i _ answers
    unfold answerAt
    split
    · next q hq =>
      refine curtails_bind (step q (List.mem_of_getElem? hq)) ?_
      intro out
      refine curtails_pure ?_
      rintro rfl hempty out hout
      rcases List.mem_or_eq_of_mem_set hout with hold | rfl
      · exact hempty out hold
      · rfl
    · exact curtails_pure id
  have hstart : Empty (questions.map fun _ => ([] : List φ)) := by
    intro out hout
    obtain ⟨_, -, rfl⟩ := List.mem_map.mp hout
    rfl
  exact (curtails_foldlM (S := fun answers later => Empty answers → Empty later) (fun _ => id)
    (fun h h' hempty => h' (h hempty)) turns hturn _).mono fun _ hlater => hlater hstart

end Run

/-! ## Problems -/

section

variable {φ κ σ τ : Type}

/-- The same problem, except that the flow functions of the first fall silent once something is
logged. -/
structure Problem.Curtails (log : σ → List τ) (P P' : Problem φ κ σ) : Prop where
  view : P'.view = P.view
  key : P'.key = P.key
  zero : P'.zero = P.zero
  isZero : P'.isZero = P.isZero
  unbalanced : P'.unbalanced = P.unbalanced
  order : P'.order = P.order
  normal : ∀ s t f, Run.Curtails log (· = []) (P.normal s t f) (P'.normal s t f)
  enter : ∀ call f, ∀ callee ∈ P.view.calleesOf call,
    Run.Curtails log (· = []) (P.enter call callee f) (P'.enter call callee f)
  leave : ∀ call callee exit site f,
    Run.Curtails log (· = []) (P.leave call callee exit site f) (P'.leave call callee exit site f)
  bypass : ∀ call site f, Run.Curtails log (· = []) (P.bypass call site f) (P'.bypass call site f)
  depart : ∀ method exit f,
    Run.Curtails log (fun _ => True) (P.depart method exit f) (P'.depart method exit f)

/-- The path edges are still the same. -/
def State.SameEdges (s s' : State φ κ) : Prop := s'.edges = s.edges

theorem State.SameEdges.trans {s s' s'' : State φ κ} (h : s.SameEdges s') (h' : s'.SameEdges s'') :
    s.SameEdges s'' :=
  Eq.trans h' h

/-! ## The load of a state -/

namespace State

/-- How many path edges there are, those in the inbox included. -/
def load (s : State φ κ) : Nat := s.edges.size + s.inbox.length

variable [DecidableEq κ] (key : φ → κ)

theorem size_recordAll_le (es : List (Edge φ κ)) (s : State φ κ) :
    (s.recordAll key es).edges.size ≤ s.edges.size + es.length := by
  induction es generalizing s with
  | nil => exact Nat.le_refl _
  | cons e es ih =>
    have hone : (s.propagate key e.context e.node e.fact).edges.size ≤ s.edges.size + 1 := by
      unfold propagate
      split <;> simp
    have hrest := ih (s.propagate key e.context e.node e.fact)
    change ((s.propagate key e.context e.node e.fact).recordAll key es).edges.size ≤ _
    rw [List.length_cons]
    omega

/-- Draining adds no more path edges than there are in the inbox. -/
theorem size_drain_le (s : State φ κ) : (s.drain key).edges.size ≤ s.load := by
  obtain ⟨m, hm⟩ : ∃ m, s.drain key =
      { ({ s with inbox := [] } : State φ κ).recordAll key s.inbox with injected := m } := drain_eq
  rw [hm]
  exact size_recordAll_le key s.inbox { s with inbox := [] }

end State

/-! ## Solvers -/

namespace Problem.Curtails

variable {log : σ → List τ} {P P' : Problem φ κ σ}

/-- The rule for loops of a solver. -/
theorem loop {α : Type} {f f' : State φ κ → α → Run σ (State φ κ)} (l : List α)
    (step : ∀ a ∈ l, ∀ s : State φ κ, Run.Curtails log s.SameEdges (f s a) (f' s a))
    (s : State φ κ) : Run.Curtails log s.SameEdges (l.foldlM f s) (l.foldlM f' s) :=
  Run.curtails_foldlM (S := State.SameEdges) (fun _ => rfl) State.SameEdges.trans l step s

variable [DecidableEq κ] (h : P.Curtails log P') (e : Edge φ κ) (s : State φ κ)

include h

/-! ### Calls -/

theorem reuseSummaries (callee : MethodId) (start : StmtId) (entry : κ) :
    Run.Curtails log s.SameEdges (P.reuseSummaries e callee start entry s)
      (P'.reuseSummaries e callee start entry s) := by
  unfold Problem.reuseSummaries
  rw [h.view, h.key, h.order]
  refine loop _ ?_ s
  rintro ⟨exit, fact⟩ _ t
  refine loop _ ?_ { t with reuses := t.reuses + 1 }
  intro site _ t
  exact Run.curtails_record (h.leave e.node callee exit site fact) rfl

/-- A fact that has entered is recorded, even if a finding is made on the way back. -/
theorem enterWith (callee : MethodId) (start : StmtId) (entry : φ) :
    Run.Curtails log (fun _ => True) (P.enterWith e callee start s entry)
      (P'.enterWith e callee start s entry) := by
  unfold Problem.enterWith
  rw [h.key]
  exact (h.reuseSummaries e _ callee start _).mono fun _ _ => trivial

theorem enterCallee {callee : MethodId} (hcallee : callee ∈ P.view.calleesOf e.node) :
    Run.Curtails log s.SameEdges (P.enterCallee e s callee) (P'.enterCallee e s callee) := by
  unfold Problem.enterCallee
  rw [h.view]
  refine Run.curtails_bind (h.enter e.node e.fact callee hcallee) ?_
  intro entries
  -- as long as nothing enters, nothing is recorded
  have hloop : ∀ {α : Type} {f f' : State φ κ → α → Run σ (State φ κ)} (l : List α)
      (_ : ∀ a ∈ l, ∀ s : State φ κ,
        Run.Curtails log (fun t => entries = [] → s.SameEdges t) (f s a) (f' s a)) (s : State φ κ),
      Run.Curtails log (fun t => entries = [] → s.SameEdges t) (l.foldlM f s) (l.foldlM f' s) :=
    fun l hstep s => Run.curtails_foldlM (S := fun s t => entries = [] → s.SameEdges t)
      (fun _ _ => rfl) (fun h₁ h₂ hnone => (h₁ hnone).trans (h₂ hnone)) l hstep s
  refine hloop _ ?_ s
  intro start _ t
  refine hloop _ ?_ t
  intro entry hentry t
  refine (h.enterWith e t callee start entry).mono ?_
  rintro _ _ rfl
  cases hentry

theorem passCall : Run.Curtails log s.SameEdges (P.passCall e s) (P'.passCall e s) := by
  unfold Problem.passCall
  rw [h.view, h.key]
  refine Run.curtails_bind (loop _ (fun callee hcallee t => h.enterCallee e t hcallee) s) ?_
  intro s₁
  refine Run.Curtails.mono (loop _ ?_ s₁) fun _ hlater hfirst => hfirst.trans hlater
  intro site _ t
  exact Run.curtails_record (h.bypass e.node site e.fact) rfl

/-! ### Exits -/

theorem returnTo (method : MethodId) (call : StmtId) (facts : List κ) :
    Run.Curtails log s.SameEdges (P.returnTo e method call facts s)
      (P'.returnTo e method call facts s) := by
  unfold Problem.returnTo
  rw [h.view, h.key, h.order]
  refine loop _ ?_ s
  intro site _ t
  refine Run.curtails_record (h.leave call method e.node site e.fact) ?_
  -- without an answer, no context at the call is given anything
  refine congrArg State.edges (List.foldl_fixed' ?_ facts)
  intro fact
  exact List.foldl_fixed' (fun _ => rfl) _

theorem returnFrom (method : MethodId) (start : StmtId) :
    Run.Curtails log s.SameEdges (P.returnFrom e method s start)
      (P'.returnFrom e method s start) := by
  unfold Problem.returnFrom
  rw [h.key, h.order]
  refine (loop _ (fun call _ t => h.returnTo e t method call _) _).mono ?_
  intro t ht
  exact State.SameEdges.trans (State.edges_addSummary ..) ht

theorem returnUnbalanced (method : MethodId) :
    Run.Curtails log s.SameEdges (P.returnUnbalanced e method s)
      (P'.returnUnbalanced e method s) := by
  unfold Problem.returnUnbalanced
  rw [h.view, h.key, h.zero, h.isZero]
  split
  · refine Run.curtails_bind (h.depart method e.node e.fact) ?_
    intro _
    exact Run.curtails_pure fun _ => rfl
  · refine loop _ ?_ s
    intro call _ t
    refine loop _ ?_ t
    intro site _ t
    exact Run.curtails_record (h.leave call method e.node site e.fact) rfl

theorem passExit : Run.Curtails log s.SameEdges (P.passExit e s) (P'.passExit e s) := by
  unfold Problem.passExit
  rw [h.view, h.unbalanced]
  refine Run.curtails_bind (loop _ (fun start _ t => h.returnFrom e t _ start) s) ?_
  intro s₁
  split
  · exact (h.returnUnbalanced e s₁ _).mono fun _ hlater hfirst => hfirst.trans hlater
  · exact Run.curtails_pure id

/-! ### Steps -/

theorem cross (hnode : e.node.index < P.view.size) :
    Run.Curtails log s.SameEdges (P.cross s e) (P'.cross s e) := by
  have hexit : ∀ t : State φ κ, Run.Curtails log (fun u => s.SameEdges t → s.SameEdges u)
      (if P.view.isExit e.node = true then P.passExit e t else pure t)
      (if P.view.isExit e.node = true then P'.passExit e t else pure t) := by
    intro t
    split
    · exact (h.passExit e t).mono fun _ hlater hfirst => hfirst.trans hlater
    · exact Run.curtails_pure id
  unfold Problem.cross
  rw [h.view]
  simp only [Nat.not_le.mpr hnode, if_false]
  by_cases hcall : P.view.isCall e.node = true
  · simp only [hcall, if_true]
    exact Run.curtails_bind (h.passCall e s) hexit
  · simp only [hcall]
    exact Run.curtails_bind (Run.curtails_pure (Q := s.SameEdges) rfl) hexit

theorem advance (batch : List (Edge φ κ)) :
    Run.Curtails log s.SameEdges (P.advance batch s) (P'.advance batch s) := by
  have hflows : P'.flowsOf batch = P.flowsOf batch := by
    unfold flowsOf
    rw [h.view]
  have hland : P'.land = P.land := by
    unfold land
    rw [h.key]
  unfold Problem.advance
  rw [hflows, hland, h.order]
  refine Run.curtails_bind (Run.curtails_collect (fun m _ => h.normal _ _ _) _) ?_
  intro answers
  refine Run.curtails_pure ?_
  intro hempty
  have hnone : landings (P.flowsOf batch) answers = [] := by
    refine List.flatMap_eq_nil_iff.mpr ?_
    intro r hr
    rw [hempty r.2 (List.of_mem_zip hr).2]
    rfl
  rw [land_eq, hnone]
  rfl

/-- From one state, both solvers take the same step until something is logged. A step that starts
after that records the inbox and nothing else. -/
theorem step (hnodes : ∀ e ∈ (s.drain P.key).edges, e.node.index < P.view.size) (batchSize : Nat) :
    Run.Curtails log (fun r => (s.drain P.key).SameEdges r.1) (P.step batchSize s)
      (P'.step batchSize s) := by
  unfold Problem.step
  rw [h.key]
  generalize s.drain P.key = t at hnodes ⊢
  dsimp only
  split
  · exact Run.curtails_pure rfl
  · have hbatch : ∀ e ∈ t.batch (max batchSize 1), e.node.index < P.view.size :=
      fun e he => hnodes e (State.mem_edges_of_mem_batch he)
    refine Run.curtails_bind (loop _ (fun e he u => h.cross e u (hbatch e he)) _) ?_
    intro u
    refine Run.curtails_bind (h.advance u _) ?_
    intro v
    exact Run.curtails_pure fun hlater hfirst => hfirst.trans hlater

end Problem.Curtails

end

end Tabulation

end TaintFlow
