import TaintFlow.Proofs.Tabulation.Invariant

/-!
# What the work of a solver does to its state

Between the moment at which a batch is taken and the end of the step, a solver changes its state in
four ways only: it records path edges, it files callers and summaries, and it counts how often a
summary was used (`State.Builds`). This holds for every problem and every order in which rows are
gone through, and it needs nothing of the program. What these updates keep, a step keeps.

`Problem.ensures_step_builds` says what a whole step is: drain the inbox, move the cursor past one
batch, and build.
-/

namespace TaintFlow.Tabulation

variable {φ κ σ : Type} [DecidableEq κ] {key : φ → κ} {s s' s'' : State φ κ} {w : σ}

namespace State

/-- The second state comes from the first by the updates of a solver at work. -/
inductive Builds (key : φ → κ) (s : State φ κ) : State φ κ → Prop
  | refl : Builds key s s
  | propagate {s' : State φ κ} (c : κ) (n : StmtId) (f : φ) :
    Builds key s s' → Builds key s (s'.propagate key c n f)
  | addCaller {s' : State φ κ} (start : StmtId) (c : κ) (call : StmtId) (k : κ) :
    Builds key s s' → Builds key s (s'.addCaller start c call k)
  | addSummary {s' : State φ κ} (start : StmtId) (c : κ) (exit : StmtId) (f : φ) :
    Builds key s s' → Builds key s (s'.addSummary key start c exit f)
  | reuse {s' : State φ κ} : Builds key s s' → Builds key s { s' with reuses := s'.reuses + 1 }

namespace Builds

theorem trans (h : s.Builds key s') (h' : s'.Builds key s'') : s.Builds key s'' := by
  induction h' with
  | refl => exact h
  | propagate c n f _ ih => exact ih.propagate c n f
  | addCaller start c call k _ ih => exact ih.addCaller start c call k
  | addSummary start c exit f _ ih => exact ih.addSummary start c exit f
  | reuse _ ih => exact ih.reuse

theorem recordAll (h : s.Builds key s') (es : List (Edge φ κ)) :
    s.Builds key (s'.recordAll key es) := by
  induction es generalizing s' with
  | nil => exact h
  | cons e es ih => exact ih (h.propagate e.context e.node e.fact)

theorem propagateAll (h : s.Builds key s') (c : κ) (n : StmtId) (fs : List φ) :
    s.Builds key (s'.propagateAll key c n fs) := by
  rw [propagateAll_eq]
  exact h.recordAll _

/-- Nothing that is on file gets lost, and cursor and inbox stay. -/
theorem grows (h : s.Builds key s') : s.Grows s' := by
  induction h with
  | refl => exact .refl s
  | propagate c n f _ ih => exact ih.trans (grows_propagate c n f)
  | addCaller start c call k _ ih => exact ih.trans (grows_addCaller start c call k)
  | addSummary start c exit f _ ih => exact ih.trans (grows_addSummary start c exit f)
  | reuse _ ih => exact ih.trans ⟨rfl, rfl, List.prefix_refl _, id, id, id⟩

/-- The work itself counts no arrivals. -/
theorem injected (h : s.Builds key s') : s'.injected = s.injected := by
  induction h with
  | refl => rfl
  | propagate c n f _ ih =>
    rw [← ih]
    unfold State.propagate
    split <;> rfl
  | addCaller start c call k _ ih =>
    rw [← ih]
    unfold State.addCaller
    split <;> rfl
  | addSummary start c exit f _ ih =>
    rw [← ih]
    unfold State.addSummary
    split <;> rfl
  | reuse _ ih => exact ih

/-- A loop builds if every turn does. -/
theorem loop {α : Type} {f : State φ κ → α → Run σ (State φ κ)} (l : List α)
    (turn : ∀ a s w, Run.Ensures (f s a) w fun s' _ => s.Builds key s') :
    Run.Ensures (l.foldlM f s) w fun s' _ => s.Builds key s' := by
  refine Run.ensures_foldlM_prefix (I := fun _ s' _ => s.Builds key s') l ?_ .refl
  intro done a rest _ s' w' hbuilds
  exact (turn a s' w').mono fun _ _ h => hbuilds.trans h

/-- Recording an answer builds, whatever the answer is. -/
theorem record (m : Run σ (List φ)) (c : κ) (n : StmtId) :
    Run.Ensures (do
      let out ← m
      return s.propagateAll key c n out) w fun s' _ => s.Builds key s' := by
  apply Run.ensures_bind
  intro out w' _
  exact Run.ensures_pure (Builds.refl.propagateAll c n out)

end Builds

end State

/-! ## One lemma for every function of the solver -/

namespace Problem

variable (P : Problem φ κ σ) (e : Edge φ κ)

theorem builds_reuseSummaries (callee : MethodId) (start : StmtId) (entry : κ) :
    Run.Ensures (P.reuseSummaries e callee start entry s) w fun s' _ => s.Builds P.key s' := by
  apply State.Builds.loop
  intro r s₁ w₁
  refine (State.Builds.loop _ ?_).mono fun s₂ _ h => (State.Builds.refl.reuse).trans h
  intro site s₂ w₂
  exact State.Builds.record _ _ _

theorem builds_enterWith (callee : MethodId) (start : StmtId) (entry : φ) :
    Run.Ensures (P.enterWith e callee start s entry) w fun s' _ => s.Builds P.key s' := by
  refine (P.builds_reuseSummaries e callee start (P.key entry)).mono ?_
  intro s' _ h
  have hentered : s.Builds P.key ((s.propagate P.key (P.key entry) start entry).addCaller start
      (P.key entry) e.node (P.key e.fact)) :=
    (State.Builds.refl.propagate _ _ _).addCaller _ _ _ _
  exact hentered.trans h

theorem builds_enterCallee (callee : MethodId) :
    Run.Ensures (P.enterCallee e s callee) w fun s' _ => s.Builds P.key s' := by
  apply Run.ensures_bind
  intro entries w₁ _
  apply State.Builds.loop
  intro start s₂ w₂
  apply State.Builds.loop
  intro entry s₃ w₃
  exact P.builds_enterWith e callee start entry

theorem builds_passCall : Run.Ensures (P.passCall e s) w fun s' _ => s.Builds P.key s' := by
  apply Run.ensures_bind
  refine (State.Builds.loop _ fun callee s₁ w₁ => P.builds_enterCallee e callee).mono ?_
  intro s₁ w₁ hentered
  refine (State.Builds.loop _ ?_).mono fun s₂ _ h => hentered.trans h
  intro site s₂ w₂
  exact State.Builds.record _ _ _

theorem builds_returnTo (method : MethodId) (call : StmtId) (facts : List κ) :
    Run.Ensures (P.returnTo e method call facts s) w fun s' _ => s.Builds P.key s' := by
  apply State.Builds.loop
  intro site s₁ w₁
  apply Run.ensures_bind
  intro out w₂ _
  apply Run.ensures_pure
  -- two plain loops, which record the answer in one context after the other
  refine List.foldlRecOn (motive := fun s => s₁.Builds P.key s) facts _ .refl ?_
  intro s₂ h₂ fact _
  refine List.foldlRecOn (motive := fun s => s₁.Builds P.key s) _ _ h₂ ?_
  intro s₃ h₃ context _
  exact h₃.propagateAll context site out

theorem builds_returnFrom (method : MethodId) (start : StmtId) :
    Run.Ensures (P.returnFrom e method s start) w fun s' _ => s.Builds P.key s' := by
  refine (State.Builds.loop _ ?_).mono fun s₂ _ h =>
    (State.Builds.refl.addSummary start e.context e.node e.fact).trans h
  intro call s₂ w₂
  exact P.builds_returnTo e method call _

theorem builds_returnUnbalanced (method : MethodId) :
    Run.Ensures (P.returnUnbalanced e method s) w fun s' _ => s.Builds P.key s' := by
  unfold returnUnbalanced
  split
  · apply Run.ensures_bind
    intro _ w₁ _
    exact Run.ensures_pure .refl
  · apply State.Builds.loop
    intro call s₁ w₁
    apply State.Builds.loop
    intro site s₂ w₂
    apply Run.ensures_bind
    intro out w₃ _
    apply Run.ensures_pure
    refine List.foldlRecOn (motive := fun s => s₂.Builds P.key s) out _ .refl ?_
    intro s₃ h₃ fact _
    exact h₃.propagate _ site fact

theorem builds_passExit : Run.Ensures (P.passExit e s) w fun s' _ => s.Builds P.key s' := by
  apply Run.ensures_bind
  refine (State.Builds.loop _ fun start s₁ w₁ => P.builds_returnFrom e _ start).mono ?_
  intro s₁ w₁ hreturned
  split
  · exact (P.builds_returnUnbalanced e _).mono fun s₂ _ h => hreturned.trans h
  · exact Run.ensures_pure hreturned

theorem builds_cross : Run.Ensures (P.cross s e) w fun s' _ => s.Builds P.key s' := by
  -- an exit is dealt with after a call, so the two parts are followed one by one
  have hexit : ∀ s₁ w₁, s.Builds P.key s₁ → Run.Ensures
      (if P.view.isExit e.node = true then P.passExit e s₁ else pure s₁) w₁
      fun s' _ => s.Builds P.key s' := by
    intro s₁ w₁ h₁
    split
    · exact (P.builds_passExit e).mono fun s₂ _ h => h₁.trans h
    · exact Run.ensures_pure h₁
  unfold cross
  by_cases hsize : P.view.size ≤ e.node.index
  · simp only [hsize, if_true]
    exact Run.ensures_bind Run.ensures_throw
  · simp only [hsize, if_false]
    by_cases hcall : P.view.isCall e.node = true
    · simp only [hcall, if_true]
      exact Run.ensures_bind ((P.builds_passCall e).mono hexit)
    · simp only [hcall]
      exact Run.ensures_bind (Run.ensures_pure (hexit s w .refl))

theorem builds_advance (batch : List (Edge φ κ)) :
    Run.Ensures (P.advance batch s) w fun s' _ => s.Builds P.key s' := by
  apply Run.ensures_bind
  intro answers w₁ _
  apply Run.ensures_pure
  rw [land_eq]
  exact State.Builds.refl.recordAll _

end Problem

/-! ## Steps -/

/-- The batch that the next step works off. -/
def State.taken (key : φ → κ) (batchSize : Nat) (s : State φ κ) : List (Edge φ κ) :=
  (s.drain key).batch (max batchSize 1)

theorem State.length_taken_le (key : φ → κ) (batchSize : Nat) (s : State φ κ) :
    (s.taken key batchSize).length ≤ max batchSize 1 := by
  unfold taken
  rw [batch_eq, List.length_take]
  omega

/-- A step drains the inbox, moves the cursor past the batch and works on from there. It is busy if
the batch is not empty. -/
theorem Problem.ensures_step_builds (P : Problem φ κ σ) (batchSize : Nat) :
    Run.Ensures (P.step batchSize s) w fun r _ => r.2 = !(s.taken P.key batchSize).isEmpty ∧
      ∃ m, State.Builds P.key { s.drain P.key with
        processed := (s.drain P.key).processed + (s.taken P.key batchSize).length
        iterations := m } r.1 := by
  unfold step
  change Run.Ensures (if (s.taken P.key batchSize).isEmpty = true then _ else _) w _
  split
  · next hempty =>
    apply Run.ensures_pure
    refine ⟨by rw [hempty]; rfl, (s.drain P.key).iterations, ?_⟩
    rw [List.isEmpty_iff.mp hempty]
    exact .refl
  · next hbusy =>
    apply Run.ensures_bind
    refine (State.Builds.loop _ fun e s₁ w₁ => P.builds_cross e).mono ?_
    intro s₁ w₁ hcrossed
    apply Run.ensures_bind
    refine (P.builds_advance _).mono ?_
    intro s₂ w₂ hadvanced
    apply Run.ensures_pure
    refine ⟨?_, (s.drain P.key).iterations + 1, hcrossed.trans hadvanced⟩
    rw [Bool.not_eq_true] at hbusy
    rw [hbusy]
    rfl

/-- A step works off its batch and nothing else. -/
theorem Problem.ensures_step_processed (P : Problem φ κ σ) (batchSize : Nat) :
    Run.Ensures (P.step batchSize s) w fun r _ => r.2 = !(s.taken P.key batchSize).isEmpty ∧
      r.1.processed = s.processed + (s.taken P.key batchSize).length := by
  refine (P.ensures_step_builds batchSize).mono ?_
  rintro r _ ⟨hbusy, m, hbuilds⟩
  refine ⟨hbusy, ?_⟩
  rw [hbuilds.grows.processed, State.processed_drain]

end TaintFlow.Tabulation
