import TaintFlow.Proofs.Tabulation.Invariant
import TaintFlow.Tabulation.FlowTable

/-!
# A tabulation is the closure of its seeds

For a problem whose flow functions depend on nothing but the key of a fact, the path edges are given
by a handful of rules (`Follows`, `PathEdge`) that mention neither order nor worklist. Whatever the
sizes of the batches, the order in which rows are gone through and the times at which edges are
injected, the table of a solver stays within these rules, and it has caught up with them whenever
the solver is idle.
-/

namespace TaintFlow.Tabulation

/-- Flow functions on keys: along every edge of a program, what one fact becomes. -/
structure Transfer (κ : Type) where
  normal : (stmt succ : StmtId) → κ → Set κ
  enter : (call : StmtId) → (callee : MethodId) → κ → Set κ
  leave : (call : StmtId) → (callee : MethodId) → (exit site : StmtId) → κ → Set κ
  bypass : (call site : StmtId) → κ → Set κ

variable {φ κ σ : Type}

def Transfer.along (T : Transfer κ) : Query → κ → Set κ
  | .normal stmt succ => T.normal stmt succ
  | .enter call callee => T.enter call callee
  | .leave call callee exit site => T.leave call callee exit site
  | .bypass call site => T.bypass call site
  | .depart _ _ => fun _ => ∅

/-- The path edges that follow in one step from those in `S`: by normal flow, past a call, into a
callee, and out of a callee back to a call whose fact entered it in the context of the exit edge. -/
inductive Follows (v : View) (T : Transfer κ) (S : κ → StmtId → κ → Prop) : κ → StmtId → κ → Prop
  | normal {c k k' : κ} {n succ : StmtId} : S c n k → v.isCall n = false → succ ∈ v.succsOf n →
    k' ∈ T.normal n succ k → Follows v T S c succ k'
  | bypass {c k k' : κ} {n site : StmtId} : S c n k → v.isCall n = true → site ∈ v.succsOf n →
    k' ∈ T.bypass n site k → Follows v T S c site k'
  | enter {c k k' : κ} {n start : StmtId} {callee : MethodId} : S c n k → v.isCall n = true →
    callee ∈ v.calleesOf n → start ∈ v.startsOf callee → k' ∈ T.enter n callee k →
    Follows v T S k' start k'
  | leave {c k c' k' k'' : κ} {n start exit site : StmtId} {callee : MethodId} : S c n k →
    v.isCall n = true → callee ∈ v.calleesOf n → start ∈ v.startsOf callee →
    c' ∈ T.enter n callee k → S c' exit k' → v.isExit exit = true → v.ownerOf exit = callee →
    site ∈ v.succsOf n → k'' ∈ T.leave n callee exit site k' → Follows v T S c site k''

/-- Whatever the world, the flow functions of `P` give the facts that `T` says. -/
def Problem.Computes (P : Problem φ κ σ) (T : Transfer κ) : Prop :=
  ∀ q f w out w', (P.ask q f).run w = .ok (out, w') →
    ∀ k, k ∈ T.along q (P.key f) ↔ ∃ d ∈ out, P.key d = k

theorem Follows.mono {v : View} {T : Transfer κ} {S S' : κ → StmtId → κ → Prop}
    (hsub : ∀ c n k, S c n k → S' c n k) {c k : κ} {n : StmtId} (h : Follows v T S c n k) :
    Follows v T S' c n k := by
  cases h with
  | normal he hcall hsucc hk => exact .normal (hsub _ _ _ he) hcall hsucc hk
  | bypass he hcall hsite hk => exact .bypass (hsub _ _ _ he) hcall hsite hk
  | enter he hcall hm hstart hk => exact .enter (hsub _ _ _ he) hcall hm hstart hk
  | leave he hcall hm hstart hent hx hexit hown hsite hk =>
    exact .leave (hsub _ _ _ he) hcall hm hstart hent (hsub _ _ _ hx) hexit hown hsite hk

/-- The least set of path edges that contains the given ones and what follows from any of its
edges. -/
inductive PathEdge (v : View) (T : Transfer κ) (given : κ → StmtId → κ → Prop) :
    κ → StmtId → κ → Prop
  | given {c k : κ} {n : StmtId} : given c n k → PathEdge v T given c n k
  | derived {S : κ → StmtId → κ → Prop} {c k : κ} {n : StmtId} :
    (∀ c n k, S c n k → PathEdge v T given c n k) → Follows v T S c n k → PathEdge v T given c n k

theorem PathEdge.follows {v : View} {T : Transfer κ} {given : κ → StmtId → κ → Prop} {c k : κ}
    {n : StmtId} (h : Follows v T (PathEdge v T given) c n k) : PathEdge v T given c n k :=
  .derived (fun _ _ _ he => he) h

namespace Problem

variable (P : Problem φ κ σ)

/-- The edges put into a solver from outside: the seeds, in the zero context, and what is
injected. -/
def Given (seeds : List (StmtId × φ)) (injected : List (Edge φ κ)) (c : κ) (n : StmtId) (k : κ) :
    Prop :=
  (∃ seed ∈ seeds, c = P.zero ∧ n = seed.1 ∧ k = P.key seed.2) ∨
  ∃ e ∈ injected, c = e.context ∧ n = e.node ∧ k = P.key e.fact

/-- The states of a solver, with the edges injected on the way. Steps may differ in the size of
their batch and start in any world. -/
inductive Reachable [BEq κ] (seeds : List (StmtId × φ)) : List (Edge φ κ) → State φ κ → Prop
  | start (w : σ) : Reachable seeds [] (State.ofSeeds P.key P.zero seeds)
  | inject {injected : List (Edge φ κ)} {s : State φ κ} (es : List (Edge φ κ)) :
    Reachable seeds injected s → Reachable seeds (injected ++ es) (s.inject es)
  | step {injected : List (Edge φ κ)} {s s' : State φ κ} {batchSize : Nat} {w w' : σ}
      {busy : Bool} :
    Reachable seeds injected s → (P.step batchSize s).run w = .ok ((s', busy), w') →
    Reachable seeds injected s'

end Problem

/-- With flow functions that compute `T`, every answer is known beforehand. -/
def Ledger.ofTransfer {P : Problem φ κ σ} {T : Transfer κ} (hT : P.Computes T) : Ledger P where
  Answered _ q f out := ∀ k, k ∈ T.along q (P.key f) ↔ ∃ d ∈ out, P.key d = k
  Enters n m f k := k ∈ T.enter n m (P.key f)
  answered hask := hT _ _ _ _ _ hask
  kept _ hold := hold
  enters_iff hout := hout _

theorem Ledger.entersAlike_ofTransfer {P : Problem φ κ σ} {T : Transfer κ} {hT : P.Computes T}
    {n : StmtId} {m : MethodId} {f : φ} {k : κ}
    (h : (Ledger.ofTransfer hT).EntersAlike n m f k) : k ∈ T.enter n m (P.key f) := by
  obtain ⟨f', hkey, hent⟩ := h
  rw [← hkey]
  exact hent

section

variable {P : Problem φ κ σ} {T : Transfer κ} {given : κ → StmtId → κ → Prop}

/-- The rules for path edges are closed under everything that a balanced solver owes. -/
theorem closed_pathEdge (hbal : P.unbalanced = false) (hT : P.Computes T) (R : Set (Edge φ κ)) :
    (Ledger.ofTransfer hT).Closed R
      {e | PathEdge P.view T given e.context e.node (P.key e.fact)} Set.univ := by
  intro q f l w out w' howed _ hask
  refine ⟨trivial, ?_⟩
  intro d hd e he
  have hk : P.key d ∈ T.along q (P.key f) := (hT q f w out w' hask _).mpr ⟨d, hd, rfl⟩
  cases howed with
  | normal hx hcall hsucc =>
    cases he
    exact .follows (.normal hx hcall hsucc hk)
  | bypass hx hcall hsite =>
    cases he
    exact .follows (.bypass hx hcall hsite hk)
  | call hx hcall hm => cases he
  | enter hx hcall hm hstart =>
    cases he
    exact .follows (.enter hx hcall hm hstart hk)
  | leave hc hcall hm hstart hent hx hexit hsite =>
    cases he
    have hent := Ledger.entersAlike_ofTransfer hent
    exact .follows (.leave hc hcall hm hstart hent hx hexit rfl hsite hk)
  | release hun =>
    rw [hbal] at hun
    cases hun

theorem PathEdge.mono {v : View} {given' : κ → StmtId → κ → Prop}
    (hsub : ∀ c n k, given c n k → given' c n k) {c k : κ} {n : StmtId}
    (h : PathEdge v T given c n k) : PathEdge v T given' c n k := by
  induction h with
  | given hg => exact .given (hsub _ _ _ hg)
  | derived _ hfollows ih => exact .derived ih hfollows

end

/-! ## Every reachable state -/

section

variable [DecidableEq κ] {P : Problem φ κ σ} {T : Transfer κ} {seeds : List (StmtId × φ)}
  {injected : List (Edge φ κ)} {s : State φ κ}

/-- What holds of every reachable state, whether exits are let out or not. -/
structure Traversed (hT : P.Computes T) (seeds : List (StmtId × φ)) (injected : List (Edge φ κ))
    (s : State φ κ) : Prop where
  standing : ∃ R w, Standing (.ofTransfer hT) R s w
  least : ∀ I : Set (Edge φ κ), (∀ R, (Ledger.ofTransfer hT).Closed R I Set.univ) →
    (∀ e : Edge φ κ, P.Given seeds injected e.context e.node (P.key e.fact) → e ∈ I) →
    ∀ e ∈ s.edges, e ∈ I
  pending : ∀ e ∈ s.inbox, e ∈ injected
  covered : ∀ c n k, P.Given seeds injected c n k →
    s.holds c n k = true ∨ ∃ e ∈ s.inbox, c = e.context ∧ n = e.node ∧ k = P.key e.fact

/-- All answers are known beforehand, so what holds between steps holds in every world. -/
theorem Traversed.exists_standing {hT : P.Computes T} (h : Traversed hT seeds injected s) (w : σ) :
    ∃ R, Standing (.ofTransfer hT) R s w := by
  obtain ⟨R, w₀, hstanding⟩ := h.standing
  exact ⟨R, hstanding.transfer rfl fun _ _ _ hout => hout⟩

theorem Traversed.ofSeeds (hT : P.Computes T) (w : σ) (seeds : List (StmtId × φ)) :
    Traversed hT seeds [] (State.ofSeeds P.key P.zero seeds) where
  standing := ⟨∅, w, .ofSeeds seeds⟩
  least I _ hgiven e he := by
    rw [State.ofSeeds_eq] at he
    rcases State.mem_edges_recordAll he with hold | hnew
    · simp at hold
    · obtain ⟨seed, hseed, rfl⟩ := List.mem_map.mp hnew
      exact hgiven _ (Or.inl ⟨seed, hseed, rfl, rfl, rfl⟩)
  pending e he := by
    rw [State.ofSeeds_eq, (State.grows_recordAll _).inbox] at he
    exact he
  covered c n k hgiven := by
    rcases hgiven with ⟨seed, hseed, rfl, rfl, rfl⟩ | ⟨e, he, -⟩
    · left
      rw [State.ofSeeds_eq, State.holds_recordAll]
      exact Or.inr ⟨_, List.mem_map_of_mem hseed, rfl, rfl, rfl⟩
    · cases he

theorem Traversed.inject {hT : P.Computes T} (h : Traversed hT seeds injected s)
    (es : List (Edge φ κ)) : Traversed hT seeds (injected ++ es) (s.inject es) where
  standing := by
    obtain ⟨R, w, hstanding⟩ := h.standing
    exact ⟨R, w, hstanding.inject es⟩
  least I hclosed hgiven := by
    apply h.least I hclosed
    rintro e (hseed | ⟨e', he', heq⟩)
    · exact hgiven e (Or.inl hseed)
    · exact hgiven e (Or.inr ⟨e', List.mem_append_left es he', heq⟩)
  pending e he := by
    rcases List.mem_append.mp he with hold | hnew
    · exact List.mem_append_left es (h.pending e hold)
    · exact List.mem_append_right injected hnew
  covered c n k hgiven := by
    have hold : P.Given seeds injected c n k ∨
        ∃ e ∈ es, c = e.context ∧ n = e.node ∧ k = P.key e.fact := by
      rcases hgiven with hseed | ⟨e, he, heq⟩
      · exact Or.inl (Or.inl hseed)
      · rcases List.mem_append.mp he with he | he
        · exact Or.inl (Or.inr ⟨e, he, heq⟩)
        · exact Or.inr ⟨e, he, heq⟩
    rcases hold with hold | ⟨e, he, heq⟩
    · rcases h.covered c n k hold with hholds | ⟨e, he, heq⟩
      · exact Or.inl hholds
      · exact Or.inr ⟨e, List.mem_append_left es he, heq⟩
    · exact Or.inr ⟨e, List.mem_append_right s.inbox he, heq⟩

theorem Traversed.step (hv : P.view.StartsOwned) {hT : P.Computes T}
    (h : Traversed hT seeds injected s) {batchSize : Nat} {s' : State φ κ} {busy : Bool} {w w' : σ}
    (hstep : (P.step batchSize s).run w = .ok ((s', busy), w')) :
    Traversed hT seeds injected s' := by
  obtain ⟨R, hstanding⟩ := h.exists_standing w
  obtain ⟨R', -, hstepped, -⟩ := ensures_step hv hstanding batchSize _ _ hstep
  refine ⟨⟨R', w', hstepped.standing⟩, ?_, ?_, ?_⟩
  · intro I hclosed hgiven e he
    -- a closed set contains what the step started from, hence what it led to
    apply hstepped.valid.edges e he I Set.univ (hclosed R') ?_ trivial
    rintro e' (hold | hinbox)
    · exact h.least I hclosed hgiven e' hold
    · exact hgiven e' (Or.inr ⟨e', h.pending e' hinbox, rfl, rfl, rfl⟩)
  · rw [hstepped.emptied]
    exact nofun
  · -- what was waiting in the inbox has been recorded
    intro c n k hgiven
    rcases h.covered c n k hgiven with hholds | ⟨e, he, rfl, rfl, rfl⟩
    · exact Or.inl (hstepped.holds hholds)
    · exact Or.inl (hstepped.received e he)

theorem Problem.Reachable.traversed (hv : P.view.StartsOwned) (hT : P.Computes T)
    (h : P.Reachable seeds injected s) : Traversed hT seeds injected s := by
  induction h with
  | start w => exact .ofSeeds hT w seeds
  | inject es _ ih => exact ih.inject es
  | step _ hstep ih => exact ih.step hv hstep

/-- Solving ends, if it does, in an idle state. -/
theorem Problem.Reachable.ensures_idle (hv : P.view.StartsOwned) (hT : P.Computes T)
    (h : P.Reachable seeds injected s) (batchSize fuel : Nat) (w : σ) :
    Run.Ensures (P.solve batchSize fuel s) w fun r _ =>
      ∀ s' ∈ r, P.Reachable seeds injected s' ∧ s'.isIdle = true := by
  induction fuel generalizing s w with
  | zero => exact Run.ensures_pure nofun
  | succ fuel ih =>
    apply Run.ensures_bind
    rintro ⟨s₁, busy⟩ w₁ hstep
    cases busy with
    | true => exact ih (.step h hstep) w₁
    | false =>
      apply Run.ensures_pure
      rintro s' ⟨⟩
      obtain ⟨R, hstanding⟩ := (h.traversed hv hT).exists_standing w
      obtain ⟨R', -, hstepped, hdone⟩ := ensures_step hv hstanding batchSize _ _ hstep
      refine ⟨.step h hstep, ?_⟩
      unfold State.isIdle
      rw [hstepped.emptied, decide_eq_true (hdone rfl)]
      rfl

/-- A settled question has brought every fact of its answer to its landing. -/
theorem Settled.lands {hT : P.Computes T} {w : σ} {q : Query} {f : φ} {l : Landing κ} {k : κ}
    (h : Settled (.ofTransfer hT) s w q f l) (hk : k ∈ T.along q (P.key f)) :
    ∃ d, P.key d = k ∧ ∀ e ∈ l.edge? P.key d, s.holds e.context e.node (P.key e.fact) = true := by
  obtain ⟨out, hout, hholds⟩ := h
  obtain ⟨d, hd, hkey⟩ := (hout k).mp hk
  exact ⟨d, hkey, hholds d hd⟩

omit [DecidableEq κ] in
theorem isIdle_iff : s.isIdle = true ↔ s.edges.size ≤ s.processed ∧ s.inbox = [] := by
  unfold State.isIdle
  rw [Bool.and_eq_true, decide_eq_true_eq, List.isEmpty_iff]

/-- What follows from the table of an idle solver was owed, so it is in the table. -/
theorem Standing.follows {hT : P.Computes T} {R : Set (Edge φ κ)} {w : σ}
    (hstanding : Standing (.ofTransfer hT) R s w) (hidle : s.isIdle = true) {c k : κ} {n : StmtId}
    (hfollows : Follows P.view T (fun c n k => s.holds c n k = true) c n k) :
    s.holds c n k = true := by
  rw [isIdle_iff] at hidle
  have hcoherent := hstanding.invariant.sane.coherent
  cases hfollows with
  | normal hheld hcall hsucc hk =>
    obtain ⟨e, he, rfl, rfl, rfl⟩ := (hcoherent.holds_iff _ _ _).mp hheld
    obtain ⟨d, rfl, hlands⟩ := (hstanding.settled hidle.1 (.normal he hcall hsucc)).lands hk
    exact hlands _ rfl
  | bypass hheld hcall hsite hk =>
    obtain ⟨e, he, rfl, rfl, rfl⟩ := (hcoherent.holds_iff _ _ _).mp hheld
    obtain ⟨d, rfl, hlands⟩ := (hstanding.settled hidle.1 (.bypass he hcall hsite)).lands hk
    exact hlands _ rfl
  | enter hheld hcall hm hstart hk =>
    obtain ⟨e, he, rfl, rfl, rfl⟩ := (hcoherent.holds_iff _ _ _).mp hheld
    obtain ⟨d, rfl, hlands⟩ := (hstanding.settled hidle.1 (.enter he hcall hm hstart)).lands hk
    exact hlands _ rfl
  | leave hheld hcall hm hstart hent hleft hexit hown hsite hk =>
    obtain ⟨e, he, rfl, rfl, rfl⟩ := (hcoherent.holds_iff _ _ _).mp hheld
    obtain ⟨x, hx, rfl, rfl, rfl⟩ := (hcoherent.holds_iff _ _ _).mp hleft
    subst hown
    obtain ⟨d, rfl, hlands⟩ :=
      (hstanding.settled hidle.1 (.leave he hcall hm hstart hent hx hexit hsite)).lands hk
    exact hlands _ rfl

/-! ## Balanced problems -/

/-- What holds of every reachable state of a solver that lets no exit out. -/
structure Explored (hT : P.Computes T) (seeds : List (StmtId × φ)) (injected : List (Edge φ κ))
    (s : State φ κ) : Prop extends Traversed hT seeds injected s where
  derived : ∀ e ∈ s.edges,
    PathEdge P.view T (P.Given seeds injected) e.context e.node (P.key e.fact)

theorem Problem.Reachable.explored (hv : P.view.StartsOwned) (hbal : P.unbalanced = false)
    (hT : P.Computes T) (h : P.Reachable seeds injected s) : Explored hT seeds injected s := by
  have htraversed := h.traversed hv hT
  refine { htraversed with derived := ?_ }
  -- the rules are a closed set that contains what was put in
  exact htraversed.least _ (closed_pathEdge hbal hT) fun e hgiven => .given hgiven

/-- The table of a reachable state contains nothing but what the rules give. -/
theorem Explored.sound {hT : P.Computes T} (h : Explored hT seeds injected s) {c k : κ}
    {n : StmtId} (hholds : s.holds c n k = true) :
    PathEdge P.view T (P.Given seeds injected) c n k := by
  obtain ⟨R, w, hstanding⟩ := h.standing
  obtain ⟨e, he, rfl, rfl, rfl⟩ := (hstanding.invariant.sane.coherent.holds_iff _ _ _).mp hholds
  exact h.derived e he

/-- The table of an idle solver contains everything that the rules give. -/
theorem Explored.complete {hT : P.Computes T} (h : Explored hT seeds injected s)
    (hidle : s.isIdle = true) {c k : κ} {n : StmtId}
    (hpath : PathEdge P.view T (P.Given seeds injected) c n k) : s.holds c n k = true := by
  obtain ⟨R, w, hstanding⟩ := h.standing
  -- by induction on the rules: the premises are in the table, so what follows from them is
  induction hpath with
  | given hgiven =>
    rcases h.covered _ _ _ hgiven with hholds | ⟨e, he, -⟩
    · exact hholds
    · rw [(isIdle_iff.mp hidle).2] at he
      cases he
  | derived _ hfollows ih => exact hstanding.follows hidle (hfollows.mono ih)

end

/-! ## Tables -/

namespace FlowTable

def transfer (t : FlowTable) : Transfer Nat where
  normal stmt succ fact := {k | k ∈ t.alongEdge (.normal stmt (some succ)) (.normal stmt none) fact}
  enter call callee fact := {k | k ∈ t.acrossMethods (.enter call callee) fact}
  leave call callee exit _ fact := {k | k ∈ t.acrossMethods (.leave call callee exit) fact}
  bypass call site fact := {k | k ∈ t.alongEdge (.bypass call (some site)) (.bypass call none) fact}

/-- Tables give flow functions that depend on nothing but the fact. -/
theorem computes (t : FlowTable) : t.problem.Computes t.transfer := by
  intro q f w out w' hask k
  have hanswer : k ∈ t.transfer.along q f ↔ k ∈ out := by
    cases q with
    | depart method exit =>
      cases hask
      simp [Transfer.along]
    | _ =>
      cases hask
      rfl
  change k ∈ t.transfer.along q f ↔ ∃ d ∈ out, d = k
  rw [hanswer, exists_eq_right]

end FlowTable

/-! Two calls of one method. From the zero fact, the first call brings `1` into it and the second
call brings `2`; they come out as `10` and `20`. -/

def twoCalls : List Description :=
  let pass : Invocation := ⟨none, ⟨"A", "void", "pass", []⟩, []⟩
  [.method "<A: void main()>" true false, .method "<A: void pass()>" true false,
    .statement ⟨0⟩ (.invoke pass), .statement ⟨0⟩ (.invoke pass), .statement ⟨0⟩ (.return none),
    .statement ⟨1⟩ .nop, .statement ⟨1⟩ (.return none)]

def twoCallsProgram : Program :=
  (Program.ofDescription twoCalls).toOption.getD ⟨#[], #[], #[], #[], #[], #[]⟩

theorem built_twoCallsProgram : twoCallsProgram.Built := ⟨twoCalls, rfl⟩

def twoFacts : FlowTable where
  view := twoCallsProgram.view .forward
  rows? place := [
    (.enter ⟨0⟩ ⟨1⟩, [(0, [1])]), (.enter ⟨1⟩ ⟨1⟩, [(0, [2])]),
    (.leave ⟨0⟩ ⟨1⟩ ⟨4⟩, [(1, [10]), (2, [20])]),
    (.leave ⟨1⟩ ⟨1⟩ ⟨4⟩, [(1, [10]), (2, [20])])].lookup place

/-! ## The closure -/

section

variable [DecidableEq κ] {P : Problem φ κ σ} {T : Transfer κ} {seeds : List (StmtId × φ)}
  {injected : List (Edge φ κ)} {s : State φ κ}

/-- In every reachable state the table is within the closure of what was put in, and in every idle
one it is that closure. -/
theorem table_eq_closure {p : Program} (hp : p.Built) {d : Direction} (hview : P.view = p.view d)
    (hbal : P.unbalanced = false) (hT : P.Computes T)
    (h : P.Reachable seeds injected s) :
    (∀ c n k, s.holds c n k = true → PathEdge (p.view d) T (P.Given seeds injected) c n k) ∧
    (s.isIdle = true → ∀ c n k,
      s.holds c n k = true ↔ PathEdge (p.view d) T (P.Given seeds injected) c n k) := by
  rw [← hview]
  have hv : P.view.StartsOwned := by
    rw [hview]
    exact hp.startsOwned d
  have hexplored := h.explored hv hbal hT
  refine ⟨fun c n k => hexplored.sound, ?_⟩
  intro hidle c n k
  exact ⟨hexplored.sound, hexplored.complete hidle⟩

end

/-- The table of an idle solver, which was handed another fact before its first step. -/
theorem table_eq_closure_twoFacts : ∃ s, twoFacts.problem.Reachable [(⟨0⟩, 0)] [⟨0, ⟨1⟩, 7⟩] s ∧
    s.isIdle = true ∧ s.holds 0 ⟨2⟩ 20 = true ∧ s.holds 0 ⟨1⟩ 20 = false ∧
    ∀ c n k, s.holds c n k = true ↔ PathEdge (twoCallsProgram.view .forward) twoFacts.transfer
      (twoFacts.problem.Given [(⟨0⟩, 0)] [⟨0, ⟨1⟩, 7⟩]) c n k := by
  have hrun : ((twoFacts.problem.solve 2 20
      ((State.ofSeeds id 0 [(⟨0⟩, 0)]).inject [⟨0, ⟨1⟩, 7⟩])).run 0).toOption.any (fun r =>
        r.1.any fun s => s.holds 0 ⟨2⟩ 20 && !s.holds 0 ⟨1⟩ 20) = true := by decide +kernel
  obtain ⟨⟨found, w⟩, hsolve, hfound⟩ := exists_of_any_toOption hrun
  obtain ⟨s, rfl, hs⟩ := (Option.any_eq_true _ _).mp hfound
  simp only [Bool.and_eq_true, Bool.not_eq_true'] at hs
  obtain ⟨hreach, hidle⟩ := Problem.Reachable.ensures_idle
    (built_twoCallsProgram.startsOwned .forward) twoFacts.computes
    (.inject [⟨0, ⟨1⟩, 7⟩] (.start 0)) 2 20 0 _ _ hsolve s rfl
  exact ⟨s, hreach, hidle, hs.1, hs.2,
    (table_eq_closure built_twoCallsProgram rfl rfl twoFacts.computes hreach).2 hidle⟩

end TaintFlow.Tabulation
