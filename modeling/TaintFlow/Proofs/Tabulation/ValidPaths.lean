import Mathlib.Logic.Relation
import TaintFlow.Proofs.Tabulation.Closure

/-!
# A tabulation is the meet over valid paths

Path edges know nothing of call stacks: a context stands for all the stacks under which a method was
entered with it. Here the stacks are put back. `Moves` runs a single fact through the program with
an explicit stack of calls, and returns only to the call on top of the stack.

The facts of a finished table are exactly the facts that such runs reach. From left to right a path
edge is unfolded into a run that leaves the stack below it alone (`pathEdge_sameLevel`). From right
to left every stack is folded into a chain of path edges, one for each call on it (`Unwinds`).
-/

namespace TaintFlow.Tabulation

variable {φ κ σ : Type}

/-- A fact before a statement, under a stack of calls, the innermost first. -/
structure Config (κ : Type) where
  stack : List StmtId
  node : StmtId
  fact : κ

/-- One step of one fact. -/
inductive Moves (v : View) (T : Transfer κ) : Config κ → Config κ → Prop
  | normal {stack : List StmtId} {n succ : StmtId} {k k' : κ} :
    v.isCall n = false → succ ∈ v.succsOf n → k' ∈ T.normal n succ k →
    Moves v T ⟨stack, n, k⟩ ⟨stack, succ, k'⟩
  | bypass {stack : List StmtId} {n site : StmtId} {k k' : κ} :
    v.isCall n = true → site ∈ v.succsOf n → k' ∈ T.bypass n site k →
    Moves v T ⟨stack, n, k⟩ ⟨stack, site, k'⟩
  | enter {stack : List StmtId} {n start : StmtId} {callee : MethodId} {k k' : κ} :
    v.isCall n = true → callee ∈ v.calleesOf n → start ∈ v.startsOf callee →
    k' ∈ T.enter n callee k → Moves v T ⟨stack, n, k⟩ ⟨n :: stack, start, k'⟩
  | leave {stack : List StmtId} {n exit site : StmtId} {callee : MethodId} {k k' : κ} :
    v.isExit exit = true → v.ownerOf exit = callee → callee ∈ v.calleesOf n →
    site ∈ v.succsOf n → k' ∈ T.leave n callee exit site k →
    Moves v T ⟨n :: stack, exit, k⟩ ⟨stack, site, k'⟩

/-- The configuration comes up in a run from one of the seeds under the empty stack. -/
def Arises (v : View) (T : Transfer κ) (seeds : List StmtId) (zero : κ) (c : Config κ) : Prop :=
  ∃ seed ∈ seeds, Relation.ReflTransGen (Moves v T) ⟨[], seed, zero⟩ c

section

variable {v : View} {T : Transfer κ} {seeds : List StmtId} {zero : κ}

theorem Arises.trans {c c' : Config κ} (h : Arises v T seeds zero c)
    (hrun : Relation.ReflTransGen (Moves v T) c c') : Arises v T seeds zero c' := by
  obtain ⟨seed, hseed, hrun₀⟩ := h
  exact ⟨seed, hseed, hrun₀.trans hrun⟩

/-- The seeds as path edges: the zero fact in the zero context. -/
def SeedEdge (seeds : List StmtId) (zero : κ) (c : κ) (n : StmtId) (k : κ) : Prop :=
  n ∈ seeds ∧ c = zero ∧ k = zero

/-! ## From path edges to runs -/

/-- A path edge is a run of its method from a start at which its context arises, whatever the stack
below. -/
theorem pathEdge_sameLevel (hv : v.StartsOwned) (hlocal : v.EdgesLocal)
    (hseeds : ∀ n ∈ seeds, ∃ m, n ∈ v.startsOf m) {c k : κ} {n : StmtId}
    (h : PathEdge v T (SeedEdge seeds zero) c n k) :
    ∃ start ∈ v.startsOf (v.ownerOf n), (∃ stack, Arises v T seeds zero ⟨stack, start, c⟩) ∧
      ∀ stack, Relation.ReflTransGen (Moves v T) ⟨stack, start, c⟩ ⟨stack, n, k⟩ := by
  induction h with
  | given hgiven =>
    obtain ⟨hseed, rfl, rfl⟩ := hgiven
    obtain ⟨m, hm⟩ := hseeds _ hseed
    refine ⟨_, ?_, ⟨[], _, hseed, .refl⟩, fun _ => .refl⟩
    rw [hv m _ hm]
    exact hm
  | derived _ hfollows ih =>
    cases hfollows with
    | normal hedge hcall hsucc hk =>
      obtain ⟨start, hstart, harises, hrun⟩ := ih _ _ _ hedge
      refine ⟨start, ?_, harises, fun stack => (hrun stack).tail (.normal hcall hsucc hk)⟩
      rw [hlocal _ _ hsucc]
      exact hstart
    | bypass hedge hcall hsite hk =>
      obtain ⟨start, hstart, harises, hrun⟩ := ih _ _ _ hedge
      refine ⟨start, ?_, harises, fun stack => (hrun stack).tail (.bypass hcall hsite hk)⟩
      rw [hlocal _ _ hsite]
      exact hstart
    | enter hedge hcall hm hstart hk =>
      -- the callee starts a level of its own; what is kept is that its entry arises at all
      obtain ⟨start₀, -, ⟨stack, harises⟩, hrun⟩ := ih _ _ _ hedge
      refine ⟨_, ?_, ⟨_, (harises.trans (hrun stack)).trans (.single (.enter hcall hm hstart hk))⟩,
        fun _ => .refl⟩
      rw [hv _ _ hstart]
      exact hstart
    | leave hedge hcall hm _ hent hedge' hexit hown hsite hk =>
      obtain ⟨start, hstart, harises, hrun⟩ := ih _ _ _ hedge
      obtain ⟨start', hstart', -, hrun'⟩ := ih _ _ _ hedge'
      refine ⟨start, ?_, harises, ?_⟩
      · rw [hlocal _ _ hsite]
        exact hstart
      · intro stack
        rw [hown] at hstart'
        -- down to the call, into the callee, through it on top of the call, and out again
        have hdown := (hrun stack).tail (.enter hcall hm hstart' hent)
        exact (hdown.trans (hrun' _)).tail (.leave hexit hown hm hsite hk)

theorem arises_of_pathEdge (hv : v.StartsOwned) (hlocal : v.EdgesLocal)
    (hseeds : ∀ n ∈ seeds, ∃ m, n ∈ v.startsOf m) {c k : κ} {n : StmtId}
    (h : PathEdge v T (SeedEdge seeds zero) c n k) :
    ∃ stack, Arises v T seeds zero ⟨stack, n, k⟩ := by
  obtain ⟨start, -, ⟨stack, harises⟩, hrun⟩ := pathEdge_sameLevel hv hlocal hseeds h
  exact ⟨stack, harises.trans (hrun stack)⟩

/-! ## From runs to path edges -/

/-- A path edge at `call` whose fact enters `callee` in the context `entry`. -/
def EntersFrom (v : View) (T : Transfer κ) (E : κ → StmtId → κ → Prop) (call : StmtId)
    (callee : MethodId) (entry c : κ) : Prop :=
  ∃ k, E c call k ∧ v.isCall call = true ∧ callee ∈ v.calleesOf call ∧
    (∃ start, start ∈ v.startsOf callee) ∧ entry ∈ T.enter call callee k

/-- Every call on the stack has a path edge by which the context above it was entered. -/
def Unwinds (v : View) (T : Transfer κ) (E : κ → StmtId → κ → Prop) :
    List StmtId → MethodId → κ → Prop
  | [], _, _ => True
  | call :: stack, m, entry =>
    ∃ c, EntersFrom v T E call m entry c ∧ Unwinds v T E stack (v.ownerOf call) c

/-- A configuration is a path edge on top of a stack that unwinds. -/
def Folded (v : View) (T : Transfer κ) (E : κ → StmtId → κ → Prop) (c : Config κ) : Prop :=
  ∃ entry, E entry c.node c.fact ∧ Unwinds v T E c.stack (v.ownerOf c.node) entry

theorem Folded.moves (hv : v.StartsOwned) (hlocal : v.EdgesLocal)
    {given : κ → StmtId → κ → Prop} {c c' : Config κ} (h : Folded v T (PathEdge v T given) c)
    (hmove : Moves v T c c') : Folded v T (PathEdge v T given) c' := by
  obtain ⟨entry, hpath, hunwinds⟩ := h
  cases hmove with
  | normal hcall hsucc hk =>
    refine ⟨entry, .follows (.normal hpath hcall hsucc hk), ?_⟩
    rw [hlocal _ _ hsucc]
    exact hunwinds
  | bypass hcall hsite hk =>
    refine ⟨entry, .follows (.bypass hpath hcall hsite hk), ?_⟩
    rw [hlocal _ _ hsite]
    exact hunwinds
  | @enter stack n start callee k k' hcall hm hstart hk =>
    -- the path edge at the call becomes the top link of the chain
    refine ⟨k', .follows (.enter hpath hcall hm hstart hk), entry, ?_, hunwinds⟩
    rw [hv _ _ hstart]
    exact ⟨k, hpath, hcall, hm, ⟨start, hstart⟩, hk⟩
  | leave hexit hown _ hsite hk =>
    -- the top link is a path edge at the call popped, and its context takes over
    obtain ⟨c, ⟨k₀, hcaller, hcall, hm, ⟨start, hstart⟩, hent⟩, hrest⟩ := hunwinds
    subst hown
    have hreturn := Follows.leave hcaller hcall hm hstart hent hpath hexit rfl hsite hk
    refine ⟨c, .follows hreturn, ?_⟩
    rw [hlocal _ _ hsite]
    exact hrest

theorem folded_of_arises (hv : v.StartsOwned) (hlocal : v.EdgesLocal) {c : Config κ}
    (h : Arises v T seeds zero c) : Folded v T (PathEdge v T (SeedEdge seeds zero)) c := by
  obtain ⟨seed, hseed, hrun⟩ := h
  induction hrun with
  | refl => exact ⟨zero, .given ⟨hseed, rfl, rfl⟩, trivial⟩
  | tail _ hmove ih => exact ih.moves hv hlocal hmove

/-! ## Both ways -/

theorem pathEdge_iff_arises (hv : v.StartsOwned) (hlocal : v.EdgesLocal)
    (hseeds : ∀ n ∈ seeds, ∃ m, n ∈ v.startsOf m) {n : StmtId} {k : κ} :
    (∃ c, PathEdge v T (SeedEdge seeds zero) c n k) ↔
      ∃ stack, Arises v T seeds zero ⟨stack, n, k⟩ := by
  constructor
  · rintro ⟨c, hpath⟩
    exact arises_of_pathEdge hv hlocal hseeds hpath
  · rintro ⟨stack, harises⟩
    obtain ⟨c, hpath, -⟩ := folded_of_arises hv hlocal harises
    exact ⟨c, hpath⟩

/-- A fact is inside a call if and only if some fact before that call entered the method in the
context in which it holds. -/
theorem entersFrom_iff_arises (hv : v.StartsOwned) (hlocal : v.EdgesLocal)
    (hseeds : ∀ n ∈ seeds, ∃ m, n ∈ v.startsOf m) {call n : StmtId} {k : κ} :
    (∃ entry c, PathEdge v T (SeedEdge seeds zero) entry n k ∧
      EntersFrom v T (PathEdge v T (SeedEdge seeds zero)) call (v.ownerOf n) entry c) ↔
      ∃ stack, Arises v T seeds zero ⟨call :: stack, n, k⟩ := by
  constructor
  · rintro ⟨entry, c, hpath, k₀, hcaller, hcall, hm, -, hent⟩
    obtain ⟨start, hstart, -, hrun⟩ := pathEdge_sameLevel hv hlocal hseeds hpath
    obtain ⟨stack, harises⟩ := arises_of_pathEdge hv hlocal hseeds hcaller
    exact ⟨stack, (harises.trans (.single (.enter hcall hm hstart hent))).trans (hrun _)⟩
  · rintro ⟨stack, harises⟩
    obtain ⟨entry, hpath, c, henters, -⟩ := folded_of_arises hv hlocal harises
    exact ⟨entry, c, hpath, henters⟩

end

/-! ## Finished tables -/

section

variable [DecidableEq κ] {P : Problem φ κ σ} {T : Transfer κ} {seeds : List (StmtId × φ)}
  {s : State φ κ}

omit [DecidableEq κ] in
theorem given_iff_seedEdge (hzero : ∀ seed ∈ seeds, P.key seed.2 = P.zero) (c : κ) (n : StmtId)
    (k : κ) : P.Given seeds [] c n k ↔ SeedEdge (seeds.map Prod.fst) P.zero c n k := by
  constructor
  · rintro (⟨seed, hseed, rfl, rfl, rfl⟩ | ⟨e, he, -⟩)
    · exact ⟨List.mem_map_of_mem hseed, rfl, hzero seed hseed⟩
    · cases he
  · rintro ⟨hn, rfl, rfl⟩
    obtain ⟨seed, hseed, rfl⟩ := List.mem_map.mp hn
    exact Or.inl ⟨seed, hseed, rfl, rfl, (hzero seed hseed).symm⟩

/-- A finished table holds the path edges that follow from the zero facts at its seeds. -/
theorem holds_iff_of_solve (hv : P.view.StartsOwned) (hbal : P.unbalanced = false)
    (hT : P.Computes T) (hzero : ∀ seed ∈ seeds, P.key seed.2 = P.zero) {batchSize fuel : Nat}
    {w w' : σ} (hsolve : (P.solve batchSize fuel (State.ofSeeds P.key P.zero seeds)).run w =
      .ok (some s, w')) (c : κ) (n : StmtId) (k : κ) :
    s.holds c n k = true ↔ PathEdge P.view T (SeedEdge (seeds.map Prod.fst) P.zero) c n k := by
  obtain ⟨hreach, hidle⟩ :=
    Problem.Reachable.ensures_idle hv hT (.start w) batchSize fuel w _ _ hsolve s rfl
  have hexplored := hreach.explored hv hbal hT
  constructor
  · intro hholds
    exact (hexplored.sound hholds).mono fun c n k => (given_iff_seedEdge hzero c n k).mp
  · intro hpath
    exact hexplored.complete hidle (hpath.mono fun c n k => (given_iff_seedEdge hzero c n k).mpr)

/-- A finished table holds before every statement exactly the facts that arise there under some
stack. A fact is inside a call, and so comes out there, if and only if some fact before that very
call entered the method in the context in which it holds. -/
theorem factsAt_iff_arises {p : Program} (hp : p.Built) {d : Direction} (hview : P.view = p.view d)
    (hbal : P.unbalanced = false) (hT : P.Computes T)
    (hzero : ∀ seed ∈ seeds, P.key seed.2 = P.zero)
    (hstarts : ∀ seed ∈ seeds, ∃ m, seed.1 ∈ (p.view d).startsOf m) {batchSize fuel : Nat}
    {w w' : σ} (hsolve : (P.solve batchSize fuel (State.ofSeeds P.key P.zero seeds)).run w =
      .ok (some s, w')) :
    (∀ n k, k ∈ s.factsAt n ↔
      ∃ stack, Arises (p.view d) T (seeds.map Prod.fst) P.zero ⟨stack, n, k⟩) ∧
    ∀ call n k,
      (∃ stack, Arises (p.view d) T (seeds.map Prod.fst) P.zero ⟨call :: stack, n, k⟩) ↔
      (p.view d).isCall call = true ∧ (p.view d).ownerOf n ∈ (p.view d).calleesOf call ∧
        ∃ k₀ ∈ s.factsAt call, ∃ entry ∈ T.enter call ((p.view d).ownerOf n) k₀,
          s.holds entry n k = true := by
  have hv : P.view.StartsOwned := hview ▸ hp.startsOwned d
  have hlocal : P.view.EdgesLocal := hview ▸ hp.edgesLocal d
  rw [← hview] at hstarts ⊢
  have hseeds : ∀ n ∈ seeds.map Prod.fst, ∃ m, n ∈ P.view.startsOf m := by
    intro n hn
    obtain ⟨seed, hseed, rfl⟩ := List.mem_map.mp hn
    exact hstarts seed hseed
  have htable := holds_iff_of_solve hv hbal hT hzero hsolve
  constructor
  · intro n k
    rw [State.mem_factsAt, ← pathEdge_iff_arises hv hlocal hseeds]
    simp only [htable]
  · intro call n k
    rw [← entersFrom_iff_arises hv hlocal hseeds]
    simp only [State.mem_factsAt, htable]
    constructor
    · rintro ⟨entry, c, hpath, k₀, hcaller, hcall, hm, -, hent⟩
      exact ⟨hcall, hm, k₀, ⟨c, hcaller⟩, entry, hent, hpath⟩
    · rintro ⟨hcall, hm, k₀, ⟨c, hcaller⟩, entry, hent, hpath⟩
      obtain ⟨start, hstart, -⟩ := pathEdge_sameLevel hv hlocal hseeds hpath
      exact ⟨entry, c, hpath, k₀, hcaller, hcall, hm, ⟨start, hstart⟩, hent⟩

end

/-- The fact that the second call brings in does not come out at the first. -/
theorem factsAt_iff_arises_twoFacts : ∃ s w,
    (twoFacts.problem.solve 1 20 (State.ofSeeds id 0 [(⟨0⟩, 0)])).run 0 = .ok (some s, w) ∧
    20 ∉ s.factsAt ⟨1⟩ ∧ 20 ∈ s.factsAt ⟨2⟩ ∧
    ∀ n k, k ∈ s.factsAt n ↔ ∃ stack,
      Arises (twoCallsProgram.view .forward) twoFacts.transfer [⟨0⟩] 0 ⟨stack, n, k⟩ := by
  have hrun : ((twoFacts.problem.solve 1 20 (State.ofSeeds id 0 [(⟨0⟩, 0)])).run 0).toOption.any
      (fun r => r.1.any fun s => decide (20 ∉ s.factsAt ⟨1⟩ ∧ 20 ∈ s.factsAt ⟨2⟩)) = true := by
    decide +kernel
  obtain ⟨⟨found, w⟩, hsolve, hfound⟩ := exists_of_any_toOption hrun
  obtain ⟨s, rfl, hs⟩ := (Option.any_eq_true _ _).mp hfound
  obtain ⟨hfirst, hsecond⟩ := of_decide_eq_true hs
  have hstarts : ∀ seed ∈ [((⟨0⟩ : StmtId), 0)],
      ∃ m, seed.1 ∈ (twoCallsProgram.view .forward).startsOf m := by
    intro seed hseed
    rw [List.mem_singleton.mp hseed]
    exact ⟨⟨0⟩, by decide +kernel⟩
  refine ⟨s, w, hsolve, hfirst, hsecond, ?_⟩
  exact (factsAt_iff_arises built_twoCallsProgram rfl rfl twoFacts.computes (by decide) hstarts
    hsolve).1

end TaintFlow.Tabulation
