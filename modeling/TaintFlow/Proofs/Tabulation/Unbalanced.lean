import TaintFlow.Proofs.Tabulation.Closure

/-!
# Exits that no call waits for

An unbalanced solver lets an exit edge out into every caller of its method if no call has brought
its context in. It decides so once, when it reaches the edge, and a call may bring the context in
later. What ends up in the table therefore depends on the schedule, but only between two bounds:

* the table of an idle solver is closed under flow, and every exit edge that no call edge of that
  table accounts for has been let out;
* no table ever contains more than the least set that is closed under flow and under letting out
  every exit edge, accounted for or not.
-/

namespace TaintFlow.Tabulation

variable {φ κ σ : Type}

section

variable (P : Problem φ κ σ) (T : Transfer κ)

/-- The path edges by which an exit edge leaves its method into every caller. The zero context stays
zero, and any other starts over with the fact that comes out. -/
inductive ComesOut (c : κ) (exit : StmtId) (k : κ) : κ → StmtId → κ → Prop
  | mk {call site : StmtId} {k' : κ} :
    call ∈ P.view.callersOf (P.view.ownerOf exit) → site ∈ P.view.succsOf call →
    k' ∈ T.leave call (P.view.ownerOf exit) exit site k →
    ComesOut c exit k (if P.isZero c then P.zero else k') site k'

/-- A call edge in `S` brings the context `c` into the method of `exit`. -/
def BroughtIn (S : κ → StmtId → κ → Prop) (c : κ) (exit : StmtId) : Prop :=
  ∃ c₀ call k₀, S c₀ call k₀ ∧ P.view.isCall call = true ∧
    P.view.ownerOf exit ∈ P.view.calleesOf call ∧
    (∃ start, start ∈ P.view.startsOf (P.view.ownerOf exit)) ∧
    c ∈ T.enter call (P.view.ownerOf exit) k₀

/-- `S` contains what is given and is closed under flow and under letting out every exit edge. -/
structure Loose (given S : κ → StmtId → κ → Prop) : Prop where
  given : ∀ {c n k}, given c n k → S c n k
  follows : ∀ {c n k}, Follows P.view T S c n k → S c n k
  comesOut : ∀ {c exit k c' n k'}, S c exit k → P.view.isExit exit = true →
    ComesOut P T c exit k c' n k' → S c' n k'

/-- The edges in every such set. -/
def LooseEdge (given : κ → StmtId → κ → Prop) (c : κ) (n : StmtId) (k : κ) : Prop :=
  ∀ S, Loose P T given S → S c n k

variable {P T}

/-- The edges in every such set form such a set themselves, the least one. -/
theorem loose_looseEdge (given : κ → StmtId → κ → Prop) :
    Loose P T given (LooseEdge P T given) where
  given hg _ hS := hS.given hg
  follows hfollows S hS := hS.follows (hfollows.mono fun _ _ _ he => he S hS)
  comesOut he hexit hout S hS := hS.comesOut (he S hS) hexit hout

/-- Whatever a solver owes to edges of a loose set, exits let out or not, stays in the set. -/
theorem Loose.closed {given S : κ → StmtId → κ → Prop} (h : Loose P T given S) (hT : P.Computes T)
    (R : Set (Edge φ κ)) :
    (Ledger.ofTransfer hT).Closed R {e | S e.context e.node (P.key e.fact)} Set.univ := by
  intro q f l w out w' howed _ hask
  refine ⟨trivial, ?_⟩
  intro d hd e he
  have hk : P.key d ∈ T.along q (P.key f) := (hT q f w out w' hask _).mpr ⟨d, hd, rfl⟩
  cases howed with
  | normal hx hcall hsucc =>
    cases he
    exact h.follows (.normal hx hcall hsucc hk)
  | bypass hx hcall hsite =>
    cases he
    exact h.follows (.bypass hx hcall hsite hk)
  | call hx hcall hm => cases he
  | enter hx hcall hm hstart =>
    cases he
    exact h.follows (.enter hx hcall hm hstart hk)
  | leave hc hcall hm hstart hent hx hexit hsite =>
    cases he
    have hent := Ledger.entersAlike_ofTransfer hent
    exact h.follows (.leave hc hcall hm hstart hent hx hexit rfl hsite hk)
  | @release x _ _ _ hx hexit hrel =>
    cases hrel with
    | departure hnone => cases he
    | toCaller hcall hsite =>
      have hout := h.comesOut hx.1 hexit (.mk hcall hsite hk)
      split at he
      · next hzero =>
        cases he
        rw [if_pos hzero] at hout
        exact hout
      · next hzero =>
        cases he
        rw [if_neg hzero] at hout
        exact hout

end

section

variable [DecidableEq κ] {P : Problem φ κ σ} {T : Transfer κ} {seeds : List (StmtId × φ)}
  {injected : List (Edge φ κ)} {s : State φ κ}

/-- An exit edge whose context no call edge of the table brings in has been let out. -/
theorem Standing.mem_released {hT : P.Computes T} {R : Set (Edge φ κ)} {w : σ}
    (h : Standing (.ofTransfer hT) R s w) (hv : P.view.StartsOwned) (hun : P.unbalanced = true)
    (hdone : s.edges.size ≤ s.processed) {x : Edge φ κ} (hx : x ∈ s.edges)
    (hexit : P.view.isExit x.node = true)
    (horphan : ¬ BroughtIn P T (fun c n k => s.holds c n k = true) x.context x.node) : x ∈ R := by
  have hinv := h.invariant
  rw [State.worked_of_size_le hdone] at hinv
  apply hinv.unclaimed hun x hx hexit
  intro start hstart call k hrow
  -- a claim on file stems from a call edge of the table, which brings the context in
  obtain ⟨e, he, rfl, rfl, hcall, m, hm, hstart', hent⟩ := hinv.sane.incoming hrow
  have howner : m = P.view.ownerOf x.node := (hv _ _ hstart').symm.trans (hv _ _ hstart)
  subst howner
  exact horphan ⟨e.context, e.node, P.key e.fact, hinv.sane.coherent.holds_of_mem he, hcall, hm,
    ⟨start, hstart⟩, hent⟩

/-- What such an exit edge leads to in the callers is in the table of an idle solver. -/
theorem Standing.comesOut {hT : P.Computes T} {R : Set (Edge φ κ)} {w : σ}
    (h : Standing (.ofTransfer hT) R s w) (hv : P.view.StartsOwned) (hun : P.unbalanced = true)
    (hdone : s.edges.size ≤ s.processed) {c k c' k' : κ} {exit n : StmtId}
    (hheld : s.holds c exit k = true) (hexit : P.view.isExit exit = true)
    (horphan : ¬ BroughtIn P T (fun c n k => s.holds c n k = true) c exit)
    (hout : ComesOut P T c exit k c' n k') : s.holds c' n k' = true := by
  obtain ⟨x, hx, rfl, rfl, rfl⟩ := (h.invariant.sane.coherent.holds_iff _ _ _).mp hheld
  have hreleased := h.mem_released hv hun hdone hx hexit horphan
  obtain ⟨hcall, hsite, hk⟩ := hout
  have howed := h.settled hdone (.release hun hreleased hexit (.toCaller hcall hsite))
  obtain ⟨d, rfl, hlands⟩ := howed.lands hk
  -- under zero the edge stays under zero in the caller, otherwise it starts anew
  by_cases hzero : P.isZero x.context = true
  · rw [if_pos hzero] at hlands ⊢
    exact hlands _ rfl
  · rw [if_neg hzero] at hlands ⊢
    exact hlands _ rfl

/-- The table of an idle solver contains what was put in, what follows from it by flow, and what
comes out of every exit that no call of the table accounts for. The table of any reachable state is
within the least set in which every exit is let out. -/
theorem unbalanced_table_bounds {p : Program} (hp : p.Built) {d : Direction}
    (hview : P.view = p.view d) (hun : P.unbalanced = true) (hT : P.Computes T)
    (h : P.Reachable seeds injected s) :
    (s.isIdle = true →
      (∀ c n k, P.Given seeds injected c n k → s.holds c n k = true) ∧
      (∀ c n k, Follows (p.view d) T (fun c n k => s.holds c n k = true) c n k →
        s.holds c n k = true) ∧
      ∀ c exit k, s.holds c exit k = true → (p.view d).isExit exit = true →
        ¬ BroughtIn P T (fun c n k => s.holds c n k = true) c exit →
        ∀ c' n k', ComesOut P T c exit k c' n k' → s.holds c' n k' = true) ∧
    ∀ c n k, s.holds c n k = true → LooseEdge P T (P.Given seeds injected) c n k := by
  have hv : P.view.StartsOwned := hview ▸ hp.startsOwned d
  rw [← hview]
  have htraversed := h.traversed hv hT
  obtain ⟨R, w, hstanding⟩ := htraversed.standing
  constructor
  · intro hidle
    obtain ⟨hdone, hinbox⟩ := isIdle_iff.mp hidle
    refine ⟨?_, fun c n k hfollows => hstanding.follows hidle hfollows, ?_⟩
    · intro c n k hgiven
      -- what was put in has been recorded, since nothing is left in the inbox
      rcases htraversed.covered c n k hgiven with hholds | ⟨e, he, -⟩
      · exact hholds
      · rw [hinbox] at he
        cases he
    · intro c exit k hheld hexit horphan c' n k' hout
      exact hstanding.comesOut hv hun hdone hheld hexit horphan hout
  · intro c n k hheld S hS
    obtain ⟨e, he, rfl, rfl, rfl⟩ := (hstanding.invariant.sane.coherent.holds_iff _ _ _).mp hheld
    exact htraversed.least _ (hS.closed hT) (fun e hgiven => hS.given hgiven) e he

end

/-! The solver starts inside `pass`, with the zero fact and with `5` handed to it. Both come out at
the two calls, the zero fact as itself. It reaches the second call, from where it brings `5` in
again. -/

def insideOut : FlowTable where
  view := twoCallsProgram.view .forward
  rows? place := [
    (.enter ⟨1⟩ ⟨1⟩, [(0, [5])]),
    (.leave ⟨0⟩ ⟨1⟩ ⟨4⟩, [(0, [0]), (5, [50])]),
    (.leave ⟨1⟩ ⟨1⟩ ⟨4⟩, [(0, [0]), (5, [50])])].lookup place
  unbalanced := true

/-- The exit edge of `5` was let out before the call that accounts for it was reached. Its edges in
the callers are no part of the lower bound, but they are within the upper one. -/
theorem unbalanced_table_bounds_insideOut : ∃ s,
    insideOut.problem.Reachable [(⟨3⟩, 0)] [⟨5, ⟨3⟩, 5⟩] s ∧ s.isIdle = true ∧
    s.holds 0 ⟨1⟩ 0 = true ∧ s.holds 0 ⟨2⟩ 50 = true ∧ s.holds 50 ⟨1⟩ 50 = true ∧
    BroughtIn insideOut.problem insideOut.transfer (fun c n k => s.holds c n k = true) 5 ⟨4⟩ ∧
    (∀ c n k, Follows (twoCallsProgram.view .forward) insideOut.transfer
      (fun c n k => s.holds c n k = true) c n k → s.holds c n k = true) ∧
    LooseEdge insideOut.problem insideOut.transfer
      (insideOut.problem.Given [(⟨3⟩, 0)] [⟨5, ⟨3⟩, 5⟩]) 50 ⟨1⟩ 50 := by
  have hrun : ((insideOut.problem.solve 2 20
      ((State.ofSeeds id 0 [(⟨3⟩, 0)]).inject [⟨5, ⟨3⟩, 5⟩])).run 0).toOption.any (fun r =>
        r.1.any fun s => s.holds 0 ⟨1⟩ 0 && s.holds 0 ⟨2⟩ 50 && s.holds 50 ⟨1⟩ 50) = true := by
    decide +kernel
  obtain ⟨⟨found, w⟩, hsolve, hfound⟩ := exists_of_any_toOption hrun
  obtain ⟨s, rfl, hs⟩ := (Option.any_eq_true _ _).mp hfound
  simp only [Bool.and_eq_true] at hs
  obtain ⟨⟨hzero, hmatched⟩, hloose⟩ := hs
  obtain ⟨hreach, hidle⟩ := Problem.Reachable.ensures_idle
    (built_twoCallsProgram.startsOwned .forward) insideOut.computes
    (.inject [⟨5, ⟨3⟩, 5⟩] (.start 0)) 2 20 0 _ _ hsolve s rfl
  obtain ⟨hlower, hupper⟩ := unbalanced_table_bounds built_twoCallsProgram (d := .forward) rfl rfl
    insideOut.computes hreach
  refine ⟨s, hreach, hidle, hzero, hmatched, hloose, ?_, (hlower hidle).2.1, hupper _ _ _ hloose⟩
  refine ⟨0, ⟨1⟩, 0, hzero, by decide +kernel, by decide +kernel, ⟨⟨3⟩, by decide +kernel⟩, ?_⟩
  change 5 ∈ insideOut.acrossMethods (.enter ⟨1⟩ ⟨1⟩) 0
  decide +kernel

end TaintFlow.Tabulation
