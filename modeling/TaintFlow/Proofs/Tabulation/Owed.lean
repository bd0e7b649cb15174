import Mathlib.Data.Set.Basic
import TaintFlow.Proofs.Run
import TaintFlow.Proofs.Tabulation.Table
import TaintFlow.Tabulation.Solve

/-!
# What a solver owes its path edges

A solver puts questions to a problem: what does this fact become along this edge of the program? For
every path edge that it works off it owes certain questions, and it owes it to record the answers in
certain places. `Owed` lists these debts once and for all:

* normal flow for edges that are not at a call;
* call-to-return and call flow for edges at a call;
* return flow for every call edge together with every exit edge whose context it entered;
* for an exit edge that is let out of its method without a call, return flow into every caller.

The debts are relative to the edges that have been worked off so far (`Progress`), which makes them
a loop invariant of the solver as well as the statement of its fixed point.
-/

namespace TaintFlow.Tabulation

/-- Along which edge of the program a fact flows. -/
inductive Query where
  | normal (stmt succ : StmtId)
  | enter (call : StmtId) (callee : MethodId)
  | leave (call : StmtId) (callee : MethodId) (exit site : StmtId)
  | bypass (call site : StmtId)
  | depart (method : MethodId) (exit : StmtId)
deriving DecidableEq, Repr

/-- Where the facts of an answer are recorded: in a given context, each in itself as a context, or
not at all. -/
inductive Landing (κ : Type) where
  | within (context : κ) (site : StmtId)
  | anew (site : StmtId)
  | nowhere

variable {φ κ σ : Type}

/-- The path edge by which a fact lands. -/
def Landing.edge? (key : φ → κ) : Landing κ → φ → Option (Edge φ κ)
  | .within context site, f => some ⟨context, site, f⟩
  | .anew site, f => some ⟨key f, site, f⟩
  | .nowhere, _ => none

/-- Facts with equal keys land alike. -/
theorem Landing.edge?_congr {key : φ → κ} {f g : φ} (h : key f = key g) {l : Landing κ}
    {e : Edge φ κ} (he : e ∈ l.edge? key g) : ∃ e' ∈ l.edge? key f,
      e'.context = e.context ∧ e'.node = e.node ∧ key e'.fact = key e.fact := by
  cases l with
  | within context site =>
    cases he
    exact ⟨_, rfl, rfl, rfl, h⟩
  | anew site =>
    cases he
    exact ⟨_, rfl, h, rfl, h⟩
  | nowhere => cases he

/-- Put a question to the problem. No fact goes on from a departure. -/
def Problem.ask (P : Problem φ κ σ) : Query → φ → Run σ (List φ)
  | .normal stmt succ, f => P.normal stmt succ f
  | .enter call callee, f => P.enter call callee f
  | .leave call callee exit site, f => P.leave call callee exit site f
  | .bypass call site, f => P.bypass call site f
  | .depart method exit, f => do
    P.depart method exit f
    return []

/-- The path edges for which each part of a solver's work is done. -/
structure Progress (φ κ : Type) where
  /-- Passed into the callees and past them. -/
  entered : Set (Edge φ κ)
  /-- Returned to the calls that brought their context in. -/
  left : Set (Edge φ κ)
  /-- Moved on by normal flow. -/
  advanced : Set (Edge φ κ)
  /-- Let out into every caller. -/
  released : Set (Edge φ κ)

namespace Progress

/-- All work is done for `E`, and of these edges those in `R` have been let out. -/
def full (E R : Set (Edge φ κ)) : Progress φ κ := ⟨E, E, E, E ∩ R⟩

structure Le (g g' : Progress φ κ) : Prop where
  entered : g.entered ⊆ g'.entered
  left : g.left ⊆ g'.left
  advanced : g.advanced ⊆ g'.advanced
  released : g.released ⊆ g'.released

theorem full_le {E E' R R' : Set (Edge φ κ)} (hE : E ⊆ E') (hR : R ⊆ R') :
    (full E R).Le (full E' R') :=
  ⟨hE, hE, hE, Set.inter_subset_inter hE hR⟩

end Progress

/-- The questions by which the exit edge `x` is let out of its method: into every caller, where the
zero context stays zero and any other starts over, or, if there is no caller, to no avail. -/
inductive Release (P : Problem φ κ σ) (x : Edge φ κ) : Query → Landing κ → Prop
  | toCaller {call site : StmtId} :
    call ∈ P.view.callersOf (P.view.ownerOf x.node) → site ∈ P.view.returnSitesOf call →
    Release P x (.leave call (P.view.ownerOf x.node) x.node site)
      (if P.isZero x.context then .within P.zero site else .anew site)
  | departure :
    P.view.callersOf (P.view.ownerOf x.node) = [] →
    Release P x (.depart (P.view.ownerOf x.node) x.node) .nowhere

/-- The question and the landing of its answer are due, given that `enters call callee f context`
says which contexts a fact before a call brings into a callee. -/
inductive Owed (P : Problem φ κ σ) (enters : StmtId → MethodId → φ → κ → Prop)
    (g : Progress φ κ) : Query → φ → Landing κ → Prop
  | normal {e : Edge φ κ} {succ : StmtId} :
    e ∈ g.advanced → P.view.isCall e.node = false → succ ∈ P.view.succsOf e.node →
    Owed P enters g (.normal e.node succ) e.fact (.within e.context succ)
  | bypass {e : Edge φ κ} {site : StmtId} :
    e ∈ g.entered → P.view.isCall e.node = true → site ∈ P.view.returnSitesOf e.node →
    Owed P enters g (.bypass e.node site) e.fact (.within e.context site)
  | call {e : Edge φ κ} {callee : MethodId} :
    e ∈ g.entered → P.view.isCall e.node = true → callee ∈ P.view.calleesOf e.node →
    Owed P enters g (.enter e.node callee) e.fact .nowhere
  | enter {e : Edge φ κ} {callee : MethodId} {start : StmtId} :
    e ∈ g.entered → P.view.isCall e.node = true → callee ∈ P.view.calleesOf e.node →
    start ∈ P.view.startsOf callee →
    Owed P enters g (.enter e.node callee) e.fact (.anew start)
  | leave {c x : Edge φ κ} {start site : StmtId} :
    c ∈ g.entered → P.view.isCall c.node = true →
    P.view.ownerOf x.node ∈ P.view.calleesOf c.node →
    start ∈ P.view.startsOf (P.view.ownerOf x.node) →
    enters c.node (P.view.ownerOf x.node) c.fact x.context →
    x ∈ g.left → P.view.isExit x.node = true → site ∈ P.view.returnSitesOf c.node →
    Owed P enters g (.leave c.node (P.view.ownerOf x.node) x.node site) x.fact
      (.within c.context site)
  | release {x : Edge φ κ} {q : Query} {l : Landing κ} :
    P.unbalanced = true → x ∈ g.released → P.view.isExit x.node = true → Release P x q l →
    Owed P enters g q x.fact l

theorem Owed.mono {P : Problem φ κ σ} {enters enters' : StmtId → MethodId → φ → κ → Prop}
    {g g' : Progress φ κ} {q : Query} {f : φ} {l : Landing κ} (h : Owed P enters g q f l)
    (hg : g.Le g') (henters : ∀ n m f k, enters n m f k → enters' n m f k) :
    Owed P enters' g' q f l := by
  cases h with
  | normal he hcall hsucc => exact .normal (hg.advanced he) hcall hsucc
  | bypass he hcall hsite => exact .bypass (hg.entered he) hcall hsite
  | call he hcall hm => exact .call (hg.entered he) hcall hm
  | enter he hcall hm hstart => exact .enter (hg.entered he) hcall hm hstart
  | leave hc hcall hm hstart hent hx hexit hsite =>
    exact .leave (hg.entered hc) hcall hm hstart (henters _ _ _ _ hent) (hg.left hx) hexit hsite
  | release hun hx hexit hrel => exact .release hun (hg.released hx) hexit hrel

/-! ## Answers -/

/-- What is known about the answers that flow functions have given. An answer, once given, is on
record in every later world, and the answer at a call settles which contexts the call enters. -/
structure Ledger (P : Problem φ κ σ) where
  Answered : σ → Query → φ → List φ → Prop
  Enters : StmtId → MethodId → φ → κ → Prop
  answered : ∀ {q f w out w'}, (P.ask q f).run w = .ok (out, w') → Answered w' q f out
  kept : ∀ {q f w out w' q' f' out'}, (P.ask q f).run w = .ok (out, w') →
    Answered w q' f' out' → Answered w' q' f' out'
  enters_iff : ∀ {w n m f out k}, Answered w (.enter n m) f out →
    (Enters n m f k ↔ ∃ d ∈ out, P.key d = k)

/-- Some fact with the same key enters the callee in this context. -/
def Ledger.EntersAlike {P : Problem φ κ σ} (L : Ledger P) (n : StmtId) (m : MethodId) (f : φ)
    (k : κ) : Prop :=
  ∃ f', P.key f' = P.key f ∧ L.Enters n m f' k

variable [DecidableEq κ]

/-- The question has been answered and its facts are in the table. -/
def Settled {P : Problem φ κ σ} (L : Ledger P) (s : State φ κ) (w : σ) (q : Query) (f : φ)
    (l : Landing κ) : Prop :=
  ∃ out, L.Answered w q f out ∧
    ∀ d ∈ out, ∀ e ∈ l.edge? P.key d, s.holds e.context e.node (P.key e.fact) = true

/-- The state has grown and no answer was forgotten. -/
structure Extends {P : Problem φ κ σ} (L : Ledger P) (s : State φ κ) (w : σ) (s' : State φ κ)
    (w' : σ) : Prop where
  grows : s.Grows s'
  kept : ∀ q f out, L.Answered w q f out → L.Answered w' q f out

section

variable {P : Problem φ κ σ} {L : Ledger P} {s s' s'' : State φ κ} {w w' w'' : σ}

theorem Extends.refl (s : State φ κ) (w : σ) : Extends L s w s w :=
  ⟨.refl s, fun _ _ _ h => h⟩

theorem Extends.trans (h : Extends L s w s' w') (h' : Extends L s' w' s'' w'') :
    Extends L s w s'' w'' :=
  ⟨h.grows.trans h'.grows, fun q f out hold => h'.kept q f out (h.kept q f out hold)⟩

theorem Settled.mono {q : Query} {f : φ} {l : Landing κ} (h : Settled L s w q f l)
    (hext : Extends L s w s' w') : Settled L s' w' q f l := by
  obtain ⟨out, hout, hholds⟩ := h
  exact ⟨out, hext.kept q f out hout, fun d hd e he => hext.grows.holds (hholds d hd e he)⟩

end

/-! ## Normal flows of a batch -/

section

variable {P : Problem φ κ σ}

omit [DecidableEq κ] in
theorem Problem.mem_flowsOf {batch : List (Edge φ κ)} {m : NormalFlow φ κ} :
    m ∈ P.flowsOf batch ↔ m.edge ∈ batch ∧ P.view.isCall m.edge.node = false ∧
      m.succ ∈ P.view.succsOf m.edge.node := by
  obtain ⟨e, succ⟩ := m
  unfold flowsOf
  simp only [List.mem_flatMap, List.mem_filter, List.mem_map, NormalFlow.mk.injEq,
    Bool.not_eq_true']
  constructor
  · rintro ⟨e, ⟨he, hcall⟩, succ, hsucc, rfl, rfl⟩
    exact ⟨he, hcall, hsucc⟩
  · rintro ⟨he, hcall, hsucc⟩
    exact ⟨e, ⟨he, hcall⟩, succ, hsucc, rfl, rfl⟩

theorem Arrangement.lineUp_nil {τ α : Type} (a : Arrangement τ α) (t : τ) : a.lineUp t [] = [] :=
  (a.perm t []).eq_nil

omit [DecidableEq κ] in
/-- Every position has its turn, whatever the schedule. -/
theorem Order.mem_schedule (o : Order φ κ) (s : State φ κ) {n i : Nat} (hi : i < n) :
    i ∈ o.schedule.lineUp s (List.range n) :=
  (o.schedule.perm s _).mem_iff.mpr (List.mem_range.mpr hi)

/-- The path edges by which the facts of the answers land. -/
def landings (flows : List (NormalFlow φ κ)) (answers : List (List φ)) : List (Edge φ κ) :=
  (flows.zip answers).flatMap fun r => r.2.map fun d => ⟨r.1.edge.context, r.1.succ, d⟩

theorem Problem.land_eq (s : State φ κ) (flows : List (NormalFlow φ κ)) (answers : List (List φ)) :
    P.land s flows answers = s.recordAll P.key (landings flows answers) := by
  unfold land landings State.recordAll
  rw [List.foldl_flatMap]
  simp only [State.propagateAll, List.foldl_map]

section

variable {R : NormalFlow φ κ → List φ → Prop} {flows : List (NormalFlow φ κ)}
  {answers : List (List φ)}

omit [DecidableEq κ] in
theorem exists_of_mem_landings (h : List.Forall₂ R flows answers) {e : Edge φ κ}
    (he : e ∈ landings flows answers) : ∃ m ∈ flows, ∃ out, R m out ∧
      ∃ d ∈ out, e = ⟨m.edge.context, m.succ, d⟩ := by
  obtain ⟨⟨m, out⟩, hr, he⟩ := List.mem_flatMap.mp he
  obtain ⟨d, hd, rfl⟩ := List.mem_map.mp he
  exact ⟨m, (List.of_mem_zip hr).1, out, (List.forall₂_iff_zip.mp h).2 hr, d, hd, rfl⟩

omit [DecidableEq κ] in
theorem exists_landings (h : List.Forall₂ R flows answers) {m : NormalFlow φ κ} (hm : m ∈ flows) :
    ∃ out, R m out ∧ ∀ d ∈ out, (⟨m.edge.context, m.succ, d⟩ : Edge φ κ) ∈
      landings flows answers := by
  obtain ⟨hlength, hzip⟩ := List.forall₂_iff_zip.mp h
  rw [← List.map_fst_zip hlength.le] at hm
  obtain ⟨⟨m, out⟩, hr, rfl⟩ := List.mem_map.mp hm
  refine ⟨out, hzip hr, ?_⟩
  intro d hd
  exact List.mem_flatMap.mpr ⟨(m, out), hr, List.mem_map_of_mem hd⟩

end

end

/-! ## Sound states -/

/-- The rows of the two indices come from path edges of the table. -/
structure Sane {P : Problem φ κ σ} (L : Ledger P) (s : State φ κ) : Prop where
  coherent : s.Coherent P.key
  incoming : ∀ {start c call k}, (c, call, k) ∈ s.incoming.rows start →
    ∃ e ∈ s.edges, e.node = call ∧ P.key e.fact = k ∧ P.view.isCall call = true ∧
      ∃ m ∈ P.view.calleesOf call, start ∈ P.view.startsOf m ∧ L.Enters call m e.fact c
  summaries : ∀ {start c exit f}, (c, exit, f) ∈ s.summaries.rows start →
    (⟨c, exit, f⟩ : Edge φ κ) ∈ s.edges ∧ P.view.isExit exit = true ∧
      start ∈ P.view.startsOf (P.view.ownerOf exit)

/-- Sanity reads the table and the two indices and nothing else. -/
theorem Sane.congr {P : Problem φ κ σ} {L : Ledger P} {s s' : State φ κ} (h : Sane L s)
    (hedges : s'.edges = s.edges) (hcontexts : s'.contexts = s.contexts)
    (hincoming : s'.incoming = s.incoming) (hsummaries : s'.summaries = s.summaries) :
    Sane L s' where
  coherent := by
    apply h.coherent.congr hedges
    intro c n k
    unfold State.holds
    rw [hcontexts]
  incoming := by
    rw [hedges, hincoming]
    exact h.incoming
  summaries := by
    rw [hedges, hsummaries]
    exact h.summaries

theorem Sane.recordAll {P : Problem φ κ σ} {L : Ledger P} {s : State φ κ} (h : Sane L s)
    (es : List (Edge φ κ)) : Sane L (s.recordAll P.key es) where
  coherent := h.coherent.recordAll es
  incoming hrow := by
    rw [State.incoming_recordAll] at hrow
    obtain ⟨e, he, hrest⟩ := h.incoming hrow
    exact ⟨e, (State.grows_recordAll es).mem_edges he, hrest⟩
  summaries hrow := by
    rw [State.summaries_recordAll] at hrow
    obtain ⟨he, hrest⟩ := h.summaries hrow
    exact ⟨(State.grows_recordAll es).mem_edges he, hrest⟩

end TaintFlow.Tabulation
