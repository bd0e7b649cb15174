import TaintFlow.Proofs.Analysis.Coupled

/-!
# A coupled run ends in a joint fixed point

When a run is over, asking any question again that either side owes to one of its path edges brings
nothing new: the facts are in the table of that side, what is handed over is in the table of the
other side, and the findings are in the log. Whether an exit edge is owed a return into every caller
is settled by the finished table: it is if no call edge enters its method in its context.
-/

namespace TaintFlow.Coupled

open Tabulation

variable (x : Setup) (c : Coupled)

/-- The call edge `e` enters the method of the exit edge `out` in its context. -/
def Claims (d : Direction) (e out : Edge Fact Taint) : Prop :=
  (x.program.view d).isCall e.node = true ∧
  (x.program.view d).ownerOf out.node ∈ (x.program.view d).calleesOf e.node ∧
  (∃ start, start ∈ (x.program.view d).startsOf ((x.program.view d).ownerOf out.node)) ∧
  x.Enters d e.node ((x.program.view d).ownerOf out.node) e.fact out.context

/-- The exit edges that no call edge of the table claims. -/
def orphans (d : Direction) : Set (Edge Fact Taint) :=
  {out | out ∈ (c.state d).edges ∧ (x.program.view d).isExit out.node = true ∧
    ∀ e ∈ (c.state d).edges, ¬ Claims x d e out}

/-- What the side `d` owes to the path edges in its table. Orphans are let out into every caller. -/
def Owes (d : Direction) (q : Query) (f : Fact) (l : Landing Taint) : Prop :=
  Owed (x.problem d) (x.Enters d) ⟨{e | e ∈ (c.state d).edges}, {e | e ∈ (c.state d).edges},
    {e | e ∈ (c.state d).edges}, orphans x c d⟩ q f l

/-- Asking the question brings nothing new. -/
structure Absorbs (d : Direction) (q : Query) (f : Fact) (l : Landing Taint) : Prop where
  fault : (x.reply d q f).fault = none
  facts : ∀ g ∈ x.answer d q f, ∀ e ∈ l.edge? Fact.taint g,
    (c.state d).holds e.context e.node e.fact.taint = true
  handed : ∀ h ∈ (x.reply d q f).handed,
    (c.state d.opposite).holds h.2.taint h.1 h.2.taint = true
  findings : ∀ r ∈ (x.reply d q f).findings, c.findings.containsFlow r.sink r.source = true

/-- The tables are in step with their path edges, and everything owed is absorbed. -/
structure IsFixedPoint : Prop where
  coherent : ∀ d, (c.state d).Coherent Fact.taint
  absorbs : ∀ d q f l, Owes x c d q f l → Absorbs x c d q f l

variable {x c}

theorem state_isIdle (h : c.isIdle = true) (d : Direction) :
    (c.state d).edges.size ≤ (c.state d).processed ∧ (c.state d).inbox = [] := by
  unfold isIdle State.isIdle at h
  simp only [Bool.and_eq_true, decide_eq_true_eq, List.isEmpty_iff] at h
  cases d with
  | forward => exact h.1
  | backward => exact h.2

theorem containsFlow_of_mem {fs : Findings} {r : Finding} (h : r ∈ fs.log) :
    fs.containsFlow r.sink r.source = true := by
  unfold Findings.containsFlow
  rw [List.any_eq_true]
  exact ⟨r, h, by simp⟩

section

variable {hstop : x.settings.stopAfterFirstFlow = false} {starts : List StmtId}
  {R : Direction → Set (Edge Fact Taint)}

/-- Whatever is owed when a run is over is absorbed, with the edges let out during the run. -/
theorem Consistent.absorbs (h : Consistent hstop starts R c) (hidle : c.isIdle = true)
    {d : Direction} {q : Query} {f : Fact} {l : Landing Taint}
    (howed : Owed (x.problem d) (x.Enters d) ⟨{e | e ∈ (c.state d).edges},
      {e | e ∈ (c.state d).edges}, {e | e ∈ (c.state d).edges}, R d⟩ q f l) :
    Absorbs x c d q f l := by
  obtain ⟨out, hrecorded, hholds⟩ := (h.standing d).settled (state_isIdle hidle d).1 howed
  obtain ⟨hfault, hout, hhanded, hfindings⟩ := hrecorded
  refine ⟨hfault, fun g hg => hholds g (hout.mem_iff.mpr hg), ?_, ?_⟩
  · -- outbox and inboxes are empty by now, so what was handed over has arrived
    intro p hp
    rcases hhanded p hp with houtbox | hinbox | htable
    · cases houtbox
    · rw [(state_isIdle hidle d.opposite).2] at hinbox
      cases hinbox
    · exact htable
  · intro r hr
    exact containsFlow_of_mem (hfindings r hr)

/-- An orphan was let out: no claim on it was ever filed. -/
theorem Consistent.orphans_subset (hp : x.program.Built) (h : Consistent hstop starts R c)
    (hidle : c.isIdle = true) (d : Direction) : orphans x c d ⊆ R d := by
  rintro out ⟨hout, hexit, hunclaimed⟩
  have hinv := (h.standing d).invariant
  rw [State.worked_of_size_le (state_isIdle hidle d).1] at hinv
  apply hinv.unclaimed rfl out hout hexit
  intro start hstart call k hrow
  -- a claim on file stems from a call edge of the table, which would claim the orphan
  obtain ⟨e, he, rfl, -, hcall, m, hm, hstart', henters⟩ := hinv.sane.incoming hrow
  have howner : m = (x.program.view d).ownerOf out.node :=
    (hp.startsOwned d _ _ hstart').symm.trans (hp.startsOwned d _ _ hstart)
  subst howner
  exact hunclaimed e he ⟨hcall, hm, ⟨start, hstart⟩, henters⟩

theorem Consistent.isFixedPoint (hp : x.program.Built) (h : Consistent hstop starts R c)
    (hidle : c.isIdle = true) : IsFixedPoint x c := by
  refine ⟨fun d => (h.standing d).invariant.sane.coherent, ?_⟩
  intro d q f l howes
  apply h.absorbs hidle
  refine howes.mono ⟨subset_refl _, subset_refl _, subset_refl _, ?_⟩ fun _ _ _ _ h => h
  exact h.orphans_subset hp hidle d

end

/-- A run that ends by itself ends in a fixed point of both sides. -/
theorem isFixedPoint_of_solve (hp : x.program.Built)
    (hstop : x.settings.stopAfterFirstFlow = false) {starts : List StmtId} {fuel : Nat}
    (hsolve : Coupled.solve x fuel (.ofStarts starts) = .ok (some (c, true))) :
    IsFixedPoint x c := by
  obtain ⟨R, hconsistent, hdone⟩ := (Consistent.ofStarts hstop starts).solve hp hsolve
  exact hconsistent.isFixedPoint hp (hdone rfl)

/-! A secret is stored through one name of an object and read through another. -/

def twoNames : List Description :=
  let object (name : String) : Local := ⟨⟨0⟩, name, .object "Box"⟩
  let text (name : String) : Local := ⟨⟨0⟩, name, .string⟩
  let secret : FieldRef := ⟨"Box", "secret"⟩
  [.method "<A: void main()>" true false,
    .statement ⟨0⟩ (.assign (.local (object "a")) (.new "Box")),
    .statement ⟨0⟩ (.assign (.local (object "b")) (.local (object "a"))),
    .statement ⟨0⟩ (.assign (.local (text "x")) (.invoke none ⟨"Sec", "String", "get", []⟩ [])),
    .statement ⟨0⟩ (.assign (.field (object "b") secret) (.local (text "x"))),
    .statement ⟨0⟩ (.assign (.local (text "y")) (.field (object "a") secret)),
    .statement ⟨0⟩ (.invoke ⟨none, ⟨"Net", "void", "send", ["String"]⟩, [.local (text "y")]⟩),
    .statement ⟨0⟩ (.return none)]

def twoNamesProgram : Program :=
  (Program.ofDescription twoNames).toOption.getD ⟨#[], #[], #[], #[], #[], #[]⟩

def twoNamesSetup : Setup where
  program := twoNamesProgram
  settings := { batchSize := 2 }
  classifier := .ofStatements [⟨2⟩] [⟨5⟩]

/-- The backward side finds the other name, and the run ends with the secret at the sink. -/
theorem isFixedPoint_twoNames : ∃ c,
    Coupled.solve twoNamesSetup 40 (.ofStarts [⟨0⟩]) = .ok (some (c, true)) ∧
    c.findings.containsFlow ⟨5⟩ ⟨2⟩ = true ∧ 0 < c.aliases ∧ IsFixedPoint twoNamesSetup c := by
  have hrun : (Coupled.solve twoNamesSetup 40 (.ofStarts [⟨0⟩])).toOption.any (fun found =>
      found.any fun r => r.2 && r.1.findings.containsFlow ⟨5⟩ ⟨2⟩ && 0 < r.1.aliases) = true := by
    decide +kernel
  obtain ⟨found, hsolve, hfound⟩ := exists_of_any_toOption hrun
  obtain ⟨⟨c, completed⟩, rfl, hc⟩ := (Option.any_eq_true _ _).mp hfound
  simp only [Bool.and_eq_true, decide_eq_true_eq] at hc
  obtain ⟨⟨rfl, hflow⟩, haliases⟩ := hc
  exact ⟨c, hsolve, hflow, haliases, isFixedPoint_of_solve ⟨twoNames, rfl⟩ rfl hsolve⟩

end TaintFlow.Coupled
