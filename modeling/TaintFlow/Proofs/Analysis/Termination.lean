import TaintFlow.Proofs.Analysis.Batching
import TaintFlow.Proofs.Analysis.Confinement
import TaintFlow.Proofs.Flow.Coverage

/-!
# The analysis ends

There is no measure that every round decreases: the two sides keep waking each other, field writes
lengthen paths, and recursion lets the bookkeeping of facts grow. But both sides compare facts by
their taints alone, and the taints of a run lie in a finite set that the program and the bound on
access paths determine. So a run without a cap ends, whatever the order of work and whether or not
it is told to stop after the first finding.
-/

namespace TaintFlow

open Tabulation Program

/-! ## Models that stay inside the program -/

/-- A listed method derives the path itself, its receiver, or the target of the call. -/
theorem ListedMethods.mem_derived {w : ListedMethods} {stmt : Stmt} {path derived : AccessPath}
    (h : derived ∈ w.derived stmt path) : ∃ invocation, stmt.call? = some invocation ∧
      (derived = path ∨ (∃ l, invocation.receiver = some l ∧ derived = .ofLocal l) ∨
        ∃ v, stmt.target? = some v ∧ AccessPath.ofValue? v = some derived) := by
  unfold ListedMethods.derived at h
  split at h
  · cases h
  · next invocation hcall =>
    refine ⟨invocation, hcall, ?_⟩
    have hresult : ∀ q ∈ (stmt.target?.bind AccessPath.ofValue?).toList,
        ∃ v, stmt.target? = some v ∧ AccessPath.ofValue? v = some q := by
      intro q hq
      rw [Option.mem_toList] at hq
      obtain ⟨v, hv, hq⟩ := Option.bind_eq_some_iff.mp hq
      exact ⟨v, hv, hq⟩
    split at h
    · cases h
    · rcases List.mem_append.mp (List.mem_eraseDups.mp h) with hkept | hnew
      · split at hkept
        · exact Or.inl (List.mem_singleton.mp hkept)
        · cases hkept
      · split at hnew
        · next receiver hreceiver =>
          split at hnew
          · rcases List.mem_cons.mp hnew with rfl | hnew
            · exact Or.inl rfl
            · exact Or.inr (Or.inr (hresult _ hnew))
          · split at hnew
            · exact Or.inr (Or.inl ⟨receiver, hreceiver, List.mem_singleton.mp hnew⟩)
            · cases hnew
        · split at hnew
          · exact Or.inr (Or.inr (hresult _ hnew))
          · cases hnew

/-- Listed methods and the conservative native model name places of the call only. -/
theorem Setup.staysCovered_of_listed {x : Setup} (hmost : 1 ≤ x.most)
    (hlibrary : x.library = none ∨ ∃ w : ListedMethods, x.library = some w.model)
    (hnative : x.native = .conservative) : x.StaysCovered where
  derived := by
    intro library stmt path derived hsome hstmt hderived hpath
    rcases hlibrary with hnone | ⟨w, hw⟩
    · rw [hnone] at hsome
      cases hsome
    · rw [hw] at hsome
      cases hsome
      obtain ⟨invocation, hcall, hplace⟩ := ListedMethods.mem_derived hderived
      rcases hplace with rfl | ⟨l, hl, rfl⟩ | ⟨v, hv, hofValue⟩
      · exact hpath
      · have hmention := mentionsLocal_of_receiver hstmt hcall hl
        exact coversPath_ofValue hmost (mentionsValue_local hmention) rfl
      · exact coversPath_ofValue hmost (mentionsValue_of_mem hstmt (target_mem_values hv)) hofValue
  native := by
    intro call stmt invocation f g hcall hg hf
    unfold Forward.throughNative at hg
    dsimp only at hg
    split at hg
    · rw [hnative] at hg
      obtain ⟨v, path, hv, hofValue, rfl⟩ := NativeModel.mem_conservative hg
      have hstmt := mem_stmts hcall.known
      have hmention : x.program.MentionsValue v := by
        rcases hv with harg | htarget
        · exact mentionsValue_of_arg hstmt hcall.calls harg
        · exact mentionsValue_of_mem hstmt (target_mem_values htarget)
      exact hf.moveTo (coversPath_ofValue hmost hmention hofValue)
    · cases hg

/-! ## Runs inside the program -/

theorem Program.finite_covered (p : Program) (most : Nat) (d : Direction) :
    (Edge.triple Fact.taint '' (p.edgesWith (p.Covers most)).edges d).Finite := by
  refine ((p.finite_covers most).prod (p.finite_has.prod (p.finite_covers most))).subset ?_
  rintro _ ⟨e, ⟨hnode, hcontext, hfact⟩, rfl⟩
  exact ⟨hcontext, hnode, hfact⟩

section

variable {x : Setup} (hp : x.program.Built) (hmost : 1 ≤ x.most) (hmodels : x.StaysCovered)

include hp hmost hmodels

theorem Setup.covers_reply (d : Direction) (q : Query) {f : Fact}
    (hf : x.program.Covers x.most f.taint) :
    (∀ g ∈ (x.reply d q f).facts, x.program.Covers x.most g.taint) ∧
    ∀ h ∈ (x.reply d q f).handed, x.program.Has h.1 ∧ x.program.Covers x.most h.2.taint := by
  cases d with
  | forward =>
    have hwithin := Forward.within_react (x := x) (f := f) q.flowEdge
    rw [Setup.reply_forward]
    refine ⟨?_, ?_⟩
    · intro g hg
      exact Forward.covers_of_yields hp hmost hmodels (hwithin.facts g hg) hf
    · intro h hh
      exact Forward.covers_of_hands hp hmost hmodels (hwithin.handed h hh) hf
  | backward =>
    have hwithin := Backward.within_react (x := x) (f := f) q.flowEdge
    rw [Setup.reply_backward]
    refine ⟨?_, ?_⟩
    · intro g hg
      exact Backward.covers_of_yields hp (hwithin.facts g hg) hf
    · intro h hh
      exact Backward.covers_of_hands hp (hwithin.handed h hh) hf

/-- The path edges with covered taints bound every run. -/
theorem Program.covered_bounds :
    (x.program.edgesWith (x.program.Covers x.most)).Bounds x x.Mismatch := by
  -- whatever is asked is asked about a covered fact, and lands at a statement in a covered context
  have howed : ∀ {d q f l}, (x.program.edgesWith (x.program.Covers x.most)).Owes x d q f l →
      x.program.Covers x.most f.taint ∧ ∀ g, x.program.Covers x.most g.taint →
        ∀ e ∈ l.edge? Fact.taint g, e ∈ (x.program.edgesWith (x.program.Covers x.most)).edges d :=
    fun howes => lands_of_owed hp covers_zero howes
  constructor
  · intro d q f l howes g hg
    obtain ⟨hf, hlands⟩ := howed howes
    exact hlands g ((Setup.covers_reply hp hmost hmodels d q hf).1 g (Setup.answer_subset hg))
  · intro d q f l howes h hh
    obtain ⟨hnode, hcovers⟩ :=
      (Setup.covers_reply hp hmost hmodels d q (howed howes).1).2 h hh
    exact ⟨hnode, hcovers, hcovers⟩
  · intro d q f l _ r _
    exact trivial
  · intro d q f l howes e he
    exact howes.mismatch hp (fun _ he => he.1) (howed howes).1.unit he
  · intro d e he
    exact Or.inl he.1

/-- A run without a cap is over after finitely many rounds, unless a call does not match its
callee. -/
theorem Setup.exists_solve (hmax : x.settings.maxPropagations = 0) {starts : List StmtId}
    (hstarts : ∀ s ∈ starts, x.program.Has s) : ∃ rounds, ∀ fuel ≥ rounds,
      (∃ e, Coupled.solve x fuel (.ofStarts starts) = .error e ∧ x.Mismatch e) ∨
      ∃ c, Coupled.solve x fuel (.ofStarts starts) = .ok (some (c, true)) := by
  obtain ⟨rounds, hrounds⟩ := (Program.covered_bounds hp hmost hmodels).exists_solve hp hmax
    (x.program.finite_covered x.most) (fun s hs => ⟨hstarts s hs, covers_zero, covers_zero⟩)
  refine ⟨rounds, fun fuel hfuel => (hrounds fuel hfuel).imp_right ?_⟩
  rintro ⟨c, hsolve, -⟩
  exact ⟨c, hsolve⟩

omit hp hmost hmodels in
/-- Entry points are the starts of the entry methods. -/
theorem Setup.mem_entryPoints {entries : List MethodId} {starts : List StmtId}
    (h : x.entryPoints entries = .ok starts) {s : StmtId} :
    s ∈ starts ↔ ∃ m ∈ entries, s ∈ x.program.startsOf m := by
  unfold entryPoints at h
  obtain ⟨rows, hrows, hflat⟩ := exists_of_bind_eq_ok h
  cases hflat
  -- a row holds the starts of one entry method
  have hrow : ∀ {i : Nat} {row : List StmtId}, rows[i]? = some row →
      ∃ m, entries[i]? = some m ∧ x.program.startsOf m = row := by
    intro i row hi
    obtain ⟨m, hmi, hm⟩ := Builder.getElem?_of_mapM hrows hi
    refine ⟨m, hmi, ?_⟩
    unfold Program.entryStarts at hm
    obtain ⟨method, -, hm⟩ := exists_of_bind_eq_ok hm
    split at hm
    · cases hm
    · cases hm
      rfl
  rw [List.mem_flatten]
  constructor
  · rintro ⟨row, hmem, hs⟩
    obtain ⟨i, hi⟩ := List.getElem?_of_mem hmem
    obtain ⟨m, hm, rfl⟩ := hrow hi
    exact ⟨m, List.mem_of_getElem? hm, hs⟩
  · rintro ⟨m, hmem, hs⟩
    obtain ⟨i, hi⟩ := List.getElem?_of_mem hmem
    have hlt : i < rows.length := by
      rw [Builder.length_of_mapM hrows]
      exact (List.getElem?_eq_some_iff.mp hi).1
    obtain ⟨m', hm', hstarts⟩ := hrow (List.getElem?_eq_getElem hlt)
    cases hi.symm.trans hm'
    refine ⟨_, List.getElem_mem hlt, ?_⟩
    rw [← hstarts]
    exact hs

omit hmost hmodels in
/-- Entry points are statements of the program. -/
theorem Setup.has_of_entryPoints {entries : List MethodId} {starts : List StmtId}
    (h : x.entryPoints entries = .ok starts) : ∀ s ∈ starts, x.program.Has s := by
  intro s hs
  obtain ⟨m, -, hm⟩ := (mem_entryPoints h).mp hs
  exact hp.has_of_mem_startsOf (d := .forward) hm

end

/-! ## The analysis -/

section

variable {x : Setup} {c : Coupled}

theorem Coupled.outcome_of_error {e : Fault} (h : c.round x = .error e) (fuel : Nat) :
    outcome x (fuel + 1) c = .error (.faulted e) := by
  unfold outcome Coupled.solve
  rw [h]
  rfl

theorem Coupled.outcome_of_round {r : Coupled × Bool} (h : c.round x = .ok r) (fuel : Nat) :
    outcome x (fuel + 1) c = if !r.2 && r.1.isIdle then .ok ⟨r.1, true⟩
      else if r.1.isCapped x then .ok ⟨r.1, false⟩ else outcome x fuel r.1 := by
  unfold outcome
  rw [solve_of_round h]
  by_cases hover : (!r.2 && r.1.isIdle) = true
  · rw [if_pos hover, if_pos hover]
    rfl
  · rw [if_neg hover, if_neg hover]
    by_cases hcap : r.1.isCapped x = true
    · rw [if_pos hcap, if_pos hcap]
      rfl
    · rw [if_neg hcap, if_neg hcap]

/-- A run that is over stays as it is when it is given more rounds. -/
theorem Coupled.outcome_of_le {fuel fuel' : Nat} (h : outcome x fuel c ≠ .error .unfinished)
    (hle : fuel ≤ fuel') : outcome x fuel' c = outcome x fuel c := by
  induction fuel generalizing c fuel' with
  | zero => exact absurd rfl h
  | succ fuel ih =>
    obtain ⟨fuel', rfl⟩ : ∃ n, fuel' = n + 1 := ⟨fuel' - 1, by omega⟩
    cases hround : c.round x with
    | error e => rw [outcome_of_error hround, outcome_of_error hround]
    | ok r =>
      rw [outcome_of_round hround] at h ⊢
      rw [outcome_of_round hround]
      split
      · rfl
      · next hover =>
        rw [if_neg hover] at h
        split
        · rfl
        · next hcap =>
          rw [if_neg hcap] at h
          exact ih h (by omega)

theorem Setup.analyze_eq_of_le {entries : List MethodId} {fuel fuel' : Nat}
    (h : x.analyze entries fuel ≠ .error .unfinished) (hle : fuel ≤ fuel') :
    x.analyze entries fuel' = x.analyze entries fuel := by
  unfold analyze at h ⊢
  cases hcheck : x.check entries with
  | error e => rfl
  | ok starts =>
    rw [hcheck] at h
    simp only [runFrom] at h ⊢
    exact Coupled.outcome_of_le h hle

theorem Setup.analyze_of_le {entries : List MethodId} {out : Outcome} {fuel fuel' : Nat}
    (h : x.analyze entries fuel = .ok out) (hle : fuel ≤ fuel') :
    x.analyze entries fuel' = .ok out := by
  refine (analyze_eq_of_le ?_ hle).trans h
  intro hunfinished
  rw [h] at hunfinished
  cases hunfinished

end

theorem Setup.one_le_most {x : Setup} (h : x.settings.validate = .ok ()) : 1 ≤ x.most := by
  unfold Settings.validate at h
  obtain ⟨⟨⟩, hlength, -⟩ := exists_of_bind_eq_ok h
  unfold Settings.checkRange at hlength
  split at hlength
  · next hrange => exact hrange.1
  · cases hlength

/-- Everything that either side holds or is about to receive has covered taints. -/
def Program.CoversRun (p : Program) (most : Nat) (c : Coupled) : Prop :=
  ∀ d e, e ∈ (c.state d).edges ∨ e ∈ (c.state d).inbox →
    p.Covers most e.context ∧ p.Covers most e.fact.taint

/-- The analysis of a built program without a cap ends: the taints that ever occur, in any state of
the run, lie in one finite set, and from some number of rounds on the answer is no longer
"unfinished". -/
theorem analyze_finishes {x : Setup} (hp : x.program.Built)
    (hlibrary : x.library = none ∨ ∃ w : ListedMethods, x.library = some w.model)
    (hnative : x.native = .conservative) (hvalid : x.settings.validate = .ok ())
    (hmax : x.settings.maxPropagations = 0) (entries : List MethodId) :
    {t | x.program.Covers x.settings.accessPathLength t}.Finite ∧
    (∀ starts c, x.entryPoints entries = .ok starts → Coupled.Reachable x starts c →
      x.program.CoversRun x.settings.accessPathLength c) ∧
    (∀ fuel out, x.analyze entries fuel = .ok out → ∃ starts,
      x.entryPoints entries = .ok starts ∧ Coupled.Reachable x starts out.final) ∧
    ∃ rounds, ∀ fuel ≥ rounds, x.analyze entries fuel ≠ .error .unfinished := by
  have hmost := Setup.one_le_most hvalid
  have hmodels := Setup.staysCovered_of_listed hmost hlibrary hnative
  refine ⟨x.program.finite_covers _, ?_, ?_, ?_⟩
  · intro starts c hentries hreachable d e he
    have hconfines := Coupled.confines_of_reachable (Program.covered_bounds hp hmost hmodels) hp
      (fun s hs => ⟨Setup.has_of_entryPoints hp hentries s hs, covers_zero, covers_zero⟩) hreachable
    have hmem : e ∈ (x.program.edgesWith (x.program.Covers x.most)).edges d :=
      he.elim (hconfines.contains.edges d e) (hconfines.contains.inbox d e)
    exact hmem.2
  · intro fuel out hrun
    obtain ⟨starts, hentries, hsolve⟩ := Setup.solve_of_analyze hrun
    exact ⟨starts, hentries, Coupled.Reachable.start.solve hsolve⟩
  · cases hcheck : x.check entries with
    | error e =>
      refine ⟨0, fun fuel _ => ?_⟩
      unfold Setup.analyze
      rw [hcheck]
      exact nofun
    | ok starts =>
      have hknown := Setup.has_of_entryPoints hp (Setup.entryPoints_of_check hcheck)
      obtain ⟨rounds, hrounds⟩ := Setup.exists_solve hp hmost hmodels hmax hknown
      refine ⟨rounds, fun fuel hfuel => ?_⟩
      unfold Setup.analyze Setup.runFrom Coupled.outcome
      rw [hcheck]
      rcases hrounds fuel hfuel with ⟨e, hsolve, -⟩ | ⟨c, hsolve⟩
      · simp [hsolve]
      · simp [hsolve]

/-! A method that calls itself with its argument wrapped once more: only the bound on access paths
keeps the paths from growing. -/

def wrapping : List Description :=
  let node (m : Nat) (name : String) : Local := ⟨⟨m⟩, name, .object "Node"⟩
  let text : Local := ⟨⟨0⟩, "x", .string⟩
  let wrap : Signature := ⟨"A", "void", "wrap", ["Node"]⟩
  [.method "<A: void main()>" true false,
    .method "<A: void wrap(Node)>" true false,
    .statement ⟨0⟩ (.assign (.local text) (.invoke none ⟨"Sec", "String", "get", []⟩ [])),
    .statement ⟨0⟩ (.assign (.local (node 0 "n")) (.new "Node")),
    .statement ⟨0⟩ (.assign (.field (node 0 "n") ⟨"Node", "value"⟩) (.local text)),
    .statement ⟨0⟩ (.invoke ⟨none, wrap, [.local (node 0 "n")]⟩),
    .statement ⟨0⟩ (.return none),
    .statement ⟨1⟩ (.identity (node 1 "p") (.parameter 0)),
    .statement ⟨1⟩ (.assign (.local (node 1 "q")) (.new "Node")),
    .statement ⟨1⟩ (.assign (.field (node 1 "q") ⟨"Node", "next"⟩) (.local (node 1 "p"))),
    .statement ⟨1⟩ (.invoke ⟨none, wrap, [.local (node 1 "q")]⟩),
    .statement ⟨1⟩ (.return none)]

def wrappingSetup : Setup where
  program := (Program.ofDescription wrapping).toOption.getD ⟨#[], #[], #[], #[], #[], #[]⟩
  settings := { accessPathLength := 3 }
  classifier := .ofStatements [⟨0⟩] []
  library := some (ListedMethods.ofSignatures [⟨"Sec", "String", "get", []⟩]).model

theorem analyze_finishes_wrapping :
    wrappingSetup.settings.accessPathLength = 3 ∧
    {t | wrappingSetup.program.Covers 3 t}.Finite ∧
    (∀ starts c, wrappingSetup.entryPoints [⟨0⟩] = .ok starts →
      Coupled.Reachable wrappingSetup starts c → wrappingSetup.program.CoversRun 3 c) ∧
    ∃ rounds, ∀ fuel ≥ rounds, wrappingSetup.analyze [⟨0⟩] fuel ≠ .error .unfinished := by
  have hbuilt : wrappingSetup.program.Built := ⟨wrapping, rfl⟩
  obtain ⟨hfinite, hcovers, -, hends⟩ :=
    analyze_finishes hbuilt (Or.inr ⟨_, rfl⟩) rfl rfl rfl [⟨0⟩]
  exact ⟨rfl, hfinite, hcovers, hends⟩

end TaintFlow
