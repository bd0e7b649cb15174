import TaintFlow.Proofs.Analysis.EarlyStop
import TaintFlow.Proofs.Analysis.LocalFlows
import TaintFlow.Proofs.Analysis.Safety
import TaintFlow.Proofs.Tabulation.Closure
import TaintFlow.Proofs.Tabulation.Updates

/-!
# The cap on path edges

A run may be given a cap on the number of path edges that its two solvers work off together. The cap
is looked at between rounds. A round that goes on has worked off at least one edge, and it works off
at most one batch on each side. So the cap bounds the rounds, and it is overrun by less than two
batches (`Coupled.stops_at_cap`), whatever models of sources, libraries and native calls do.

A run that reports completion has nothing left to do. The converse fails: a run that reaches the cap
in the very round in which it finishes reports that it was cut short (`Coupled.completed_iff`).
-/

namespace TaintFlow

open Tabulation

namespace Coupled

variable {x : Setup} {c c' : Coupled} {d : Direction} {busy completed : Bool} {fuel : Nat}

/-! ## Rounds -/

/-- A step works off one batch on its side, and it is idle if the batch is empty. -/
theorem processed_of_step (h : c.step x d = .ok (c', busy)) :
    (c'.state d).processed ≤ (c.state d).processed + max x.settings.batchSize 1 ∧
    (busy = false → (c'.state d).processed = (c.state d).processed) ∧
    (c'.state d.opposite).processed = (c.state d.opposite).processed := by
  obtain ⟨s, w, hrun, rfl⟩ := step_eq_ok h
  obtain ⟨hbusy, hprocessed⟩ := (x.problem d).ensures_step_processed _ _ _ hrun
  dsimp only at hbusy hprocessed
  have hlength := State.length_taken_le (x.problem d).key x.settings.batchSize (c.state d)
  rw [state_advanced, state_opposite_advanced]
  refine ⟨by omega, ?_, rfl⟩
  rintro rfl
  have hempty : (c.state d).taken (x.problem d).key x.settings.batchSize = [] := by
    simpa using hbusy
  rw [hprocessed, hempty]
  rfl

/-- A round is counted. It works off at most one batch on each side, and nothing if it is not
busy. -/
theorem spent_of_round (h : c.round x = .ok (c', busy)) :
    c'.rounds = c.rounds + 1 ∧
    c'.propagations ≤ c.propagations + 2 * max x.settings.batchSize 1 ∧
    (busy = false → c'.propagations = c.propagations) := by
  obtain ⟨⟨c₁, busy₁⟩, hforward, h⟩ := exists_of_bind_eq_ok h
  obtain ⟨⟨c₂, busy₂⟩, hbackward, h⟩ := exists_of_bind_eq_ok h
  cases h
  obtain ⟨hmost₁, hrests₁, hother₁⟩ := processed_of_step hforward
  obtain ⟨hmost₂, hrests₂, hother₂⟩ := processed_of_step hbackward
  have hrounds : ∀ {c c' : Coupled} {d busy}, c.step x d = .ok (c', busy) →
      c'.rounds = c.rounds := by
    intro c c' d busy hstep
    obtain ⟨s, w, -, rfl⟩ := step_eq_ok hstep
    cases d <;> rfl
  simp only [state, Direction.opposite] at hmost₁ hrests₁ hother₁ hmost₂ hrests₂ hother₂
  refine ⟨?_, ?_, ?_⟩
  · show c₂.rounds + 1 = c.rounds + 1
    rw [hrounds hbackward, hrounds hforward]
  · show c₂.forward.processed + c₂.backward.processed ≤
      c.forward.processed + c.backward.processed + _
    omega
  · intro hidle
    rcases Bool.or_eq_false_iff.mp hidle with ⟨hidle₁, hidle₂⟩
    have hsame₁ := hrests₁ hidle₁
    have hsame₂ := hrests₂ hidle₂
    show c₂.forward.processed + c₂.backward.processed = c.forward.processed + c.backward.processed
    omega

/-! ## The answer -/

/-- On neither side an edge waits to be worked off or to be recorded. -/
def NothingLeft (c : Coupled) : Prop :=
  ∀ d, (c.state d).worklist = [] ∧ (c.state d).inbox = []

theorem nothingLeft_iff : c.NothingLeft ↔ c.isIdle = true := by
  have hside : ∀ s : State Fact Taint,
      s.worklist = [] ∧ s.inbox = [] ↔ s.isIdle = true := by
    intro s
    rw [isIdle_iff]
    unfold State.worklist
    rw [List.drop_eq_nil_iff, Array.length_toList]
  unfold isIdle
  rw [Bool.and_eq_true, ← hside, ← hside]
  constructor
  · intro h
    exact ⟨h .forward, h .backward⟩
  · rintro ⟨hforward, hbackward⟩ d
    cases d with
    | forward => exact hforward
    | backward => exact hbackward

theorem isCapped_iff : c.isCapped x = true ↔
    0 < x.settings.maxPropagations ∧ x.settings.maxPropagations ≤ c.propagations := by
  unfold isCapped
  rw [Bool.and_eq_true, decide_eq_true_eq, decide_eq_true_eq]

theorem isCapped_congr (h : c'.propagations = c.propagations) : c'.isCapped x = c.isCapped x := by
  unfold isCapped
  rw [h]

/-- A run from within the cap completes only if nothing is left, and it completes within the cap. -/
theorem completed_of_uncapped (hcap : c.isCapped x = false)
    (h : Coupled.solve x fuel c = .ok (some (c', completed))) :
    (completed = true → c'.NothingLeft) ∧ c'.isCapped x = !completed := by
  induction fuel generalizing c with
  | zero => cases h
  | succ fuel ih =>
    obtain ⟨⟨c₁, busy⟩, hround, h⟩ := exists_of_bind_eq_ok h
    dsimp only at h
    split at h
    · next hover =>
      cases h
      rw [Bool.and_eq_true, Bool.not_eq_true'] at hover
      refine ⟨fun _ => nothingLeft_iff.mpr hover.2, ?_⟩
      -- the last round worked nothing off, so the cap was not reached in it
      rw [isCapped_congr ((spent_of_round hround).2.2 hover.1)]
      exact hcap
    · split at h
      · next hcapped =>
        cases h
        exact ⟨by simp, hcapped⟩
      · next hgoes =>
        rw [Bool.not_eq_true] at hgoes
        exact ih hgoes h

theorem propagations_ofStarts (starts : List StmtId) : (ofStarts starts).propagations = 0 := by
  have hgrows : ({} : State Fact Taint).Grows (ofStarts starts).forward := by
    unfold ofStarts
    rw [State.ofSeeds_eq]
    exact State.grows_recordAll _
  show (ofStarts starts).forward.processed + 0 = 0
  rw [hgrows.processed]

/-- Before the first round no cap is reached. -/
theorem isCapped_ofStarts (starts : List StmtId) : (ofStarts starts).isCapped x = false := by
  rw [← Bool.not_eq_true, isCapped_iff, propagations_ofStarts]
  omega

/-- A run reports completion exactly if nothing is left and the cap is not reached, and it reports
that it was cut short exactly if the cap is reached, be there anything left or not. -/
theorem completed_iff {starts : List StmtId}
    (h : Coupled.solve x fuel (.ofStarts starts) = .ok (some (c, completed))) :
    (completed = true ↔ c.NothingLeft ∧
      (x.settings.maxPropagations = 0 ∨ c.propagations < x.settings.maxPropagations)) ∧
    (completed = false ↔
      0 < x.settings.maxPropagations ∧ x.settings.maxPropagations ≤ c.propagations) := by
  obtain ⟨hleft, hanswer⟩ := completed_of_uncapped (isCapped_ofStarts starts) h
  have hcapped := isCapped_iff (x := x) (c := c)
  rw [hanswer, Bool.not_eq_true'] at hcapped
  refine ⟨?_, hcapped⟩
  rw [← Bool.not_eq_false, hcapped]
  constructor
  · intro hbelow
    have hcompleted : completed = true := by
      rw [← Bool.not_eq_false, hcapped]
      exact hbelow
    exact ⟨hleft hcompleted, by omega⟩
  · rintro ⟨-, hbelow⟩
    omega

end Coupled

/-! A program that has one statement, and thus one path edge. -/

def oneReturn (most : Nat) : Setup :=
  { Setup.ofMain [.return none] [] with settings := { maxPropagations := most } }

theorem built_oneReturn (most : Nat) : (oneReturn most).program.Built := by
  have hbuilt : (Setup.ofMain [.return none] []).program.Built :=
    Setup.built_ofMain (by decide +kernel)
  exact hbuilt

/-- A cap of two path edges is not reached. -/
theorem Coupled.completed_iff_oneReturn : ∃ c,
    Coupled.solve (oneReturn 2) 2 (.ofStarts [⟨0⟩]) = .ok (some (c, true)) ∧ c.propagations = 1 ∧
    c.NothingLeft ∧ ((oneReturn 2).settings.maxPropagations = 0 ∨
      c.propagations < (oneReturn 2).settings.maxPropagations) := by
  have hrun : (Coupled.solve (oneReturn 2) 2 (.ofStarts [⟨0⟩])).toOption.any (fun r =>
      r.any fun r => r.2 && r.1.propagations == 1) = true := by decide +kernel
  obtain ⟨⟨c, completed⟩, hsolve, hc⟩ := exists_of_any_toOption_some hrun
  simp only [Bool.and_eq_true, beq_iff_eq] at hc
  rw [hc.1] at hsolve
  exact ⟨c, hsolve, hc.2, (Coupled.completed_iff hsolve).1.mp rfl⟩

/-- A cap of one path edge is reached: the only one there is has been worked off, and yet the run is
reported as cut short. -/
theorem Coupled.cut_short_with_nothing_left : (oneReturn 1).program.Built ∧
    (oneReturn 1).entryPoints [⟨0⟩] = .ok [⟨0⟩] ∧
    ∃ c, Coupled.solve (oneReturn 1) 1 (.ofStarts [⟨0⟩]) = .ok (some (c, false)) ∧
      c.NothingLeft := by
  have hrun : (Coupled.solve (oneReturn 1) 1 (.ofStarts [⟨0⟩])).toOption.any (fun r =>
      r.any fun r => r.1.isIdle && !r.2) = true := by decide +kernel
  obtain ⟨⟨c, completed⟩, hsolve, hc⟩ := exists_of_any_toOption_some hrun
  simp only [Bool.and_eq_true, Bool.not_eq_true'] at hc
  rw [hc.2] at hsolve
  exact ⟨built_oneReturn 1, by decide +kernel, c, hsolve,
    Coupled.nothingLeft_iff.mpr hc.1⟩

/-! ## The bound -/

/-- A fault with which a flow function answers a question about path edges of the program. -/
def Setup.BreaksOff (x : Setup) (fault : Fault) : Prop :=
  ∃ d q f l, (x.program.edgesWith fun _ => True).Owes x d q f l ∧ fault ∈ (x.reply d q f).fault

/-- Flow functions are the only ones to fault in a run over path edges of the program. -/
theorem Program.bounds_breaksOff {x : Setup} (hp : x.program.Built) :
    (x.program.edgesWith fun _ => True).Bounds x x.BreaksOff where
  facts := (bounds_everywhere x hp).facts
  handed := (bounds_everywhere x hp).handed
  findings := (bounds_everywhere x hp).findings
  fault := by
    intro d q f l howes e he
    exact ⟨d, q, f, l, howes, he⟩
  ranged _ _ he := Or.inl he.1

namespace Coupled

variable {x : Setup} {c c' : Coupled} {fuel : Nat}

/-- From a state in which no more rounds than edges have been spent, the cap comes before the fuel
runs out. -/
theorem solve_of_cap (fuel : Nat) (hp : x.program.Built) (hcap : 0 < x.settings.maxPropagations)
    (h : (x.program.edgesWith fun _ => True).Confines x x.BreaksOff c)
    (hrounds : c.rounds ≤ c.propagations) (hbelow : c.propagations < x.settings.maxPropagations)
    (hfuel : x.settings.maxPropagations ≤ fuel + c.propagations) :
    (∃ fault, Coupled.solve x fuel c = .error fault ∧ x.BreaksOff fault) ∨
    ∃ c' completed, Coupled.solve x fuel c = .ok (some (c', completed)) ∧
      c'.rounds ≤ x.settings.maxPropagations ∧
      c'.propagations ≤ x.settings.maxPropagations - 1 + 2 * max x.settings.batchSize 1 := by
  have hbounds := Program.bounds_breaksOff hp
  induction fuel generalizing c with
  | zero => omega
  | succ fuel ih =>
    cases hround : c.round x with
    | error fault =>
      have hsolve : Coupled.solve x (fuel + 1) c = .error fault := by
        unfold Coupled.solve
        rw [hround]
        rfl
      exact Or.inl ⟨fault, hsolve, fault_of_round hbounds hp h hround⟩
    | ok r =>
      obtain ⟨hcounted, hspent, -⟩ := spent_of_round hround
      obtain ⟨hnext, hbusy, hidle⟩ := confines_of_round hbounds hp h hround
      rw [solve_of_round hround]
      split
      · exact Or.inr ⟨r.1, true, rfl, by omega, by omega⟩
      · next hgoes =>
        -- a round that goes on has worked an edge off
        have hmore : r.2 = true := by
          cases hmore : r.2 with
          | true => rfl
          | false => simp [hmore, hidle hmore] at hgoes
        have hless := hbusy hmore
        split
        · exact Or.inr ⟨r.1, false, rfl, by omega, by omega⟩
        · next huncapped =>
          have hbelow' : r.1.propagations < x.settings.maxPropagations := by
            rw [isCapped_iff] at huncapped
            omega
          exact ih hnext (by omega) hbelow' (by omega)

/-- A cap stops every run, whatever the models do: after no more rounds than the cap says, and with
less than two batches more than it says worked off. Only a fault of a flow function stops it
otherwise. -/
theorem stops_at_cap (hp : x.program.Built) (hcap : 0 < x.settings.maxPropagations)
    (hbatch : 1 ≤ x.settings.batchSize) {entries : List MethodId} {starts : List StmtId}
    (hentries : x.entryPoints entries = .ok starts) (hfuel : x.settings.maxPropagations ≤ fuel) :
    (∃ fault, Coupled.solve x fuel (.ofStarts starts) = .error fault ∧ x.BreaksOff fault) ∨
    ∃ c completed, Coupled.solve x fuel (.ofStarts starts) = .ok (some (c, completed)) ∧
      c.rounds ≤ x.settings.maxPropagations ∧
      c.propagations ≤ x.settings.maxPropagations - 1 + 2 * x.settings.batchSize := by
  have hknown := Setup.has_of_entryPoints hp hentries
  have hstart : (x.program.edgesWith fun _ => True).Confines x x.BreaksOff (.ofStarts starts) :=
    Extent.confines_ofStarts fun s hs => ⟨hknown s hs, trivial, trivial⟩
  have hnone := propagations_ofStarts starts
  have hruns := solve_of_cap fuel hp hcap hstart (Nat.zero_le _) (by omega) (by omega)
  rwa [max_eq_left hbatch] at hruns

end Coupled

/-! A library method that makes every tainted path longer, called over and over again. -/

def growingLoop : List Action :=
  let x : Local := ⟨⟨0⟩, "x", .object "Node"⟩
  [getInto x, .invoke ⟨none, ⟨"Lib", "void", "grow", ["Node"]⟩, [.local x]⟩, .branch (.local x),
    .return none]

def lengthening : Setup :=
  { Setup.ofMain growingLoop [(⟨2⟩, ⟨1⟩)] with
    settings := { batchSize := 2, maxPropagations := 40 }
    library := some ⟨fun _ path => [⟨path.root, path.fields ++ [⟨"Node", "next"⟩]⟩],
      fun _ _ => false⟩ }

theorem built_lengthening : lengthening.program.Built := by
  have hbuilt : (Setup.ofMain growingLoop [(⟨2⟩, ⟨1⟩)]).program.Built :=
    Setup.built_ofMain (by decide +kernel)
  exact hbuilt

/-- A path longer than any that the settings allow is found, and the run is cut short. -/
theorem Coupled.stops_at_cap_lengthening : ∃ c,
    Coupled.solve lengthening 40 (.ofStarts [⟨0⟩]) = .ok (some (c, false)) ∧
    (∃ e ∈ c.forward.edges, 6 ≤ e.fact.path.fields.length) ∧
    c.rounds ≤ 40 ∧ c.propagations ≤ 43 := by
  have hrun : (Coupled.solve lengthening 40 (.ofStarts [⟨0⟩])).toOption.any (fun r =>
      r.any fun r => !r.2 && r.1.forward.edges.toList.any fun e =>
        6 ≤ e.fact.path.fields.length) = true := by decide +kernel
  obtain ⟨⟨c, completed⟩, hsolve, hc⟩ := exists_of_any_toOption_some hrun
  simp only [Bool.and_eq_true, Bool.not_eq_true', List.any_eq_true, Array.mem_toList_iff,
    decide_eq_true_eq] at hc
  rw [hc.1] at hsolve
  have hentries : lengthening.entryPoints [⟨0⟩] = .ok [⟨0⟩] := by decide +kernel
  have hfuel : lengthening.settings.maxPropagations ≤ 40 := by decide
  rcases Coupled.stops_at_cap built_lengthening (by decide) (by decide) hentries hfuel with
    ⟨fault, hfault, -⟩ | ⟨c', completed', hsolve', hbounds⟩
  · rw [hsolve] at hfault
    cases hfault
  · rw [hsolve] at hsolve'
    cases hsolve'
    exact ⟨c, hsolve, hc.2, hbounds⟩

end TaintFlow
