import Mathlib.Data.List.Forall2
import Mathlib.Data.Set.List
import TaintFlow.Tabulation.Problem

/-!
# Reasoning about runs

`Run.Ensures m w Q` says that whenever `m`, started in the world `w`, comes to a result, the result
and the world after it satisfy `Q`. A fault is no result, so this is partial correctness.

`Run.Safe E m w Q` says in addition which faults can occur. `Run.safe_foldlM` is its rule for loops.

Solvers are nested folds. `Run.ensures_foldlM` is the rule for them: if every turn keeps the loop
invariant `J`, moves along a preorder `R` and gets the job of its element done, and jobs stay done
along `R`, then the whole loop does so and gets every job done.

`Run.safe_collect` is the rule for questions that are asked in some order and whose answers are put
in another.
-/

namespace TaintFlow

/-- What comes to a result in two parts has an intermediate result. -/
theorem exists_of_bind_eq_ok {ε α β : Type} {m : Except ε α} {k : α → Except ε β} {b : β}
    (h : m >>= k = .ok b) : ∃ a, m = .ok a ∧ k a = .ok b := by
  cases m with
  | error e => cases h
  | ok a => exact ⟨a, rfl, h⟩

theorem bind_eq_ok_iff {ε α β : Type} {m : Except ε α} {k : α → Except ε β} {b : β} :
    m >>= k = .ok b ↔ ∃ a, m = .ok a ∧ k a = .ok b := by
  refine ⟨exists_of_bind_eq_ok, ?_⟩
  rintro ⟨a, rfl, hk⟩
  exact hk

/-- What is refused in two parts is refused in the first or in the second. -/
theorem bind_eq_error_iff {ε α β : Type} {m : Except ε α} {k : α → Except ε β} {e : ε} :
    m >>= k = .error e ↔ m = .error e ∨ ∃ a, m = .ok a ∧ k a = .error e := by
  cases m with
  | error e' => simp [bind, Except.bind]
  | ok a => simp [bind, Except.bind]

/-- A result that passes a check is a result. -/
theorem exists_of_any_toOption {ε α : Type} {r : Except ε α} {p : α → Bool}
    (h : r.toOption.any p = true) : ∃ a, r = .ok a ∧ p a = true := by
  cases r with
  | error e => cases h
  | ok a => exact ⟨a, rfl, h⟩

theorem exists_of_any_toOption_some {ε α : Type} {r : Except ε (Option α)} {p : α → Bool}
    (h : r.toOption.any (fun found => found.any p) = true) :
    ∃ a, r = .ok (some a) ∧ p a = true := by
  obtain ⟨found, hr, hfound⟩ := exists_of_any_toOption h
  obtain ⟨a, rfl, ha⟩ := (Option.any_eq_true _ _).mp hfound
  exact ⟨a, hr, ha⟩

/-! ## Lists of requests -/

section

variable {ε α β : Type} {f : α → Except ε β}

theorem mapM_eq_ok_iff {l : List α} {out : List β} :
    l.mapM f = .ok out ↔ l.map f = out.map .ok := by
  induction l generalizing out with
  | nil =>
    cases out with
    | nil => simp [pure, Except.pure]
    | cons b out => simp [pure, Except.pure]
  | cons a l ih =>
    rw [List.mapM_cons]
    constructor
    · intro h
      rcases exists_of_bind_eq_ok h with ⟨b, ha, h⟩
      rcases exists_of_bind_eq_ok h with ⟨bs, hl, h⟩
      cases h
      rw [List.map_cons, List.map_cons, ha, ih.mp hl]
    · intro h
      cases out with
      | nil => cases h
      | cons b out =>
        rw [List.map_cons, List.map_cons, List.cons.injEq] at h
        rw [h.1, ih.mpr h.2]
        rfl

/-- What comes out of a list of requests came out of one of them. -/
theorem mem_of_mapM {l : List α} {out : List β} (h : l.mapM f = .ok out) {b : β} :
    b ∈ out ↔ ∃ a ∈ l, f a = .ok b := by
  have hmem : Except.ok b ∈ l.map f ↔ Except.ok (ε := ε) b ∈ out.map .ok := by
    rw [mapM_eq_ok_iff.mp h]
  simpa using hmem.symm

theorem exists_mapM_eq_ok_iff {l : List α} :
    (∃ out, l.mapM f = .ok out) ↔ ∀ a ∈ l, ∃ b, f a = .ok b := by
  have hrange : l.map f ∈ Set.range (List.map .ok) ↔ ∀ a ∈ l, f a ∈ Set.range .ok := by
    rw [Set.range_list_map]
    simp
  simp only [mapM_eq_ok_iff]
  simpa [eq_comm] using hrange

/-- The first request that is refused is the one that is reported. -/
theorem mapM_eq_error_iff {l : List α} {e : ε} :
    l.mapM f = .error e ↔ ∃ front a back, l = front ++ a :: back ∧
      (∀ x ∈ front, ∃ b, f x = .ok b) ∧ f a = .error e := by
  induction l with
  | nil => simp [pure, Except.pure]
  | cons a l ih =>
    rw [List.mapM_cons, bind_eq_error_iff]
    simp only [bind_eq_error_iff, ih]
    constructor
    -- refused right here, or further down with all before it granted
    · rintro (ha | ⟨b, ha, ⟨front, x, back, rfl, hfront, hx⟩ | ⟨bs, -, hbs⟩⟩)
      · exact ⟨[], a, l, rfl, by simp, ha⟩
      · exact ⟨a :: front, x, back, rfl, List.forall_mem_cons.mpr ⟨⟨b, ha⟩, hfront⟩, hx⟩
      · cases hbs
    · rintro ⟨front, x, back, hl, hfront, hx⟩
      cases front with
      | nil =>
        cases hl
        exact Or.inl hx
      | cons y front =>
        cases hl
        rcases List.forall_mem_cons.mp hfront with ⟨⟨b, ha⟩, hfront⟩
        exact Or.inr ⟨b, ha, Or.inl ⟨front, x, back, rfl, hfront, hx⟩⟩

/-- A list of checks passes if every check does. -/
theorem forM_eq_ok_iff {check : α → Except ε Unit} {l : List α} :
    l.forM check = .ok () ↔ ∀ a ∈ l, check a = .ok () := by
  induction l with
  | nil => simp [List.forM, pure, Except.pure]
  | cons a l ih =>
    have hcons : (a :: l).forM check = check a >>= fun _ => l.forM check := rfl
    rw [hcons, bind_eq_ok_iff, List.forall_mem_cons, ← ih]
    constructor
    · rintro ⟨⟨⟩, h⟩
      exact h
    · intro h
      exact ⟨(), h⟩

end

namespace Tabulation.Run

variable {σ α β : Type}

/-- Every result of `m`, started in `w`, satisfies `Q`. -/
def Ensures (m : Run σ α) (w : σ) (Q : α → σ → Prop) : Prop :=
  ∀ a w', m.run w = .ok (a, w') → Q a w'

theorem ensures_pure {a : α} {w : σ} {Q : α → σ → Prop} (h : Q a w) :
    Ensures (pure a) w Q := by
  intro b w' hrun
  cases hrun
  exact h

theorem ensures_throw {e : Fault} {w : σ} {Q : α → σ → Prop} :
    Ensures (throw e) w Q := by
  intro a w' hrun
  cases hrun

theorem ensures_bind {m : Run σ α} {k : α → Run σ β} {w : σ} {Q : β → σ → Prop}
    (h : Ensures m w fun a w' => Ensures (k a) w' Q) : Ensures (m >>= k) w Q := by
  intro b w'' hrun
  rw [StateT.run_bind] at hrun
  obtain ⟨⟨a, w'⟩, hm, hk⟩ := exists_of_bind_eq_ok hrun
  exact h a w' hm b w'' hk

theorem Ensures.mono {m : Run σ α} {w : σ} {Q R : α → σ → Prop} (h : Ensures m w Q)
    (hQR : ∀ a w', Q a w' → R a w') : Ensures m w R := by
  intro a w' hrun
  exact hQR a w' (h a w' hrun)

/-! ## Faults -/

/-- Every result of `m`, started in `w`, satisfies `Q`, and every fault satisfies `E`. With all
faults allowed this is partial correctness; with none allowed, `m` comes to a result. -/
structure Safe (E : Fault → Prop) (m : Run σ α) (w : σ) (Q : α → σ → Prop) : Prop where
  result : Ensures m w Q
  fault : ∀ e, m.run w = .error e → E e

theorem Ensures.safe {m : Run σ α} {w : σ} {Q : α → σ → Prop} (h : Ensures m w Q) :
    Safe (fun _ => True) m w Q :=
  ⟨h, fun _ _ => trivial⟩

section

variable {E : Fault → Prop}

theorem safe_pure {a : α} {w : σ} {Q : α → σ → Prop} (h : Q a w) : Safe E (pure a) w Q where
  result := ensures_pure h
  fault e hrun := by cases hrun

theorem safe_throw {e : Fault} {w : σ} {Q : α → σ → Prop} (h : E e) : Safe E (throw e) w Q where
  result := ensures_throw
  fault e' hrun := by
    cases hrun
    exact h

theorem safe_bind {m : Run σ α} {k : α → Run σ β} {w : σ} {Q : β → σ → Prop}
    (h : Safe E m w fun a w' => Safe E (k a) w' Q) : Safe E (m >>= k) w Q where
  result := ensures_bind (h.result.mono fun _ _ hk => hk.result)
  fault e hrun := by
    rw [StateT.run_bind] at hrun
    cases hm : m.run w with
    | error e' =>
      rw [hm] at hrun
      cases hrun
      exact h.fault e hm
    | ok r =>
      rw [hm] at hrun
      exact (h.result r.1 r.2 hm).fault e hrun

theorem Safe.mono {m : Run σ α} {w : σ} {Q R : α → σ → Prop} (h : Safe E m w Q)
    (hQR : ∀ a w', Q a w' → R a w') : Safe E m w R :=
  ⟨h.result.mono hQR, h.fault⟩

/-! ## Loops -/

/-- The rule for loops whose invariant tells the elements behind us from those to come. -/
theorem safe_foldlM_prefix {f : β → α → Run σ β} {I : List α → β → σ → Prop} {b₀ : β} {w₀ : σ}
    (l : List α)
    (step : ∀ done a rest, done ++ a :: rest = l → ∀ b w, I done b w →
      Safe E (f b a) w (I (done ++ [a])))
    (start : I [] b₀ w₀) : Safe E (l.foldlM f b₀) w₀ (I l) := by
  -- over what is still to come, for every stretch that is behind us
  suffices loop : ∀ (rest done : List α), done ++ rest = l → ∀ b w, I done b w →
      Safe E (rest.foldlM f b) w (I l) by
    exact loop l [] rfl b₀ w₀ start
  intro rest
  induction rest with
  | nil =>
    intro done hl b w hI
    rw [List.append_nil] at hl
    subst hl
    exact safe_pure hI
  | cons a rest ih =>
    intro done hl b w hI
    rw [List.foldlM_cons]
    apply safe_bind
    refine (step done a rest hl b w hI).mono ?_
    intro b' w' hI'
    exact ih (done ++ [a]) (by simpa using hl) b' w' hI'

/-- The rule for loops that keep an invariant. -/
theorem safe_foldlM {f : β → α → Run σ β} {J : β → σ → Prop} {b : β} {w : σ} (l : List α)
    (step : ∀ a ∈ l, ∀ b w, J b w → Safe E (f b a) w J) (start : J b w) :
    Safe E (l.foldlM f b) w J := by
  refine safe_foldlM_prefix (I := fun _ => J) l ?_ start
  rintro done a rest rfl b w hJ
  exact step a (by simp) b w hJ

end

theorem ensures_foldlM_prefix {f : β → α → Run σ β} {I : List α → β → σ → Prop} {b₀ : β} {w₀ : σ}
    (l : List α)
    (step : ∀ done a rest, done ++ a :: rest = l → ∀ b w, I done b w →
      Ensures (f b a) w (I (done ++ [a])))
    (start : I [] b₀ w₀) : Ensures (l.foldlM f b₀) w₀ (I l) := by
  have hsafe : Safe (fun _ => True) (l.foldlM f b₀) w₀ (I l) :=
    safe_foldlM_prefix l (fun done a rest hl b w hI => (step done a rest hl b w hI).safe) start
  exact hsafe.result

/-- The rule for loops that see to one element after the other. `J` holds at every turn, `R` relates
the start of a stretch of the loop to its end, and `D a` says that the job of `a` is done. -/
theorem ensures_foldlM {f : β → α → Run σ β} {J : β → σ → Prop} {R : β → σ → β → σ → Prop}
    {D : α → β → σ → Prop} {b₀ : β} {w₀ : σ} (l : List α)
    (refl : ∀ b w, R b w b w)
    (trans : ∀ b₁ w₁ b₂ w₂ b₃ w₃, R b₁ w₁ b₂ w₂ → R b₂ w₂ b₃ w₃ → R b₁ w₁ b₃ w₃)
    (stable : ∀ a b w b' w', R b w b' w' → D a b w → D a b' w')
    (step : ∀ a ∈ l, ∀ b w, J b w → R b₀ w₀ b w →
      Ensures (f b a) w fun b' w' => J b' w' ∧ R b w b' w' ∧ D a b' w')
    (start : J b₀ w₀) :
    Ensures (l.foldlM f b₀) w₀ fun b w => J b w ∧ R b₀ w₀ b w ∧ ∀ a ∈ l, D a b w := by
  refine ensures_foldlM_prefix
    (I := fun done b w => J b w ∧ R b₀ w₀ b w ∧ ∀ a ∈ done, D a b w) l ?_ ?_
  · rintro done a rest hl b w ⟨hJ, hR, hdone⟩
    have ha : a ∈ l := by
      rw [← hl]
      simp
    refine (step a ha b w hJ hR).mono ?_
    rintro b' w' ⟨hJ', hR', hDa⟩
    refine ⟨hJ', trans _ _ _ _ _ _ hR hR', ?_⟩
    intro a' ha'
    rcases List.mem_append.mp ha' with hold | hnew
    · exact stable a' b w b' w' hR' (hdone a' hold)
    · rw [List.mem_singleton.mp hnew]
      exact hDa
  · exact ⟨start, refl b₀ w₀, by simp⟩

/-! ## Questions in turns -/

section

variable {E : Fault → Prop} {ask : α → Run σ (List β)} {J : σ → Prop}
  {A : α → List β → σ → Prop} {questions : List α}

/-- The answer at position `i` is there and `A` holds of it. -/
def AnsweredAt (A : α → List β → σ → Prop) (questions : List α) (answers : List (List β)) (w : σ)
    (i : Nat) : Prop :=
  ∀ q, questions[i]? = some q → ∃ out, answers[i]? = some out ∧ A q out w

/-- One turn answers its question and spoils no answer that is there. -/
theorem safe_answerAt
    (step : ∀ q ∈ questions, ∀ w, J w → Safe E (ask q) w fun out w' =>
      J w' ∧ A q out w' ∧ ∀ q' out', A q' out' w → A q' out' w')
    {answers : List (List β)} {w : σ} (hJ : J w) (hlength : answers.length = questions.length)
    (i : Nat) :
    Safe E (answerAt ask questions answers i) w fun answers' w' =>
      J w' ∧ answers'.length = questions.length ∧ AnsweredAt A questions answers' w' i ∧
      ∀ j, AnsweredAt A questions answers w j → AnsweredAt A questions answers' w' j := by
  unfold answerAt
  split
  · next q hq =>
    have hi : i < answers.length := by
      rw [hlength]
      exact (List.getElem?_eq_some_iff.mp hq).1
    apply safe_bind
    refine (step q (List.mem_of_getElem? hq) w hJ).mono ?_
    rintro out w' ⟨hJ', hout, hkept⟩
    apply safe_pure
    have hset : AnsweredAt A questions (answers.set i out) w' i := by
      intro q' hq'
      cases hq.symm.trans hq'
      exact ⟨out, List.getElem?_set_self hi, hout⟩
    refine ⟨hJ', by rw [List.length_set, hlength], hset, ?_⟩
    intro j hj
    -- the turn may be one that its question has had before; then the later answer counts
    by_cases hij : i = j
    · exact hij ▸ hset
    · intro q' hq'
      obtain ⟨out', hout', hA⟩ := hj q' hq'
      exact ⟨out', by rw [List.getElem?_set_ne hij, hout'], hkept q' out' hA⟩
  -- a turn beyond the questions asks nothing
  · next hnone =>
    apply safe_pure
    refine ⟨hJ, hlength, ?_, fun _ hj => hj⟩
    intro q hq
    rw [hnone] at hq
    cases hq

/-- The rule for questions asked in turns: if `J` holds at every turn and no turn spoils an answer,
then every question whose turn comes has an answer in its place. -/
theorem safe_collect {turns : List Nat} (hturns : ∀ i < questions.length, i ∈ turns)
    (step : ∀ q ∈ questions, ∀ w, J w → Safe E (ask q) w fun out w' =>
      J w' ∧ A q out w' ∧ ∀ q' out', A q' out' w → A q' out' w')
    {w : σ} (start : J w) :
    Safe E (collect ask questions turns) w fun answers w' =>
      J w' ∧ List.Forall₂ (fun q out => A q out w') questions answers := by
  have hloop : Safe E (collect ask questions turns) w fun answers w' => J w' ∧
      answers.length = questions.length ∧ ∀ i ∈ turns, AnsweredAt A questions answers w' i := by
    refine safe_foldlM_prefix (I := fun done answers w => J w ∧
      answers.length = questions.length ∧ ∀ i ∈ done, AnsweredAt A questions answers w i)
      turns ?_ ⟨start, List.length_map _, nofun⟩
    rintro done i rest - answers w ⟨hJ, hlength, hdone⟩
    refine (safe_answerAt step hJ hlength i).mono ?_
    rintro answers' w' ⟨hJ', hlength', hi, hkept⟩
    refine ⟨hJ', hlength', ?_⟩
    intro j hj
    rcases List.mem_append.mp hj with hold | hnew
    · exact hkept j (hdone j hold)
    · rw [List.mem_singleton.mp hnew]
      exact hi
  refine hloop.mono ?_
  rintro answers w' ⟨hJ, hlength, hall⟩
  -- all turns have come, and the answers stand where their questions do
  refine ⟨hJ, List.forall₂_iff_get.mpr ⟨hlength.symm, ?_⟩⟩
  intro i hi hi'
  obtain ⟨out, hout, hA⟩ := hall i (hturns i hi) (questions.get ⟨i, hi⟩) (by simp)
  obtain ⟨_, rfl⟩ := List.getElem?_eq_some_iff.mp hout
  exact hA

theorem ensures_collect {turns : List Nat} (hturns : ∀ i < questions.length, i ∈ turns)
    (step : ∀ q ∈ questions, ∀ w, J w → Ensures (ask q) w fun out w' =>
      J w' ∧ A q out w' ∧ ∀ q' out', A q' out' w → A q' out' w')
    {w : σ} (start : J w) :
    Ensures (collect ask questions turns) w fun answers w' =>
      J w' ∧ List.Forall₂ (fun q out => A q out w') questions answers :=
  (safe_collect hturns (fun q hq w hJ => (step q hq w hJ).safe) start).result

end

end Tabulation.Run

end TaintFlow
