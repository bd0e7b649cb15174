import Mathlib.Data.List.TakeWhile
import TaintFlow.Text.Space

/-!
# What the readers find

Each reader of a text is characterized by the text alone: an expected character or a run stands in
front of what is left (`expect?_eq_some_iff`, `run?_eq_some_iff`), a trimmed text has lost blanks at
its ends and has none there any more (`trim_eq_iff`), and the pieces of a text are the lists without
separators that it joins (`pieces_eq_iff`).

A run that is as long as possible can be cut off in one way only (`eq_of_append_eq`).
-/

namespace TaintFlow.Text

/-- Nothing but blanks. -/
def Blank (cs : List Char) : Prop := ∀ c ∈ cs, isSpace c = true

theorem blank_nil : Blank [] := by
  simp [Blank]

theorem blank_space : Blank [' '] := by
  simp [Blank, isSpace]

/-- The text does not go on with a character in `p`. -/
def Stops (p : Char → Bool) (cs : List Char) : Prop := ∀ c ∈ cs.head?, p c = false

/-! ## Runs -/

section

variable {p : Char → Bool}

@[simp] theorem stops_nil : Stops p [] := by
  simp [Stops]

@[simp] theorem stops_cons {c : Char} {cs : List Char} : Stops p (c :: cs) ↔ p c = false := by
  simp [Stops]

theorem stops_append {cs : List Char} (hne : cs ≠ []) (h : Stops p cs) (rest : List Char) :
    Stops p (cs ++ rest) := by
  obtain ⟨c, cs, rfl⟩ := List.exists_cons_of_ne_nil hne
  simpa using h

theorem stops_of_forall {cs : List Char} (h : ∀ c ∈ cs, p c = false) : Stops p cs := by
  intro c hc
  exact h c (List.mem_of_mem_head? hc)

theorem stops_dropWhile (cs : List Char) : Stops p (cs.dropWhile p) := by
  intro c hc
  have h := List.head?_dropWhile_not p cs
  rwa [Option.mem_def.mp hc] at h

theorem takeWhile_run {run rest : List Char} (hrun : ∀ c ∈ run, p c = true) (hrest : Stops p rest) :
    (run ++ rest).takeWhile p = run := by
  rw [List.takeWhile_append_of_pos hrun]
  cases rest with
  | nil => simp
  | cons c rest => simp [stops_cons.mp hrest]

theorem dropWhile_run {run rest : List Char} (hrun : ∀ c ∈ run, p c = true) (hrest : Stops p rest) :
    (run ++ rest).dropWhile p = rest := by
  rw [List.dropWhile_append_of_pos hrun]
  cases rest with
  | nil => rfl
  | cons c rest => simp [stops_cons.mp hrest]

/-- There is one way to cut off a longest run. -/
theorem eq_of_append_eq {run run' rest rest' : List Char} (h : run ++ rest = run' ++ rest')
    (hrun : ∀ c ∈ run, p c = true) (hrest : Stops p rest)
    (hrun' : ∀ c ∈ run', p c = true) (hrest' : Stops p rest') : run = run' ∧ rest = rest' := by
  constructor
  · rw [← takeWhile_run hrun hrest, h, takeWhile_run hrun' hrest']
  · rw [← dropWhile_run hrun hrest, h, dropWhile_run hrun' hrest']

theorem expect?_eq_some_iff {c : Char} {cs rest : List Char} :
    expect? c cs = some rest ↔ cs = c :: rest := by
  cases cs with
  | nil => simp [expect?]
  | cons d ds => simp [expect?]

theorem expect?_cons (c : Char) (cs : List Char) : expect? c (c :: cs) = some cs :=
  expect?_eq_some_iff.mpr rfl

theorem run?_eq_some_iff {cs run rest : List Char} :
    run? p cs = some (run, rest) ↔
      cs = run ++ rest ∧ run ≠ [] ∧ (∀ c ∈ run, p c = true) ∧ Stops p rest := by
  unfold run?
  constructor
  · intro h
    split at h
    · cases h
    · next hne =>
      cases h
      refine ⟨List.takeWhile_append_dropWhile.symm, hne, ?_, stops_dropWhile cs⟩
      intro c hc
      exact List.mem_takeWhile_imp hc
  · rintro ⟨rfl, hne, hrun, hrest⟩
    rw [takeWhile_run hrun hrest, dropWhile_run hrun hrest]
    obtain ⟨c, run, rfl⟩ := List.exists_cons_of_ne_nil hne
    rfl

theorem run?_append {run rest : List Char} (hne : run ≠ []) (hrun : ∀ c ∈ run, p c = true)
    (hrest : Stops p rest) : run? p (run ++ rest) = some (run, rest) :=
  run?_eq_some_iff.mpr ⟨rfl, hne, hrun, hrest⟩

end

/-! ## Trimming -/

theorem trimStart_blank_append {w rest : List Char} (hw : Blank w) (hrest : Stops isSpace rest) :
    trimStart (w ++ rest) = rest :=
  dropWhile_run hw hrest

theorem trimEnd_append_blank {core w : List Char} (hw : Blank w)
    (hcore : Stops isSpace core.reverse) : trimEnd (core ++ w) = core := by
  have hback : Blank w.reverse := by
    intro c hc
    exact hw c (List.mem_reverse.mp hc)
  unfold trimEnd
  rw [List.reverse_append, dropWhile_run hback hcore, List.reverse_reverse]

theorem exists_blank_trimStart (cs : List Char) : ∃ w, Blank w ∧ cs = w ++ trimStart cs :=
  ⟨cs.takeWhile isSpace, fun _ hc => List.mem_takeWhile_imp hc,
    List.takeWhile_append_dropWhile.symm⟩

theorem exists_blank_trimEnd (cs : List Char) : ∃ w, Blank w ∧ cs = trimEnd cs ++ w := by
  refine ⟨(cs.reverse.takeWhile isSpace).reverse, ?_, ?_⟩
  · intro c hc
    exact List.mem_takeWhile_imp (List.mem_reverse.mp hc)
  · unfold trimEnd
    rw [← List.reverse_append, List.takeWhile_append_dropWhile, List.reverse_reverse]

/-- `core` is `cs` without the blanks at both ends. -/
structure Trims (cs core : List Char) : Prop where
  cut : ∃ before after, Blank before ∧ Blank after ∧ cs = before ++ core ++ after
  start : Stops isSpace core
  finish : Stops isSpace core.reverse

theorem trim_eq_iff {cs core : List Char} : trim cs = core ↔ Trims cs core := by
  unfold trim
  constructor
  · rintro rfl
    obtain ⟨before, hbefore, hcs⟩ := exists_blank_trimStart cs
    obtain ⟨after, hafter, hstart⟩ := exists_blank_trimEnd (trimStart cs)
    refine ⟨⟨before, after, hbefore, hafter, ?_⟩, ?_, ?_⟩
    · rw [List.append_assoc, ← hstart]
      exact hcs
    · -- a text that is not empty starts where it started before its end was cut
      have hstops : Stops isSpace (trimStart cs) := stops_dropWhile cs
      cases hcore : trimEnd (trimStart cs) with
      | nil => exact stops_nil
      | cons c core =>
        rw [hcore] at hstart
        rw [hstart] at hstops
        exact stops_cons.mpr (stops_cons.mp hstops)
    · unfold trimEnd
      rw [List.reverse_reverse]
      exact stops_dropWhile _
  · rintro ⟨⟨before, after, hbefore, hafter, rfl⟩, hstart, hfinish⟩
    -- where nothing is left, it does not matter which blanks belong to which side
    by_cases hne : core = []
    · subst hne
      rw [List.append_nil, ← List.append_nil (before ++ after), trimStart_blank_append _ stops_nil]
      · rfl
      · intro c hc
        exact (List.mem_append.mp hc).elim (hbefore c) (hafter c)
    · rw [List.append_assoc, trimStart_blank_append hbefore (stops_append hne hstart after)]
      exact trimEnd_append_blank hafter hfinish

theorem trims_trim (cs : List Char) : Trims cs (trim cs) :=
  trim_eq_iff.mp rfl

theorem trim_trim (cs : List Char) : trim (trim cs) = trim cs :=
  trim_eq_iff.mpr ⟨⟨[], [], blank_nil, blank_nil, by simp⟩, (trims_trim cs).start,
    (trims_trim cs).finish⟩

theorem trim_subset (cs : List Char) : trim cs ⊆ cs := by
  rcases (trims_trim cs).cut with ⟨before, after, -, -, hcut⟩
  intro c hc
  rw [hcut]
  simp [hc]

/-! ## Pieces -/

theorem mem_intercalate {sep c : Char} {ps : List (List Char)} (h : c ∈ [sep].intercalate ps) :
    c = sep ∨ ∃ p ∈ ps, c ∈ p := by
  induction ps with
  | nil => simp at h
  | cons p ps ih =>
    cases ps with
    | nil => exact Or.inr ⟨p, List.mem_singleton.mpr rfl, by simpa using h⟩
    | cons q ps =>
      rw [List.intercalate_cons_cons, List.append_assoc, List.mem_append, List.mem_append,
        List.mem_singleton] at h
      rcases h with hp | rfl | hrest
      · exact Or.inr ⟨p, List.mem_cons_self .., hp⟩
      · exact Or.inl rfl
      · rcases ih hrest with rfl | ⟨p', hp', hc⟩
        · exact Or.inl rfl
        · exact Or.inr ⟨p', List.mem_cons_of_mem p hp', hc⟩

theorem subset_intercalate {sep : Char} {p : List Char} {ps : List (List Char)} (h : p ∈ ps) :
    p ⊆ [sep].intercalate ps := by
  induction ps with
  | nil => simp at h
  | cons q ps ih =>
    cases ps with
    | nil => simp [List.mem_singleton.mp h]
    | cons q' ps =>
      intro c hc
      rw [List.intercalate_cons_cons]
      rcases List.mem_cons.mp h with rfl | h
      · simp [hc]
      · simp [ih h hc]

/-- `ps` is the list of the texts between the separators of `cs`. -/
structure Separates (sep : Char) (ps : List (List Char)) (cs : List Char) : Prop where
  ne_nil : ps ≠ []
  apart : ∀ p ∈ ps, sep ∉ p
  joined : [sep].intercalate ps = cs

theorem Separates.splitOn_eq {sep : Char} {ps : List (List Char)} {cs : List Char}
    (h : Separates sep ps cs) : cs.splitOn sep = ps := by
  rw [← h.joined]
  exact List.splitOn_intercalate sep h.apart h.ne_nil

-- piece by piece from the end, as `pieces` does it: a separator opens a new first piece
theorem separates_pieces (sep : Char) (cs : List Char) : Separates sep (pieces sep cs) cs := by
  fun_induction pieces sep cs with
  | case1 => exact ⟨by simp, by simp, rfl⟩
  | case2 cs ih =>
    obtain ⟨p, ps, hps⟩ := List.exists_cons_of_ne_nil ih.ne_nil
    refine ⟨by simp, ?_, ?_⟩
    · simpa using ih.apart
    · have hjoined := ih.joined
      rw [hps] at hjoined ⊢
      rw [← hjoined]
      simp [List.intercalate]
  | case3 c cs _ hnone ih => exact absurd hnone ih.ne_nil
  | case4 c cs hc p ps hps ih =>
    rw [hps] at ih
    refine ⟨by simp, ?_, ?_⟩
    · intro q hq
      rcases List.mem_cons.mp hq with rfl | hq
      · simpa [Ne.symm hc] using ih.apart p (List.mem_cons_self ..)
      · exact ih.apart q (List.mem_cons_of_mem p hq)
    · rw [← ih.joined]
      cases ps with
      | nil => simp [List.intercalate]
      | cons q ps => simp [List.intercalate]

theorem pieces_eq_iff {sep : Char} {ps : List (List Char)} {cs : List Char} :
    pieces sep cs = ps ↔ Separates sep ps cs := by
  constructor
  · rintro rfl
    exact separates_pieces sep cs
  · intro h
    rw [← (separates_pieces sep cs).splitOn_eq, h.splitOn_eq]

end TaintFlow.Text
