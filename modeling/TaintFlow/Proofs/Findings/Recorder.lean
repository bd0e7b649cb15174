import Mathlib.Data.List.Permutation
import TaintFlow.Findings.Recorder
import TaintFlow.Proofs.Grouping
import TaintFlow.Proofs.Program.Realization

/-!
# A recorder is a log

A recorder scatters what is recorded over its groups, and nothing says which group comes first: the
groups may be rearranged at any time (`Recorder.Recorded`). Still every answer of a recorder is an
answer about the sequence of its records (`Recorder.views_of_recorded`).

The report is the delicate one. It collects the groups in whatever order they stand and sorts by
sink and source, which does not tell all findings apart. Two facts make it unique. A stable sort is
determined by what it does to elements that tie (`SortsStably.eq`). And findings that tie have the
same sink, so they come from one group, in which they stand in the order of recording
(`Recorder.Keeps.tiesWith_entries`).
-/

namespace TaintFlow

/-! ## Stable sorting -/

section

variable {α : Type} {le : α → α → Bool}

/-- The elements that the order does not tell apart from `a`. -/
def tiesWith (le : α → α → Bool) (a : α) (l : List α) : List α := l.filter fun b => le a b && le b a

/-- `out` has the elements of `l` in ascending order, and elements that tie stand in the same order
as in `l`. -/
structure SortsStably (le : α → α → Bool) (l out : List α) : Prop where
  ascending : out.Pairwise fun a b => le a b = true
  ties : ∀ a, tiesWith le a out = tiesWith le a l

theorem tiesWith_cons_of_tie {a b : α} (hab : le a b = true) (hba : le b a = true) (l : List α) :
    tiesWith le a (b :: l) = b :: tiesWith le a l := by
  unfold tiesWith
  rw [List.filter_cons_of_pos]
  simp [hab, hba]

theorem tiesWith_of_cons {a b : α} {l l' : List α}
    (h : tiesWith le a (b :: l) = tiesWith le a (b :: l')) :
    tiesWith le a l = tiesWith le a l' := by
  unfold tiesWith at h
  rw [List.filter_cons, List.filter_cons] at h
  split at h
  · exact (List.cons.inj h).2
  · exact h

section

variable (htotal : ∀ a b, (le a b || le b a) = true)

include htotal

theorem le_self_of_total (a : α) : le a a = true := by
  simpa using htotal a a

theorem mem_tiesWith_self {a : α} {l : List α} : a ∈ tiesWith le a l ↔ a ∈ l := by
  simp [tiesWith, le_self_of_total htotal a]

theorem mem_iff_of_ties {l l' : List α} (hties : ∀ a, tiesWith le a l = tiesWith le a l') {a : α} :
    a ∈ l ↔ a ∈ l' := by
  rw [← mem_tiesWith_self htotal, hties a, mem_tiesWith_self htotal]

/-- Ascending lists are equal if their elements agree wherever they tie. -/
theorem eq_of_ties {l l' : List α} (h : l.Pairwise fun a b => le a b = true)
    (h' : l'.Pairwise fun a b => le a b = true) (hties : ∀ a, tiesWith le a l = tiesWith le a l') :
    l = l' := by
  have hmem : ∀ {a}, a ∈ l ↔ a ∈ l' := mem_iff_of_ties htotal hties
  induction l generalizing l' with
  | nil =>
    exact (List.eq_nil_iff_forall_not_mem.mpr fun a ha => List.not_mem_nil (hmem.mpr ha)).symm
  | cons a l ih =>
    cases l' with
    | nil => exact absurd (hmem.mp (List.mem_cons_self ..)) List.not_mem_nil
    | cons b l' =>
      rw [List.pairwise_cons] at h h'
      -- each head is somewhere in the other list, so neither is less than the other
      have hab : le a b = true := by
        rcases List.mem_cons.mp (hmem.mpr (List.mem_cons_self ..)) with rfl | hb
        · exact le_self_of_total htotal b
        · exact h.1 b hb
      have hba : le b a = true := by
        rcases List.mem_cons.mp (hmem.mp (List.mem_cons_self ..)) with rfl | ha
        · exact le_self_of_total htotal a
        · exact h'.1 a ha
      have hself := le_self_of_total htotal a
      have hheads := hties a
      rw [tiesWith_cons_of_tie hself hself, tiesWith_cons_of_tie hab hba] at hheads
      rcases List.cons.inj hheads with ⟨rfl, -⟩
      have htails : ∀ c, tiesWith le c l = tiesWith le c l' := fun c => tiesWith_of_cons (hties c)
      rw [ih h.2 h'.2 htails (mem_iff_of_ties htotal htails)]

theorem SortsStably.eq {l out out' : List α} (h : SortsStably le l out)
    (h' : SortsStably le l out') :
    out = out' :=
  eq_of_ties htotal h.ascending h'.ascending fun a => (h.ties a).trans (h'.ties a).symm

/-- A stable sort loses and duplicates nothing. -/
theorem SortsStably.perm [DecidableEq α] {l out : List α} (h : SortsStably le l out) :
    out.Perm l := by
  have hcount : ∀ a (l : List α), (tiesWith le a l).count a = l.count a := by
    intro a l
    apply List.count_filter
    rw [le_self_of_total htotal a, Bool.and_self]
  rw [List.perm_iff_count]
  intro a
  rw [← hcount, h.ties a, hcount]

theorem sortsStably_mergeSort (htrans : ∀ a b c, le a b = true → le b c = true → le a c = true)
    (l : List α) :
    SortsStably le l (l.mergeSort le) where
  ascending := List.pairwise_mergeSort htrans htotal l
  ties := by
    intro a
    -- elements that tie are ascending as they stand, and the sort keeps ascending elements in
    -- their order
    have hascending : (tiesWith le a l).Pairwise fun b c => le b c = true := by
      apply List.pairwise_of_forall_mem_list
      intro b hb c hc
      simp only [tiesWith, List.mem_filter, Bool.and_eq_true] at hb hc
      exact htrans b a c hb.2.2 hc.2.1
    have hsub : (tiesWith le a l).Sublist (tiesWith le a (l.mergeSort le)) := by
      have hkept := List.sublist_mergeSort htrans htotal hascending List.filter_sublist
      have hfiltered := hkept.filter fun b => le a b && le b a
      unfold tiesWith at hfiltered ⊢
      simpa only [List.filter_filter, Bool.and_self] using hfiltered
    have hlength : (tiesWith le a l).length = (tiesWith le a (l.mergeSort le)).length :=
      ((List.mergeSort_perm l le).symm.filter _).length_eq
    exact (hsub.eq_of_length hlength).symm

end

end

/-! ## The order of reports -/

/-- Statements that are all different are strictly ascending once they are sorted. -/
theorem StmtId.ascending_mergeSort {ss : List StmtId} (h : ss.Nodup) :
    (ss.mergeSort fun a b => a.index ≤ b.index).Pairwise fun a b => a.index < b.index := by
  have hsorted : (ss.mergeSort fun a b => a.index ≤ b.index).Pairwise fun a b =>
      decide (a.index ≤ b.index) = true := by
    apply List.pairwise_mergeSort
    · intro a b c hab hbc
      exact decide_eq_true (Nat.le_trans (of_decide_eq_true hab) (of_decide_eq_true hbc))
    · intro a b
      simpa using Nat.le_total a.index b.index
  have hnodup : (ss.mergeSort fun a b => a.index ≤ b.index).Nodup :=
    (List.mergeSort_perm ss _).nodup_iff.mpr h
  refine hsorted.imp₂ ?_ hnodup
  intro a b hle hne
  exact Nat.lt_of_le_of_ne (of_decide_eq_true hle) fun heq => hne (congrArg StmtId.mk heq)

namespace Finding

theorem le_iff {a b : Finding} : le a b = true ↔
    a.sink.index < b.sink.index ∨ a.sink = b.sink ∧ a.source.index ≤ b.source.index := by
  simp [le]

theorem le_total (a b : Finding) : (le a b || le b a) = true := by
  rw [Bool.or_eq_true, le_iff, le_iff]
  rcases Nat.lt_trichotomy a.sink.index b.sink.index with hlt | heq | hgt
  · exact Or.inl (Or.inl hlt)
  · have hsink : a.sink = b.sink := congrArg StmtId.mk heq
    rcases Nat.le_total a.source.index b.source.index with hle | hge
    · exact Or.inl (Or.inr ⟨hsink, hle⟩)
    · exact Or.inr (Or.inr ⟨hsink.symm, hge⟩)
  · exact Or.inr (Or.inl hgt)

theorem le_trans (a b c : Finding) (hab : le a b = true) (hbc : le b c = true) : le a c = true := by
  rw [le_iff] at *
  rcases hab with hab | ⟨hab, hab'⟩
  · rcases hbc with hbc | ⟨hbc, -⟩
    · exact Or.inl (Nat.lt_trans hab hbc)
    · exact Or.inl (hbc ▸ hab)
  · rw [hab]
    exact hbc.imp_right fun hbc => ⟨hbc.1, Nat.le_trans hab' hbc.2⟩

theorem sink_eq_of_tie {a b : Finding} (h : (le a b && le b a) = true) : b.sink = a.sink := by
  rw [Bool.and_eq_true, le_iff, le_iff] at h
  rcases h with ⟨hab | hab, hba | hba⟩
  · omega
  · exact hba.1
  · exact hab.1.symm
  · exact hba.1

end Finding

/-! ## Recording -/

namespace Recorder

/-- The recorder after a sequence of records. At any time its groups may come to stand in another
order. -/
inductive Recorded : List Finding → Recorder → Prop
  | empty : Recorded [] {}
  | record {fs : List Finding} {r : Recorder} (f : Finding) :
      Recorded fs r → Recorded (fs ++ [f]) (r.record f)
  | rearrange {fs : List Finding} {r r' : Recorder} : Recorded fs r → r'.count = r.count →
      r'.bySink.groups.Perm r.bySink.groups → Recorded fs r'

/-- The recorder has counted the findings, and under each sink it has those at that sink, in their
order. -/
structure Keeps (r : Recorder) (fs : List Finding) : Prop where
  count : r.count = fs.length
  under : ∀ sink, r.bySink.under sink = fs.filter (·.sink == sink)

variable {r r' : Recorder} {fs : List Finding}

theorem Keeps.record (h : r.Keeps fs) (f : Finding) : (r.record f).Keeps (fs ++ [f]) where
  count := by
    rw [List.length_append, ← h.count]
    rfl
  under := by
    intro sink
    have hadd : (r.record f).bySink.under sink =
        r.bySink.under sink ++ if sink = f.sink then [f] else [] :=
      Grouping.under_add
    rw [hadd, h.under, List.filter_append]
    by_cases hsink : sink = f.sink
    · simp [hsink]
    · simp [hsink, Ne.symm hsink]

theorem Keeps.rearrange (h : r.Keeps fs) (hcount : r'.count = r.count)
    (hperm : r'.bySink.groups.Perm r.bySink.groups) : r'.Keeps fs where
  count := hcount.trans h.count
  under := by
    intro sink
    rw [Grouping.under_of_perm hperm, h.under]

theorem Recorded.keeps (h : Recorded fs r) : r.Keeps fs := by
  induction h with
  | empty => exact ⟨rfl, fun _ => rfl⟩
  | record f _ ih => exact ih.record f
  | rearrange _ hcount hperm ih => exact ih.rearrange hcount hperm

/-! ## Answers -/

theorem Keeps.mem_keys_iff (h : r.Keeps fs) {sink : StmtId} :
    sink ∈ r.bySink.keys ↔ ∃ f ∈ fs, f.sink = sink := by
  rw [Grouping.mem_keys_iff, h.under, Ne, List.filter_eq_nil_iff]
  simp

theorem Keeps.mem_sinks_iff (h : r.Keeps fs) {sink : StmtId} :
    sink ∈ r.sinks ↔ ∃ f ∈ fs, f.sink = sink := by
  unfold sinks
  rw [List.mem_mergeSort, h.mem_keys_iff]

theorem Keeps.containsFlow_iff (h : r.Keeps fs) {sink source : StmtId} :
    r.containsFlow sink source = true ↔ ∃ f ∈ fs, f.sink = sink ∧ f.source = source := by
  unfold containsFlow atSink
  rw [h.under, List.any_filter]
  simp

/-- What ties in the groups, in whatever order they stand, is what ties in the sequence. -/
theorem Keeps.tiesWith_entries (h : r.Keeps fs) (f : Finding) :
    tiesWith Finding.le f r.bySink.entries = tiesWith Finding.le f fs := by
  -- no other group has anything that ties with `f`
  have hother : ∀ k, k ≠ f.sink →
      (r.bySink.under k).filter (fun b => Finding.le f b && Finding.le b f) = [] := by
    intro k hk
    rw [List.filter_eq_nil_iff, h.under]
    intro b hb htie
    have hsink := (List.mem_filter.mp hb).2
    exact hk ((eq_of_beq hsink).symm.trans (Finding.sink_eq_of_tie htie))
  unfold tiesWith
  rw [Grouping.filter_entries hother, h.under, List.filter_filter]
  apply List.filter_congr
  intro b _
  by_cases htie : (Finding.le f b && Finding.le b f) = true
  · simp [htie, Finding.sink_eq_of_tie htie]
  · simp [htie]

theorem Keeps.sortsStably_report (h : r.Keeps fs) : SortsStably Finding.le fs r.report where
  ascending := List.pairwise_mergeSort Finding.le_trans Finding.le_total _
  ties := by
    intro f
    rw [← h.tiesWith_entries f]
    exact (sortsStably_mergeSort Finding.le_total Finding.le_trans _).ties f

/-- A recorder answers like a log. -/
structure Shows (r : Recorder) (log : Findings) : Prop where
  size : r.size = log.size
  isEmpty : r.isEmpty = log.isEmpty
  atSink : ∀ sink, r.atSink sink = log.atSink sink
  sinks : r.sinks = log.sinks
  containsFlow : ∀ sink source, r.containsFlow sink source = log.containsFlow sink source
  report : r.report = log.report

theorem Keeps.shows (h : r.Keeps fs) : r.Shows { log := fs } where
  size := h.count
  isEmpty := by
    unfold isEmpty Findings.isEmpty
    rw [h.count]
    cases fs <;> rfl
  atSink := h.under
  sinks := by
    have hnodup : (fs.map (·.sink)).eraseDups.Nodup := Builder.nodup_eraseDups _
    have hperm : r.bySink.keys.Perm (fs.map (·.sink)).eraseDups := by
      apply (List.perm_ext_iff_of_nodup r.bySink.keys_nodup hnodup).mpr
      intro sink
      rw [List.mem_eraseDups, List.mem_map (l := fs)]
      exact h.mem_keys_iff
    -- both are sorted and have no sink twice
    refine List.Perm.eq_of_pairwise ?_ (StmtId.ascending_mergeSort r.bySink.keys_nodup)
      (StmtId.ascending_mergeSort hnodup) ?_
    · intro a b _ _ hab hba
      exact absurd hab (Nat.lt_asymm hba)
    · exact ((List.mergeSort_perm _ _).trans hperm).trans (List.mergeSort_perm _ _).symm
  containsFlow := by
    intro sink source
    rw [Bool.eq_iff_iff, h.containsFlow_iff]
    simp [Findings.containsFlow]
  report := h.sortsStably_report.eq Finding.le_total
    (sortsStably_mergeSort Finding.le_total Finding.le_trans fs)

/-- Whatever the order of its groups, a recorder answers about the sequence of its records: how long
it is, which findings it has at a sink, which sinks occur in it, and which flows. Its report is the
stable sort of the whole sequence by sink and source. These are the answers of the log. -/
theorem views_of_recorded (h : Recorded fs r) :
    r.size = fs.length ∧
    (∀ sink, r.atSink sink = fs.filter (·.sink == sink)) ∧
    (r.sinks.Pairwise (fun a b => a.index < b.index) ∧
      ∀ sink, sink ∈ r.sinks ↔ ∃ f ∈ fs, f.sink = sink) ∧
    (∀ sink source, r.containsFlow sink source = true ↔
      ∃ f ∈ fs, f.sink = sink ∧ f.source = source) ∧
    (SortsStably Finding.le fs r.report ∧ r.report.Perm fs ∧
      ∀ out, SortsStably Finding.le fs out → out = r.report) ∧
    r.Shows { log := fs } := by
  have hkeeps := h.keeps
  refine ⟨hkeeps.count, hkeeps.under, ⟨StmtId.ascending_mergeSort r.bySink.keys_nodup, ?_⟩,
    ?_, ?_, hkeeps.shows⟩
  · intro sink
    exact hkeeps.mem_sinks_iff
  · intro sink source
    exact hkeeps.containsFlow_iff
  · have hreport := hkeeps.sortsStably_report
    exact ⟨hreport, hreport.perm Finding.le_total, fun out hout => hout.eq Finding.le_total hreport⟩

/-- A finding of numbers, for runs on fixed findings. -/
def numbered (value : Int) (sink source : Nat) : Finding :=
  ⟨.int value, ⟨sink⟩, ⟨source⟩, .int 0, none⟩

/-- Two findings that the order does not tell apart, with a finding at another sink between them,
and the groups in the other order than they came. -/
theorem views_of_recorded_rearranged : ∃ r : Recorder, r.bySink.keys = [⟨3⟩, ⟨5⟩] ∧
    Recorded [numbered 7 5 1, numbered 0 3 2, numbered 6 5 1] r ∧
    r.size = 3 ∧ r.sinks = [⟨3⟩, ⟨5⟩] ∧
      r.report = [numbered 0 3 2, numbered 7 5 1, numbered 6 5 1] := by
  have hrecorded :=
    ((Recorded.empty.record (numbered 7 5 1)).record (numbered 0 3 2)).record (numbered 6 5 1)
  have hswapped : Recorded [numbered 7 5 1, numbered 0 3 2, numbered 6 5 1]
      ⟨⟨[(⟨3⟩, [numbered 0 3 2]), (⟨5⟩, [numbered 7 5 1, numbered 6 5 1])],
        by decide, by decide⟩, 3⟩ :=
    hrecorded.rearrange rfl (List.Perm.swap _ _ _)
  rcases views_of_recorded hswapped with ⟨hsize, -, -, -, -, hshows⟩
  refine ⟨_, rfl, hswapped, hsize, hshows.sinks.trans ?_, hshows.report.trans ?_⟩
  · cbv
  · cbv

end Recorder

end TaintFlow
